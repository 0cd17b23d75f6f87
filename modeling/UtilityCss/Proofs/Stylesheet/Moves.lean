import UtilityCss.Proofs.Stylesheet.Linked
import UtilityCss.Proofs.Stylesheet.Descendants

/-!
# Moves that keep a forest

An edit is admissible if it puts no node under itself or under a node below it and leaves the root
where it is. After admissible edits the links still make a forest.
-/
namespace UtilityCss

/-- Whether the edit moves neither the root nor a node below itself. Nothing is moved where the
target of a replacement stands alone. -/
def Edit.Admissible (s : Stylesheet) : Edit → Prop
  | append p c | insert p _ c => c ≠ Stylesheet.root ∧ c ≠ p ∧ ¬ s.IsBelow p c
  | replaceWith t r => s.parent t ≠ none → r ≠ Stylesheet.root ∧ ¬ s.IsBelow t r
  | _ => True

namespace Stylesheet

variable {s s' : Stylesheet} {p c t r : NodeId}

/-- A chain ends if every node on it has its parent from before, or none, or its chain ends. -/
theorem Ancestry.exists_of_forall {id : NodeId} {l : List NodeId} (h : s.Ancestry id l)
    (hl : ∀ j ∈ id :: l,
      s'.parent j = none ∨ s'.parent j = s.parent j ∨ ∃ l', s'.Ancestry j l') :
    ∃ l', s'.Ancestry id l' := by
  induction h with
  | @top id hp =>
    rcases hl id (by simp) with hnone | hsame | hends
    · exact ⟨[], .top hnone⟩
    · exact ⟨[], .top (hsame.trans hp)⟩
    · exact hends
  | @step id q l hp _ ih =>
    rcases hl id (by simp) with hnone | hsame | hends
    · exact ⟨[], .top hnone⟩
    · obtain ⟨l', hl'⟩ := ih fun j hj => hl j (List.mem_cons_of_mem _ hj)
      exact ⟨q :: l', .step (hsame.trans hp) hl'⟩
    · exact hends

/-- If every chain ends and one node moves to where its chain ends, every chain still ends. -/
theorem exists_ancestry_of_move (h : ∀ id, ∃ l, s.Ancestry id l)
    (hkeep : ∀ j, j ≠ c → s'.parent j = none ∨ s'.parent j = s.parent j)
    (hc : ∃ l, s'.Ancestry c l) (id : NodeId) : ∃ l, s'.Ancestry id l := by
  obtain ⟨l, hl⟩ := h id
  refine hl.exists_of_forall fun j _ => ?_
  by_cases hj : j = c
  · exact .inr (.inr (hj ▸ hc))
  · exact (hkeep j hj).imp_right .inl

namespace IsForest

/-- One node may get any parent that is not that node and not below it. -/
theorem of_move (h : s.IsForest) (hlinked : s'.IsLinked) (hroot : s'.parent root = none)
    (hkeep : ∀ j, j ≠ c → s'.parent j = none ∨ s'.parent j = s.parent j)
    (hmoved : s'.parent c = some p) (hne : c ≠ p) (hbelow : ¬ s.IsBelow p c) : s'.IsForest := by
  obtain ⟨l, hl⟩ := h.ancestry p
  have hnot : c ∉ p :: l := by
    rw [List.mem_cons, not_or, hl.mem_iff]
    exact ⟨hne, hbelow⟩
  -- The chain of the new parent does not pass through the node that moves.
  have hends : ∃ l', s'.Ancestry p l' := hl.exists_of_forall fun j hj =>
    (hkeep j fun heq => hnot (heq ▸ hj)).imp_right .inl
  obtain ⟨l', hl'⟩ := hends
  exact ⟨hlinked.mem_children_iff, hlinked.nodup_children, hroot,
    exists_ancestry_of_move h.ancestry hkeep ⟨p :: l', .step hmoved hl'⟩⟩

theorem create (h : s.IsForest) (content : Content) : (s.create content).IsForest :=
  h.congr (fun _ => parent_create ..) (fun _ => children_create ..)

theorem modifyContent (h : s.IsForest) (id : NodeId) (f : Content → Content) :
    (s.modifyContent id f).IsForest :=
  h.congr (fun _ => parent_modifyContent ..) (fun _ => children_modifyContent ..)

theorem detach (h : s.IsForest) (id : NodeId) : (s.detach id).IsForest := by
  have hlinked := h.isLinked.detach id
  have hparent : ∀ j, (s.detach id).parent j = none ∨ (s.detach id).parent j = s.parent j := by
    intro j
    rw [parent_detach]
    split_ifs <;> simp
  refine ⟨hlinked.mem_children_iff, hlinked.nodup_children, ?_, ?_⟩
  · rcases hparent root with hnone | hsame
    · exact hnone
    · exact hsame.trans h.parent_root
  · have hid : (s.detach id).parent id = none := by rw [parent_detach, if_pos rfl]
    exact exists_ancestry_of_move h.ancestry (fun j _ => hparent j) ⟨[], .top hid⟩

theorem attach (h : s.IsForest) (hlinked : ((s.detach c).attach p c place).IsLinked)
    (hc : c.index < s.size) (hroot : c ≠ root) (hne : c ≠ p) (hbelow : ¬ s.IsBelow p c) :
    ((s.detach c).attach p c place).IsForest := by
  have hparent : ∀ j, ((s.detach c).attach p c place).parent j =
      if j = c then some p else s.parent j := by
    intro j
    rw [parent_attach (by rwa [size_detach]), parent_detach]
    split <;> rfl
  refine h.of_move hlinked ?_ (fun j hj => .inr ?_) ?_ hne hbelow
  · rw [hparent, if_neg (Ne.symm hroot), h.parent_root]
  · rw [hparent, if_neg hj]
  · rw [hparent, if_pos rfl]

theorem append (h : s.IsForest) (hp : p.index < s.size) (hc : c.index < s.size) (hroot : c ≠ root)
    (hne : c ≠ p) (hbelow : ¬ s.IsBelow p c) : (s.append p c).IsForest :=
  h.attach (h.isLinked.append hp hc) hc hroot hne hbelow

theorem insert (h : s.IsForest) (hp : p.index < s.size) (hc : c.index < s.size) (hroot : c ≠ root)
    (hne : c ≠ p) (hbelow : ¬ s.IsBelow p c) (index : Nat) : (s.insert p index c).IsForest :=
  h.attach (h.isLinked.insert hp hc index) hc hroot hne hbelow

theorem replaceWith (h : s.IsForest) (hr : r.index < s.size)
    (hadmissible : s.parent t ≠ none → r ≠ root ∧ ¬ s.IsBelow t r) :
    (s.replaceWith t r).IsForest := by
  by_cases hne : t = r
  · rwa [Stylesheet.replaceWith, if_pos hne]
  · cases ht : s.parent t with
    | none => simpa [Stylesheet.replaceWith, hne, ht] using h
    | some p =>
      obtain ⟨hroot, hbelow⟩ := hadmissible (by rw [ht]; simp)
      have hparent := parent_replaceWith hne ht ((h.isLinked.mem_children_iff p t).mpr ht) hr
      have hrp : r ≠ p := by
        rintro rfl
        exact hbelow (.single ht)
      have hpr : ¬ s.IsBelow p r := fun hpr => hbelow (.head ht hpr)
      refine h.of_move (h.isLinked.replaceWith hr) ?_ (fun j hj => ?_) ?_ hrp hpr
      · rw [hparent, if_neg (Ne.symm hroot), h.parent_root, ite_self]
      · rw [hparent, if_neg hj]
        split_ifs <;> simp
      · rw [hparent, if_neg (Ne.symm hne), if_pos rfl]

theorem run? (h : s.IsForest) {e : Edit} (hadmissible : e.Admissible s) (he : e.run? s = some s') :
    s'.IsForest := by
  obtain ⟨htargets, rfl⟩ := Edit.run?_eq_some_iff.mp he
  cases e with
  | create content => exact h.create content
  | createAtRule name params raws => exact h.create _
  | detach id => exact h.detach id
  | append p c =>
    simp only [Edit.targets, List.forall_mem_cons] at htargets
    obtain ⟨hroot, hne, hbelow⟩ := hadmissible
    exact h.append htargets.1 htargets.2.1 hroot hne hbelow
  | insert p index c =>
    simp only [Edit.targets, List.forall_mem_cons] at htargets
    obtain ⟨hroot, hne, hbelow⟩ := hadmissible
    exact h.insert htargets.1 htargets.2.1 hroot hne hbelow index
  | replaceWith t r =>
    simp only [Edit.targets, List.forall_mem_cons] at htargets
    exact h.replaceWith htargets.2.1 hadmissible
  | appendParams id text =>
    rw [Edit.run, appendParams]
    exact h.modifyContent id _
  | setKind id kind =>
    rw [Edit.run, setKind]
    exact h.modifyContent id _
  | setRaws id raws =>
    rw [Edit.run, setRaws, modifyRaws]
    exact h.modifyContent id _

end IsForest
end Stylesheet
end UtilityCss
