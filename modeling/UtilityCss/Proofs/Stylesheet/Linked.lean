import UtilityCss.Proofs.Stylesheet.Legible
import UtilityCss.Stylesheet.Edit

/-!
# Links that agree

A link is recorded twice, with the child and with the parent. The two records agree after any edits,
also after those that move a node below itself, where the links run in a circle.
-/
namespace UtilityCss
namespace Stylesheet

/-- A node is among the children of its parent, once, and nowhere else. -/
structure IsLinked (s : Stylesheet) : Prop where
  mem_children_iff : ∀ p c, c ∈ s.children p ↔ s.parent c = some p
  nodup_children : ∀ p, (s.children p).Nodup

theorem IsForest.isLinked {s : Stylesheet} (h : s.IsForest) : s.IsLinked :=
  ⟨h.mem_children_iff, h.nodup_children⟩

theorem perm_replace {t r : NodeId} {l : List NodeId} (h : t ∈ l) :
    (l.replace t r).Perm (r :: l.erase t) := by
  induction l with
  | nil => cases h
  | cons a l ih =>
    by_cases ha : a = t
    · subst ha
      rw [List.replace_cons_self, List.erase_cons_head]
    · have hmem : t ∈ l := List.mem_of_ne_of_mem (Ne.symm ha) h
      have hbeq : (t == a) = false := by simpa using Ne.symm ha
      rw [List.replace_cons, hbeq, List.erase_cons_tail (by simpa using ha)]
      exact ((ih hmem).cons a).trans (.swap r a _)

namespace IsLinked

variable {s s' : Stylesheet} {p c t r : NodeId}

theorem parent_lt_size (h : s.IsLinked) (hc : s.parent c = some p) : p.index < s.size :=
  lt_size_of_mem_children ((h.mem_children_iff p c).mpr hc)

theorem count_children (h : s.IsLinked) (p c : NodeId) :
    (s.children p).count c = if s.parent c = some p then 1 else 0 := by
  rw [(h.nodup_children p).count]
  simp only [h.mem_children_iff]

theorem congr (h : s.IsLinked) (hparent : ∀ j, s'.parent j = s.parent j)
    (hchildren : ∀ j, s'.children j = s.children j) : s'.IsLinked where
  mem_children_iff p c := by rw [hchildren, hparent, h.mem_children_iff]
  nodup_children p := by
    rw [hchildren]
    exact h.nodup_children p

theorem create (h : s.IsLinked) (content : Content) : (s.create content).IsLinked :=
  h.congr (fun _ => parent_create ..) (fun _ => children_create ..)

theorem modifyContent (h : s.IsLinked) (id : NodeId) (f : Content → Content) :
    (s.modifyContent id f).IsLinked :=
  h.congr (fun _ => parent_modifyContent ..) (fun _ => children_modifyContent ..)

theorem detach (h : s.IsLinked) (id : NodeId) : (s.detach id).IsLinked where
  mem_children_iff p c := by
    rw [children_detach, parent_detach]
    by_cases hc : c = id
    · subst hc
      by_cases hp : s.parent c = some p <;> simp [hp, h.mem_children_iff]
    · by_cases hp : s.parent id = some p <;> simp [hp, hc, h.mem_children_iff]
  nodup_children p := by
    rw [children_detach]
    split
    · exact (h.nodup_children p).filter _
    · exact h.nodup_children p

theorem attach (h : s.IsLinked) (hp : p.index < s.size) (hc : c.index < s.size)
    (hfree : s.parent c = none) {place : List NodeId → List NodeId}
    (hplace : ∀ l, (place l).Perm (c :: l)) : (s.attach p c place).IsLinked where
  mem_children_iff q x := by
    rw [children_attach hp, parent_attach hc]
    by_cases hq : q = p
    · subst hq
      rw [if_pos rfl, (hplace _).mem_iff, List.mem_cons, h.mem_children_iff]
      by_cases hx : x = c <;> simp [hx]
    · rw [if_neg hq, h.mem_children_iff]
      by_cases hx : x = c
      · simp [hx, hfree, Ne.symm hq]
      · simp [hx]
  nodup_children q := by
    rw [children_attach hp]
    split
    · rw [(hplace _).nodup_iff, List.nodup_cons, h.mem_children_iff, hfree]
      exact ⟨by simp, h.nodup_children p⟩
    · exact h.nodup_children q

theorem append (h : s.IsLinked) (hp : p.index < s.size) (hc : c.index < s.size) :
    (s.append p c).IsLinked :=
  (h.detach c).attach (by rwa [size_detach]) (by rwa [size_detach])
    (by rw [parent_detach, if_pos rfl]) (List.perm_append_singleton c)

theorem insert (h : s.IsLinked) (hp : p.index < s.size) (hc : c.index < s.size) (index : Nat) :
    (s.insert p index c).IsLinked :=
  (h.detach c).attach (by rwa [size_detach]) (by rwa [size_detach])
    (by rw [parent_detach, if_pos rfl]) fun l => List.perm_insertIdx c l (Nat.min_le_right _ _)

theorem replaceWith (h : s.IsLinked) (hr : r.index < s.size) : (s.replaceWith t r).IsLinked := by
  by_cases hne : t = r
  · rwa [Stylesheet.replaceWith, if_pos hne]
  · cases ht : s.parent t with
    | none => simpa [Stylesheet.replaceWith, hne, ht] using h
    | some p =>
      have hmem := (h.mem_children_iff p t).mpr ht
      have hdetached := h.detach r
      have htarget : (s.detach r).parent t = some p := by rw [parent_detach, if_neg hne, ht]
      have hperm := perm_replace (r := r) ((hdetached.mem_children_iff p t).mpr htarget)
      have hnodup := hdetached.nodup_children p
      have hr' : r ∉ (s.detach r).children p := by
        rw [hdetached.mem_children_iff, parent_detach, if_pos rfl]
        simp
      constructor
      · intro q x
        rw [children_replaceWith hne ht hmem (h.parent_lt_size ht),
          parent_replaceWith hne ht hmem hr]
        by_cases hq : q = p
        · subst hq
          rw [if_pos rfl, hperm.mem_iff, List.mem_cons, hnodup.mem_erase_iff,
            hdetached.mem_children_iff, parent_detach]
          by_cases hxt : x = t
          · simp [hxt, hne]
          · by_cases hxr : x = r <;> simp [hxt, hxr, Ne.symm hne]
        · rw [if_neg hq, hdetached.mem_children_iff, parent_detach]
          by_cases hxt : x = t
          · simp [hxt, hne, ht, Ne.symm hq]
          · by_cases hxr : x = r
            · simp [hxr, Ne.symm hne, Ne.symm hq]
            · simp [hxt, hxr]
      · intro q
        rw [children_replaceWith hne ht hmem (h.parent_lt_size ht)]
        split
        · rw [hperm.nodup_iff, List.nodup_cons]
          exact ⟨fun hmem => hr' (List.mem_of_mem_erase hmem), hnodup.erase t⟩
        · exact hdetached.nodup_children q

end IsLinked
end Stylesheet

theorem Edit.run?_eq_some_iff {s s' : Stylesheet} {e : Edit} :
    e.run? s = some s' ↔ (∀ id ∈ e.targets, id.index < s.size) ∧ e.run s = s' := by
  rw [run?]
  split
  · rename_i h
    simpa [Stylesheet.hasNode] using fun _ => h
  · rename_i h
    simpa [Stylesheet.hasNode] using fun hall _ => h hall

namespace Stylesheet

theorem IsLinked.run? {s s' : Stylesheet} (h : s.IsLinked) {e : Edit} (he : e.run? s = some s') :
    s'.IsLinked := by
  obtain ⟨htargets, rfl⟩ := Edit.run?_eq_some_iff.mp he
  cases e with
  | create content => exact h.create content
  | createAtRule name params raws => exact h.create _
  | detach id => exact h.detach id
  | append p c =>
    simp only [Edit.targets, List.forall_mem_cons] at htargets
    exact h.append htargets.1 htargets.2.1
  | insert p index c =>
    simp only [Edit.targets, List.forall_mem_cons] at htargets
    exact h.insert htargets.1 htargets.2.1 index
  | replaceWith t r =>
    simp only [Edit.targets, List.forall_mem_cons] at htargets
    exact h.replaceWith htargets.2.1
  | appendParams id text =>
    rw [Edit.run, appendParams]
    exact h.modifyContent id _
  | setKind id kind =>
    rw [Edit.run, setKind]
    exact h.modifyContent id _
  | setRaws id raws =>
    rw [Edit.run, setRaws, modifyRaws]
    exact h.modifyContent id _

/-- What comes about by steps of some kind, from nothing or from what was parsed. -/
inductive Reached (step : Stylesheet → Stylesheet → Prop) : Stylesheet → Prop
  | empty : Reached step .empty
  | parsed {source : Text} {s : Stylesheet} (h : parse source = .ok s) : Reached step s
  | step {s s' : Stylesheet} (h : Reached step s) (hstep : step s s') : Reached step s'

def Edits (s s' : Stylesheet) : Prop := ∃ e : Edit, e.run? s = some s'

theorem Reached.isLinked {s : Stylesheet} (h : Reached Edits s) : s.IsLinked := by
  induction h with
  | empty => exact isForest_empty.isLinked
  | parsed h => exact (isForest_of_parse h).isLinked
  | step _ hstep ih =>
    obtain ⟨e, he⟩ := hstep
    exact ih.run? he

/-- However a stylesheet was edited, a node stands once among the children of its parent and
nowhere else, and every link leads from a node to a node. -/
theorem links_agree {s : Stylesheet} (h : Reached Edits s) (p c : NodeId) :
    (s.children p).count c = (if s.parent c = some p then 1 else 0) ∧
      (c ∈ s.children p → s.hasNode p = true ∧ s.hasNode c = true) ∧
      (s.parent c = some p → s.hasNode p = true ∧ s.hasNode c = true) := by
  have hlinked := h.isLinked
  have hnodes : s.parent c = some p → s.hasNode p = true ∧ s.hasNode c = true := fun hc =>
    ⟨hasNode_iff.mpr (hlinked.parent_lt_size hc), hasNode_iff.mpr (lt_size_of_parent hc)⟩
  have hlisted : c ∈ s.children p → s.hasNode p = true ∧ s.hasNode c = true := fun hc =>
    hnodes ((hlinked.mem_children_iff p c).mp hc)
  exact ⟨hlinked.count_children p c, hlisted, hnodes⟩

/-- A node that was replaced by its own parent leaves that parent below itself. -/
theorem links_agree_in_circle :
    ∃ s, Reached Edits s ∧ s.parent ⟨1⟩ = some ⟨1⟩ ∧ (s.children ⟨1⟩).count ⟨1⟩ = 1 := by
  let note : Content := ⟨.comment [], {}⟩
  let created : Stylesheet := (empty.create note).create note
  let linked : Stylesheet := (created.append root ⟨1⟩).append ⟨1⟩ ⟨2⟩
  have hone : Reached Edits (empty.create note) := .step .empty ⟨.create note, rfl⟩
  have hcreated : Reached Edits created := .step hone ⟨.create note, rfl⟩
  have hfirst : Reached Edits (created.append root ⟨1⟩) := .step hcreated ⟨.append root ⟨1⟩, rfl⟩
  have hlinked : Reached Edits linked := .step hfirst ⟨.append ⟨1⟩ ⟨2⟩, rfl⟩
  have hcircle : Reached Edits (linked.replaceWith ⟨2⟩ ⟨1⟩) :=
    .step hlinked ⟨.replaceWith ⟨2⟩ ⟨1⟩, Edit.run?_eq_some_iff.mpr ⟨by decide, rfl⟩⟩
  exact ⟨_, hcircle, by decide, (links_agree hcircle ⟨1⟩ ⟨1⟩).1.trans (by decide)⟩

end Stylesheet
end UtilityCss
