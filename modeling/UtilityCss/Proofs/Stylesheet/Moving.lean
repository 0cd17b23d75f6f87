import UtilityCss.Proofs.Stylesheet.Linked

/-!
# Where a moved node stands

An edit that moves a node takes it out of the list it stands in and puts it into one list of
children. No other list, no other link and nothing else about any node changes, also where the two
lists are the same or the node comes to stand below itself.
-/
namespace UtilityCss.Stylesheet

variable {s s' : Stylesheet} {p c t r : NodeId}

/-- The links after `moved` was put below `p`, where `place` arranges the children, and the nodes
`released` lost their parent. -/
structure Moves (s s' : Stylesheet) (moved p : NodeId) (released : List NodeId)
    (place : List NodeId → List NodeId) : Prop where
  size_eq : s'.size = s.size
  children_new : s'.children p = place ((s.children p).filter (· ≠ moved))
  children_other : ∀ q, q ≠ p → s'.children q = (s.children q).filter (· ≠ moved)
  parent_moved : s'.parent moved = some p
  parent_released : ∀ j ∈ released, s'.parent j = none
  parent_other : ∀ j, j ≠ moved → j ∉ released → s'.parent j = s.parent j

/-- The raws of `r` after it took the place of `t`: what stood before `t` now stands before `r`, if
nothing did. -/
def inheritedRaws (s : Stylesheet) (t r : NodeId) : Raws :=
  if (s.raws r).before = [] then { s.raws r with before := (s.raws t).before } else s.raws r

theorem replace_eq_map {l : List NodeId} (hl : l.Nodup) (t r : NodeId) :
    l.replace t r = l.map fun j => if j = t then r else j := by
  induction l with
  | nil => rfl
  | cons a l ih =>
    obtain ⟨ha, hl⟩ := List.nodup_cons.mp hl
    by_cases hat : a = t
    · subst hat
      have hrest : ∀ j ∈ l, (if j = a then r else j) = j := by
        intro j hj
        exact if_neg (ne_of_mem_of_not_mem hj ha)
      rw [List.replace_cons_self, List.map_cons, if_pos rfl, List.map_congr_left hrest,
        List.map_id']
    · have hbeq : (t == a) = false := by simpa using Ne.symm hat
      rw [List.replace_cons, hbeq, List.map_cons, if_neg hat, ← ih hl]

namespace IsLinked

theorem children_detach_eq_filter (h : s.IsLinked) (c q : NodeId) :
    (s.detach c).children q = (s.children q).filter (· ≠ c) := by
  rw [children_detach]
  split
  · rfl
  · rename_i hparent
    have habsent : ∀ j ∈ s.children q, decide (j ≠ c) = true := by
      intro j hj
      rw [decide_eq_true_eq]
      rintro rfl
      exact hparent ((h.mem_children_iff q j).mp hj)
    exact (List.filter_eq_self.mpr habsent).symm

theorem moves_attach (h : s.IsLinked) (hp : p.index < s.size) (hc : c.index < s.size)
    (place : List NodeId → List NodeId) :
    Moves s ((s.detach c).attach p c place) c p [] place := by
  have hp' : p.index < (s.detach c).size := by rwa [size_detach]
  have hc' : c.index < (s.detach c).size := by rwa [size_detach]
  constructor
  · rw [size_attach, size_detach]
  · rw [children_attach hp', if_pos rfl, h.children_detach_eq_filter]
  · intro q hq
    rw [children_attach hp', if_neg hq, h.children_detach_eq_filter]
  · rw [parent_attach hc', if_pos rfl]
  · exact fun j hj => absurd hj List.not_mem_nil
  · intro j hj _
    rw [parent_attach hc', if_neg hj, parent_detach, if_neg hj]

theorem moves_replaceWith (h : s.IsLinked) (hr : r.index < s.size) (hne : t ≠ r)
    (ht : s.parent t = some p) :
    Moves s (s.replaceWith t r) r p [t] (·.map fun j => if j = t then r else j) := by
  have hp := h.parent_lt_size ht
  have hmem := (h.mem_children_iff p t).mpr ht
  constructor
  · exact size_replaceWith ..
  · rw [children_replaceWith hne ht hmem hp, if_pos rfl,
      replace_eq_map ((h.detach r).nodup_children p), h.children_detach_eq_filter]
  · intro q hq
    rw [children_replaceWith hne ht hmem hp, if_neg hq, h.children_detach_eq_filter]
  · rw [parent_replaceWith hne ht hmem hr, if_neg (Ne.symm hne), if_pos rfl]
  · intro j hj
    rw [parent_replaceWith hne ht hmem hr, if_pos (List.mem_singleton.mp hj)]
  · intro j hj hreleased
    rw [List.mem_singleton] at hreleased
    rw [parent_replaceWith hne ht hmem hr, if_neg hreleased, if_neg hj]

end IsLinked

theorem replaceWith_eq_self (h : t = r ∨ s.parent t = none) : s.replaceWith t r = s := by
  unfold replaceWith
  rcases h with heq | hnone
  · rw [if_pos heq]
  · rw [hnone]
    exact ite_self s

theorem content_replaceWith_eq (hne : t ≠ r) (ht : s.parent t = some p) (hmem : t ∈ s.children p)
    (hr : r.index < s.size) (j : NodeId) :
    (s.replaceWith t r).content j =
      if j = r then { s.content r with raws := s.inheritedRaws t r } else s.content j := by
  rw [content_replaceWith hne ht hmem hr, inheritedRaws]
  by_cases hbefore : (s.raws r).before = []
  · simp only [hbefore, and_true, if_true]
  · by_cases hj : j = r
    · subst hj
      simp only [hbefore, and_false, if_true, if_false]
      rfl
    · simp only [hj, false_and, if_false]

/-- Appending, inserting and replacing as operations on lists. A child goes to the end, to a place
that counts the others, or to where the target of a replacement stood; a target that stands nowhere
is not replaced. Of the contents only the blanks before a replacement may change. -/
theorem structural_edits_move (h : s.IsLinked) (hp : s.hasNode p = true) (hc : s.hasNode c = true)
    (hr : s.hasNode r = true) (index : Nat) (t : NodeId) :
    (Moves s (s.append p c) c p [] (· ++ [c]) ∧
      ∀ j, (s.append p c).content j = s.content j) ∧
    (Moves s (s.insert p index c) c p [] (fun l => l.insertIdx (min index l.length) c) ∧
      ∀ j, (s.insert p index c).content j = s.content j) ∧
    (t = r ∨ s.parent t = none → s.replaceWith t r = s) ∧
    (∀ q, t ≠ r → s.parent t = some q →
      Moves s (s.replaceWith t r) r q [t] (·.map fun j => if j = t then r else j) ∧
      (∀ j, (s.replaceWith t r).kind j = s.kind j) ∧
      (∀ j, j ≠ r → (s.replaceWith t r).raws j = s.raws j) ∧
      (s.replaceWith t r).raws r = s.inheritedRaws t r) := by
  rw [hasNode_iff] at hp hc hr
  refine ⟨⟨h.moves_attach hp hc _, fun j => content_append ..⟩,
    ⟨h.moves_attach hp hc _, fun j => ?_⟩, replaceWith_eq_self, fun q hne ht => ?_⟩
  · rw [insert, content_attach, content_detach]
  · have hmem := (h.mem_children_iff q t).mpr ht
    refine ⟨h.moves_replaceWith hr hne ht, fun j => ?_, fun j hj => ?_, ?_⟩
    · rw [kind, content_replaceWith_eq hne ht hmem hr, kind]
      split
      · rename_i hj
        rw [hj]
      · rfl
    · rw [raws, content_replaceWith_eq hne ht hmem hr, if_neg hj, raws]
    · rw [raws, content_replaceWith_eq hne ht hmem hr, if_pos rfl]

/-- Moves within one list of children: to the end, past the end, and to the place of a sibling. -/
theorem structural_edits_move_among_siblings :
    ∃ s : Stylesheet, s.IsLinked ∧ s.children root = [⟨1⟩, ⟨2⟩, ⟨3⟩] ∧
      (s.append root ⟨1⟩).children root = [⟨2⟩, ⟨3⟩, ⟨1⟩] ∧
      (s.insert root 7 ⟨1⟩).children root = [⟨2⟩, ⟨3⟩, ⟨1⟩] ∧
      (s.replaceWith ⟨3⟩ ⟨1⟩).children root = [⟨2⟩, ⟨1⟩] ∧
      (s.replaceWith ⟨3⟩ ⟨1⟩).parent ⟨3⟩ = none := by
  have hany : (parse "/*1*//*2*//*3*/".toList).toOption.any
      (fun s => s.children root = [⟨1⟩, ⟨2⟩, ⟨3⟩] ∧ s.parent ⟨3⟩ = some root ∧
        s.hasNode root = true ∧ s.hasNode ⟨1⟩ = true) = true := by decide +kernel
  obtain ⟨s, hs, hcheck⟩ := exists_parse_of_any hany
  rw [decide_eq_true_eq] at hcheck
  obtain ⟨hchildren, hparent, hroot, hone⟩ := hcheck
  have hlinked := (isForest_of_parse hs).isLinked
  obtain ⟨⟨happend, -⟩, ⟨hinsert, -⟩, -, hreplace⟩ :=
    structural_edits_move hlinked hroot hone hone 7 ⟨3⟩
  obtain ⟨hreplace, -⟩ := hreplace root (by decide) hparent
  have happended := happend.children_new
  have hinserted := hinsert.children_new
  have hreplaced := hreplace.children_new
  rw [hchildren] at happended hinserted hreplaced
  exact ⟨s, hlinked, hchildren, happended, hinserted, hreplaced,
    hreplace.parent_released _ (List.mem_singleton_self _)⟩

end UtilityCss.Stylesheet
