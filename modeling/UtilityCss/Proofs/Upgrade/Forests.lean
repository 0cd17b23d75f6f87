import UtilityCss.Proofs.Stylesheet.Moves
import UtilityCss.Proofs.Upgrade.Layering

/-!
# Layering keeps a forest

A wrapper is created below the root before anything is moved below it, so wrapping is a sequence of
admissible moves. Whatever comes about by admissible edits and by layering is a forest, and the
traversal of its nodes ends.
-/
namespace UtilityCss.Stylesheet

variable {s : Stylesheet} {first : NodeId} {more pre post : List NodeId}

theorem eq_of_isBelow {x p a : NodeId} (hx : s.parent x = some p) (hp : s.parent p = none)
    (h : s.IsBelow x a) : a = p := by
  have hl : s.Ancestry x [p] := .step hx (.top hp)
  rwa [← hl.mem_iff, List.mem_singleton] at h

theorem IsForest.foldl_detach (h : s.IsForest) (ids : List NodeId) :
    (ids.foldl Stylesheet.detach s).IsForest := by
  induction ids generalizing s with
  | nil => exact h
  | cons id ids ih => exact ih (h.detach id)

theorem IsForest.foldl_append {w : NodeId} {ids : List NodeId} (h : s.IsForest)
    (hw : s.parent w = some root)
    (hids : ∀ x ∈ ids, x.index < s.size ∧ x ≠ root ∧ x ≠ w) :
    (ids.foldl (·.append w ·) s).IsForest := by
  induction ids generalizing s with
  | nil => exact h
  | cons id ids ih =>
    obtain ⟨hlt, hroot, hne⟩ := hids id (by simp)
    have hbelow : ¬ s.IsBelow w id := fun hbelow => hroot (eq_of_isBelow hw h.parent_root hbelow)
    have hforest := h.append (lt_size_of_parent hw) hlt hroot hne hbelow
    refine ih hforest ?_ fun x hx => ?_
    · rw [parent_append hlt, if_neg (Ne.symm hne), hw]
    · rw [size_append]
      exact hids x (by simp [hx])

theorem RootRun.isForest_withPlacedWrapper (h : s.RootRun first more pre post) (hs : s.IsForest)
    (layer : Layer) : (s.withPlacedWrapper layer first more).IsForest := by
  have hwrapper : (s.withWrapper layer more).IsForest := (hs.foldl_detach more).create _
  have hfresh : s.nextId ≠ root := Ne.symm (ne_nextId_of_lt h.root_lt_size)
  refine hwrapper.replaceWith (nextId_lt_size_withWrapper layer) fun _ => ⟨hfresh, fun hbelow => ?_⟩
  exact hfresh (eq_of_isBelow (h.parent_first layer) hwrapper.parent_root hbelow)

theorem RootRun.isForest_wrapRun (h : s.RootRun first more pre post) (hs : s.IsForest)
    (layer : Layer) : (s.wrapRun layer first more).IsForest := by
  have hne : s.nextId ≠ first := Ne.symm (h.ne_nextId (by simp))
  rw [wrapRun_eq]
  refine (h.isForest_withPlacedWrapper hs layer).foldl_append ?_ fun x hx => ⟨?_, ?_, ?_⟩
  · rw [h.parent_withPlacedWrapper, if_neg hne, if_pos rfl]
  · rw [size_withPlacedWrapper]
    exact Nat.lt_succ_of_lt (h.lt_size hx)
  · rintro rfl
    have hparent := h.parent_run root hx
    rw [hs.parent_root] at hparent
    cases hparent
  · exact h.ne_nextId hx

theorem Awaits.isForest {cs : List Change} (h : s.Awaits pre cs) (hs : s.IsForest) :
    (cs.foldl applyWrap s).IsForest := by
  induction cs generalizing s pre with
  | nil => exact hs
  | cons c cs ih =>
    cases c with
    | keep id => exact ih (h.next rfl) hs
    | tag id layer => exact ih (h.next rfl) hs
    | wrap layer first more => exact ih (h.wrap h.wraps) (h.rootRun.isForest_wrapRun hs layer)

theorem IsForest.isForest_layered (h : s.IsForest) : s.layered.IsForest := by
  have htagged : (s.changes.foldl applyTag s).IsForest :=
    h.congr (fun j => parent_foldl_applyTag s _ j) fun j => children_foldl_applyTag s _ j
  exact h.awaits.isForest htagged

/-- An admissible edit of nodes that exist, or layering. -/
inductive Develops (s : Stylesheet) : Stylesheet → Prop
  | edit {s' : Stylesheet} (e : Edit) (hadmissible : e.Admissible s) (he : e.run? s = some s') :
      Develops s s'
  | layered : Develops s s.layered

theorem Develops.isForest {s' : Stylesheet} (h : s.Develops s') (hs : s.IsForest) :
    s'.IsForest := by
  cases h with
  | edit e hadmissible he => exact hs.run? hadmissible he
  | layered => exact hs.isForest_layered

theorem Reached.isForest (h : Reached Develops s) : s.IsForest := by
  induction h with
  | empty => exact isForest_empty
  | parsed h => exact isForest_of_parse h
  | step _ hstep ih => exact hstep.isForest ih

/-- Every chain of parents ends, and so does the traversal, in one round for each node: it lists the
nodes below a node, each once and followed by its own descendants. -/
theorem walk_lists_descendants (h : Reached Develops s) (id : NodeId) :
    (∃ l, s.Ancestry id l) ∧
      (∀ rounds, (s.descendants id).length ≤ rounds →
        s.walk? rounds id = some (s.descendants id)) ∧
      s.descendants id = (s.children id).flatMap (fun c => c :: s.descendants c) ∧
      (s.descendants id).Nodup ∧
      ∀ x, x ∈ s.descendants id ↔ s.IsBelow x id :=
  have hforest := h.isForest
  ⟨hforest.ancestry id, fun _ => hforest.walk?_eq, hforest.descendants_eq id,
    hforest.nodup_descendants id, hforest.mem_descendants_iff id⟩

theorem walk_lists_descendants_of_moved_and_wrapped :
    ∃ s, Reached Develops s ∧
      s.walk? 6 root = some [⟨1⟩, ⟨6⟩, ⟨2⟩, ⟨3⟩, ⟨4⟩, ⟨5⟩] ∧ s.IsBelow ⟨4⟩ ⟨6⟩ := by
  have hread : (parse "@tailwind base;a\x7bb\x7b\x7d\x7dc\x7b\x7d@import x;".toList).map (fun s =>
      (s.hasNode ⟨3⟩ && s.hasNode ⟨4⟩, s.descendants ⟨4⟩,
        (s.append ⟨3⟩ ⟨4⟩).layered.descendants root,
        (s.append ⟨3⟩ ⟨4⟩).layered.descendants ⟨6⟩)) =
        .ok (true, [], [⟨1⟩, ⟨6⟩, ⟨2⟩, ⟨3⟩, ⟨4⟩, ⟨5⟩], [⟨2⟩, ⟨3⟩, ⟨4⟩]) := by
    decide +kernel
  cases hs : parse "@tailwind base;a\x7bb\x7b\x7d\x7dc\x7b\x7d@import x;".toList with
  | error e =>
    rw [hs] at hread
    cases hread
  | ok s =>
    rw [hs] at hread
    obtain ⟨hnodes, hrest⟩ := Prod.mk.inj (Except.ok.inj hread)
    obtain ⟨hleaf, hrest⟩ := Prod.mk.inj hrest
    obtain ⟨hroot, hwrapper⟩ := Prod.mk.inj hrest
    have hparsed : Reached Develops s := .parsed hs
    have hadmissible : (Edit.append ⟨3⟩ ⟨4⟩).Admissible s := by
      refine ⟨by decide, by decide, ?_⟩
      rw [← hparsed.isForest.mem_descendants_iff, hleaf]
      exact List.not_mem_nil
    have hrun : (Edit.append ⟨3⟩ ⟨4⟩).run? s = some (s.append ⟨3⟩ ⟨4⟩) := by
      rw [Bool.and_eq_true] at hnodes
      simp [Edit.run?, Edit.targets, Edit.run, hnodes]
    have hlayered : Reached Develops (s.append ⟨3⟩ ⟨4⟩).layered :=
      .step (.step hparsed (.edit _ hadmissible hrun)) .layered
    obtain ⟨-, hwalk, -⟩ := walk_lists_descendants hlayered root
    obtain ⟨-, -, -, -, hbelow⟩ := walk_lists_descendants hlayered ⟨6⟩
    rw [hroot] at hwalk
    refine ⟨_, hlayered, hwalk 6 (by decide), (hbelow ⟨4⟩).mp ?_⟩
    rw [hwrapper]
    decide

end UtilityCss.Stylesheet
