import UtilityCss.Proofs.Upgrade.Layering

/-!
# Stylesheets whose layers are explicit

Where no import awaits a tag, and after the first layer only the last nodes are content, layering
finds nothing to do. What layering leaves behind is of this kind.
-/
namespace UtilityCss

/-- The kinds of the nodes from one on, where `current` is the layer that is current and nothing is
left to be wrapped or tagged. -/
inductive Explicit : Option Layer → List Kind → Prop
  | trailing {current : Option Layer} {ks : List Kind}
      (h : ∀ k ∈ ks, Role.ofKind k = .content) : Explicit current ks
  | content {k : Kind} {ks : List Kind} (hk : Role.ofKind k = .content) (h : Explicit none ks) :
      Explicit none (k :: ks)
  | other {current : Option Layer} {k : Kind} {ks : List Kind} (hk : Role.ofKind k ≠ .content)
      (htag : Role.ofKind k = .importing → Change.isUntagged k = false)
      (h : Explicit ((Role.ofKind k).layerAfter current) ks) : Explicit current (k :: ks)

namespace Stylesheet

variable {s : Stylesheet}

theorem isContent_iff {id : NodeId} :
    s.isContent id = true ↔ Role.ofKind (s.kind id) = .content :=
  decide_eq_true_iff

theorem isContent_eq_false_iff {id : NodeId} :
    s.isContent id = false ↔ Role.ofKind (s.kind id) ≠ .content :=
  decide_eq_false_iff_not

theorem changesFrom_of_content {current : Option Layer} {run ids : List NodeId}
    (hrun : current = none → run = []) (h : ∀ id ∈ ids, s.isContent id = true) :
    s.changesFrom current run ids = (run ++ ids).map .keep := by
  cases current with
  | none =>
    have hnone : s.changesFrom none [] (ids ++ []) = ids.map .keep ++ s.changesFrom none [] [] :=
      changesFrom_content_none h
    rw [List.append_nil] at hnone
    rw [hrun rfl, hnone, changesFrom, List.map_nil, List.append_nil, List.nil_append]
  | some layer =>
    have hsome : s.changesFrom (some layer) run (ids ++ []) =
        s.changesFrom (some layer) (run ++ ids) [] := changesFrom_content_some h
    rw [List.append_nil] at hsome
    rw [hsome, changesFrom]

theorem changesFrom_of_explicit {current : Option Layer} {ids : List NodeId}
    (h : Explicit current (ids.map s.kind)) : s.changesFrom current [] ids = ids.map .keep := by
  generalize hks : ids.map s.kind = ks at h
  induction h generalizing ids with
  | trailing hall =>
    apply changesFrom_of_content fun _ => rfl
    intro id hid
    exact isContent_iff.mpr (hall (s.kind id) (hks ▸ List.mem_map_of_mem hid))
  | @content k ks hk _ ih =>
    obtain ⟨id, ids, rfl, rfl, rfl⟩ := List.map_eq_cons_iff.mp hks
    rw [List.map_cons, ← ih rfl]
    have hone : ∀ a ∈ [id], s.isContent a = true := by
      intro a ha
      rw [List.mem_singleton.mp ha]
      exact isContent_iff.mpr hk
    exact changesFrom_content_none hone
  | @other current k ks hk htag _ ih =>
    obtain ⟨id, ids, rfl, rfl, rfl⟩ := List.map_eq_cons_iff.mp hks
    have hcontent : s.isContent id = false := isContent_eq_false_iff.mpr hk
    have halone : s.changeAlone current id = .keep id := by
      rw [changeAlone, if_neg]
      rw [Bool.and_eq_true, decide_eq_true_eq]
      rintro ⟨himporting, huntagged⟩
      rw [htag himporting] at huntagged
      cases huntagged
    have hrest : s.changesFrom ((s.role id).layerAfter current) [] ids = ids.map .keep := ih rfl
    rw [changesFrom_other hcontent, closeRun_nil, halone, hrest]
    rfl

theorem foldl_applyTag_keep (s : Stylesheet) (ids : List NodeId) :
    (ids.map Change.keep).foldl applyTag s = s := by
  induction ids with
  | nil => rfl
  | cons id ids ih => exact ih

theorem foldl_applyWrap_keep (s : Stylesheet) (ids : List NodeId) :
    (ids.map Change.keep).foldl applyWrap s = s := by
  induction ids with
  | nil => rfl
  | cons id ids ih => exact ih

/-- Layering leaves a stylesheet alone when its layers are explicit. -/
theorem layered_of_explicit (h : Explicit none ((s.children root).map s.kind)) :
    s.layered = s := by
  rw [layered, changes, changesFrom_of_explicit h, foldl_applyTag_keep, foldl_applyWrap_keep]

/-- What a change makes of a node, as far as another layering looks at it. -/
def ReadsAs (s : Stylesheet) : Change → Kind → Prop
  | .keep id, k => k = s.kind id
  | .tag .., k => Role.ofKind k = .importing ∧ Change.isUntagged k = false
  | .wrap .., k => Role.ofKind k = .explicit

theorem explicit_of_keep {current : Option Layer} {run : List NodeId} {ks : List Kind}
    (hrun : ∀ id ∈ run, s.isContent id = true)
    (h : List.Forall₂ s.ReadsAs (run.map .keep) ks) : Explicit current ks := by
  apply Explicit.trailing
  induction run generalizing ks with
  | nil =>
    cases h
    intro k hk
    cases hk
  | cons id run ih =>
    cases h with
    | cons hk hks =>
      intro k hmem
      rcases List.mem_cons.mp hmem with rfl | hmem
      · rw [hk]
        exact isContent_iff.mp (hrun id (by simp))
      · exact ih (fun a ha => hrun a (by simp [ha])) hks k hmem

theorem explicit_of_changeAlone {current : Option Layer} {id : NodeId} {k : Kind} {ks : List Kind}
    (hid : s.isContent id = false) (hk : s.ReadsAs (s.changeAlone current id) k)
    (h : Explicit ((s.role id).layerAfter current) ks) : Explicit current (k :: ks) := by
  unfold changeAlone at hk
  split_ifs at hk with hawaits
  · rw [Bool.and_eq_true, decide_eq_true_eq] at hawaits
    obtain ⟨himporting, htagged⟩ := hk
    rw [hawaits.1] at h
    apply Explicit.other
    · rw [himporting]
      simp
    · intro _
      exact htagged
    · rw [himporting]
      exact h
  · rw [Bool.and_eq_true, decide_eq_true_eq, not_and, Bool.not_eq_true] at hawaits
    change k = s.kind id at hk
    subst hk
    exact .other (isContent_eq_false_iff.mp hid) hawaits h

/-- The nodes that layering leaves behind have explicit layers. -/
theorem explicit_of_readsAs {current : Option Layer} {run ids : List NodeId} {ks : List Kind}
    (hcurrent : current = none → run = []) (hrun : ∀ id ∈ run, s.isContent id = true)
    (h : List.Forall₂ s.ReadsAs (s.changesFrom current run ids) ks) : Explicit current ks := by
  induction ids generalizing current run ks with
  | nil => exact explicit_of_keep hrun h
  | cons id ids ih =>
    cases hid : s.isContent id with
    | true =>
      have hone : ∀ a ∈ [id], s.isContent a = true := fun a ha => by rwa [List.mem_singleton.mp ha]
      cases current with
      | none =>
        have hstep : s.changesFrom none [] (id :: ids) = .keep id :: s.changesFrom none [] ids :=
          changesFrom_content_none hone
        rw [hcurrent rfl, hstep] at h
        cases h with
        | cons hk hks =>
          refine .content ?_ (ih (fun _ => rfl) (fun a ha => nomatch ha) hks)
          rw [hk]
          exact isContent_iff.mp hid
      | some layer =>
        have hstep : s.changesFrom (some layer) run (id :: ids) =
            s.changesFrom (some layer) (run ++ [id]) ids := changesFrom_content_some hone
        rw [hstep] at h
        refine ih (fun hnone => nomatch hnone) (fun a ha => ?_) h
        rcases List.mem_append.mp ha with ha | ha
        · exact hrun a ha
        · exact hone a ha
    | false =>
      rw [changesFrom_other hid] at h
      have halone : ∀ {ks : List Kind},
          List.Forall₂ s.ReadsAs (s.changeAlone current id ::
            s.changesFrom ((s.role id).layerAfter current) [] ids) ks → Explicit current ks := by
        intro ks hall
        cases hall with
        | cons hk hks =>
          exact explicit_of_changeAlone hid hk (ih (fun _ => rfl) (fun a ha => nomatch ha) hks)
      cases current with
      | none => exact halone h
      | some layer =>
        cases run with
        | nil => exact halone h
        | cons first more =>
          cases h with
          | @cons _ k _ _ hk hks =>
            change Role.ofKind k = .explicit at hk
            apply Explicit.other
            · rw [hk]
              simp
            · rw [hk]
              intro himporting
              cases himporting
            · rw [hk]
              exact halone hks

end Stylesheet
end UtilityCss
