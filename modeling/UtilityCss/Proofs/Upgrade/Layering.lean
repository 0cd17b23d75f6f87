import UtilityCss.Proofs.Upgrade.Runs

/-!
# Layering a stylesheet

What layering does to the links and the contents of a stylesheet that is a forest: exactly the
implicitly layered runs are wrapped, and nothing is lost, copied or put in another order.
-/
namespace UtilityCss

namespace Change

theorem tag?_append (j : NodeId) (cs ds : List Change) :
    tag? j (cs ++ ds) = (tag? j cs).or (tag? j ds) := by
  induction cs with
  | nil => rfl
  | cons c cs ih =>
    cases c with
    | keep id => exact ih
    | wrap => exact ih
    | tag id layer =>
      rw [List.cons_append, tag?, tag?]
      split
      · rfl
      · exact ih

theorem tag?_closeRun (j : NodeId) (current : Option Layer) (run : List NodeId) :
    tag? j (Stylesheet.closeRun current run) = none := by
  cases current with
  | none => rfl
  | some layer => cases run <;> rfl

theorem tag?_keep (j : NodeId) (run : List NodeId) : tag? j (run.map .keep) = none := by
  induction run with
  | nil => rfl
  | cons a run ih => exact ih

theorem tag?_changeAlone_of_ne (s : Stylesheet) {j id : NodeId} (h : id ≠ j)
    (current : Option Layer) (cs : List Change) :
    tag? j (s.changeAlone current id :: cs) = tag? j cs := by
  unfold Stylesheet.changeAlone
  split
  · rw [tag?, if_neg h]
  · rfl

end Change

namespace Stylesheet

variable {s : Stylesheet}

def awaitsTag (s : Stylesheet) (id : NodeId) : Bool :=
  s.role id = .importing && Change.isUntagged (s.kind id)

theorem awaitsTag_of_isContent {id : NodeId} (h : s.isContent id = true) :
    s.awaitsTag id = false := by
  have hrole : s.role id = .content := by simpa [isContent] using h
  simp [awaitsTag, hrole]

theorem flatMap_ids_changesFrom (current : Option Layer) (run l : List NodeId)
    (h : run ≠ [] → current ≠ none) :
    (s.changesFrom current run l).flatMap Change.ids = run ++ l := by
  induction l generalizing current run with
  | nil => simp [changesFrom, List.flatMap_map, Change.ids]
  | cons id l ih =>
    cases hid : s.isContent id with
    | false =>
      have hclose : (closeRun current run).flatMap Change.ids = run := by
        cases current with
        | none =>
          have hrun : run = [] := by
            by_contra hne
            exact h hne rfl
          rw [hrun]
          rfl
        | some layer => cases run <;> simp [closeRun, Change.ids]
      rw [changesFrom_other hid, List.flatMap_append, hclose, List.flatMap_cons,
        Change.ids_changeAlone, ih _ _ fun hne => absurd rfl hne]
      rfl
    | true =>
      have hall : ∀ a ∈ [id], s.isContent a = true := fun a ha => by rwa [List.mem_singleton.mp ha]
      cases current with
      | none =>
        have hrun : run = [] := by
          by_contra hne
          exact h hne rfl
        subst hrun
        have hstep : s.changesFrom none [] ([id] ++ l) = _ := changesFrom_content_none hall
        rw [List.singleton_append] at hstep
        rw [hstep, List.flatMap_append, ih none [] fun hne => absurd rfl hne]
        rfl
      | some layer =>
        have hstep : s.changesFrom (some layer) run ([id] ++ l) = _ :=
          changesFrom_content_some hall
        rw [List.singleton_append] at hstep
        rw [hstep, ih _ _ fun _ => by simp, List.append_assoc]
        rfl

theorem flatMap_ids_changes (s : Stylesheet) : s.changes.flatMap Change.ids = s.children root :=
  flatMap_ids_changesFrom none [] _ fun hne => absurd rfl hne

theorem changesFrom_content {id : NodeId} (hid : s.isContent id = true) (current : Option Layer)
    (run l : List NodeId) :
    ∃ run' cs, s.changesFrom current run (id :: l) = cs ++ s.changesFrom current run' l ∧
      ∀ j, Change.tag? j cs = none := by
  have hrole : s.role id = .content := by simpa [isContent] using hid
  cases current with
  | none =>
    refine ⟨[], [.keep id], ?_, fun j => rfl⟩
    rw [changesFrom]
    · rfl
    · exact hrole
  | some layer =>
    refine ⟨run ++ [id], [], ?_, fun j => rfl⟩
    rw [changesFrom]
    · rfl
    · exact hrole

theorem tag?_changesFrom_of_notMem {j : NodeId} {l : List NodeId} (h : j ∉ l)
    (current : Option Layer) (run : List NodeId) :
    Change.tag? j (s.changesFrom current run l) = none := by
  induction l generalizing current run with
  | nil => exact Change.tag?_keep j run
  | cons id l ih =>
    have hne : j ≠ id := fun heq => h (by simp [heq])
    have hl : j ∉ l := fun hmem => h (by simp [hmem])
    cases hid : s.isContent id with
    | false =>
      rw [changesFrom_other hid, Change.tag?_append, Change.tag?_closeRun, Option.none_or,
        Change.tag?_changeAlone_of_ne s (Ne.symm hne), ih hl]
    | true =>
      obtain ⟨run', cs, hstep, htag⟩ := changesFrom_content hid current run l
      rw [hstep, Change.tag?_append, htag, Option.none_or, ih hl]

/-- An import that awaits a tag is told the layer of the last boundary before it. -/
theorem tag?_changesFrom {pre post before : List NodeId} {id : NodeId}
    (hnodup : (pre ++ id :: post).Nodup) (run : List NodeId) :
    Change.tag? id (s.changesFrom (s.layerAfter before) run (pre ++ id :: post)) =
      if s.awaitsTag id then some (s.layerAfter (before ++ pre)) else none := by
  induction pre generalizing before run with
  | nil =>
    have hpost : id ∉ post := (List.nodup_cons.mp hnodup).1
    rw [List.nil_append, List.append_nil]
    cases hid : s.isContent id with
    | false =>
      rw [changesFrom_other hid, Change.tag?_append, Change.tag?_closeRun, Option.none_or,
        changeAlone]
      cases hawaits : s.awaitsTag id with
      | true =>
        rw [awaitsTag] at hawaits
        simp [hawaits, Change.tag?]
      | false =>
        rw [awaitsTag] at hawaits
        simp [hawaits, Change.tag?, tag?_changesFrom_of_notMem hpost]
    | true =>
      obtain ⟨run', cs, hstep, htag⟩ := changesFrom_content hid (s.layerAfter before) run post
      rw [hstep, Change.tag?_append, htag, Option.none_or, tag?_changesFrom_of_notMem hpost,
        awaitsTag_of_isContent hid]
      rfl
  | cons a pre ih =>
    have hnodup' := (List.nodup_cons.mp hnodup).2
    have hne : a ≠ id := by
      rintro rfl
      exact (List.nodup_cons.mp hnodup).1 (by simp)
    have happ : before ++ a :: pre = before ++ [a] ++ pre := by simp
    rw [List.cons_append, happ]
    cases ha : s.isContent a with
    | false =>
      rw [changesFrom_other ha, Change.tag?_append, Change.tag?_closeRun, Option.none_or,
        Change.tag?_changeAlone_of_ne s hne, ← layerAfter_append_singleton, ih hnodup']
    | true =>
      have hall : ∀ x ∈ [a], s.isContent x = true := fun x hx => by rwa [List.mem_singleton.mp hx]
      obtain ⟨run', cs, hstep, htag⟩ :=
        changesFrom_content ha (s.layerAfter before) run (pre ++ id :: post)
      rw [hstep, Change.tag?_append, htag, Option.none_or,
        ← layerAfter_append_of_isContent s before hall, ih hnodup']

theorem IsForest.awaits (h : s.IsForest) :
    (s.changes.foldl applyTag s).Awaits [] s.changes where
  parent_root := by rw [parent_foldl_applyTag, h.parent_root]
  children_root := by rw [children_foldl_applyTag, flatMap_ids_changes, List.nil_append]
  nodup := by
    rw [children_foldl_applyTag]
    exact h.nodup_children root
  lt_size := by
    intro x hx
    rw [children_foldl_applyTag] at hx
    rw [size_foldl_applyTag]
    exact h.lt_size_of_mem hx
  parent := by
    intro x hx
    rw [flatMap_ids_changes] at hx
    rw [parent_foldl_applyTag]
    exact (h.mem_children_iff root x).mp hx

theorem IsForest.content_tags (h : s.IsForest) (j : NodeId) :
    (s.changes.foldl applyTag s).content j = s.tagContent s.changes j := by
  refine content_foldl_applyTag ?_ ?_ j
  · rw [flatMap_ids_changes]
    exact h.nodup_children root
  · intro x hx
    rw [flatMap_ids_changes] at hx
    exact h.lt_size_of_mem hx

/-- What layering does, in terms of the changes. -/
structure Layered (s s' : Stylesheet) : Prop where
  size : s'.size = s.size + (Change.wrapped s.changes).length
  children_root : s'.children root = Change.placed s.size s.changes
  children_old : ∀ j, j.index < s.size → j ≠ root → s'.children j = s.children j
  content_old : ∀ j, j.index < s.size → s'.content j = s.tagContent s.changes j
  wrapper : ∀ k layer first more, (Change.wrapped s.changes)[k]? = some (layer, first, more) →
    s'.children ⟨s.size + k⟩ = first :: more ∧
      s'.content ⟨s.size + k⟩ = wrapperContent layer (s.raws first).before

theorem IsForest.layered (h : s.IsForest) : s.Layered s.layered := by
  have hlayers := h.awaits.layers
  have hsize := size_foldl_applyTag s s.changes
  constructor
  · rw [Stylesheet.layered, hlayers.size, hsize]
  · rw [Stylesheet.layered, hlayers.children_root, hsize, List.nil_append]
  · intro j hj hroot
    rw [Stylesheet.layered, hlayers.children_old j (by rwa [hsize]) hroot, children_foldl_applyTag]
  · intro j hj
    rw [Stylesheet.layered, hlayers.content_old j (by rwa [hsize]), h.content_tags]
  · intro k layer first more hk
    have hw := hlayers.wrapper k layer first more hk
    rw [hsize, raws, h.content_tags, raws_tagContent] at hw
    exact hw

end Stylesheet
end UtilityCss
