import UtilityCss.Proofs.Upgrade.Wrapping

/-!
# Carrying out changes

What the changes of a stylesheet do to it, all taken together: tags are written into imports, each
wrapper gets the next number, and whatever is not named by a change stays as it was.
-/
namespace UtilityCss

namespace Change

def ids : Change → List NodeId
  | keep id | tag id _ => [id]
  | wrap _ first more => first :: more

/-- The children of the root after the changes, with `n` for the first wrapper. -/
def placed : Nat → List Change → List NodeId
  | _, [] => []
  | n, keep id :: cs | n, tag id _ :: cs => id :: placed n cs
  | n, wrap .. :: cs => ⟨n⟩ :: placed (n + 1) cs

def wrapped : List Change → List (Layer × NodeId × List NodeId)
  | [] => []
  | wrap layer first more :: cs => (layer, first, more) :: wrapped cs
  | _ :: cs => wrapped cs

def tag? (j : NodeId) : List Change → Option (Option Layer)
  | [] => none
  | tag id layer :: cs => if id = j then some layer else tag? j cs
  | _ :: cs => tag? j cs

theorem mem_ids_of_tag? {j : NodeId} {cs : List Change} {layer : Option Layer}
    (h : tag? j cs = some layer) : j ∈ cs.flatMap ids := by
  induction cs with
  | nil => cases h
  | cons c cs ih =>
    rw [List.flatMap_cons, List.mem_append]
    cases c with
    | keep id => exact .inr (ih h)
    | wrap => exact .inr (ih h)
    | tag id l =>
      by_cases hj : id = j
      · exact .inl (by simp [ids, hj])
      · rw [tag?, if_neg hj] at h
        exact .inr (ih h)

theorem wrap_mem_of_mem_wrapped {cs : List Change} {layer : Layer} {first : NodeId}
    {more : List NodeId} (h : (layer, first, more) ∈ wrapped cs) :
    wrap layer first more ∈ cs := by
  induction cs with
  | nil => cases h
  | cons c cs ih =>
    cases c with
    | keep => exact List.mem_cons_of_mem _ (ih h)
    | tag => exact List.mem_cons_of_mem _ (ih h)
    | wrap l f m =>
      rcases List.mem_cons.mp h with heq | h
      · cases heq
        exact List.mem_cons_self
      · exact List.mem_cons_of_mem _ (ih h)

theorem mem_ids_of_wrapped {cs : List Change} {layer : Layer} {first : NodeId}
    {more : List NodeId} (h : (layer, first, more) ∈ wrapped cs) : first ∈ cs.flatMap ids :=
  List.mem_flatMap.mpr ⟨_, wrap_mem_of_mem_wrapped h, List.mem_cons_self⟩

end Change

def Content.tagged (c : Content) (layer : Option Layer) : Content :=
  { c with kind := c.kind.mapParams (· ++ Change.tagText layer) }

namespace Stylesheet

theorem size_foldl_applyTag (s : Stylesheet) (cs : List Change) :
    (cs.foldl applyTag s).size = s.size := by
  induction cs generalizing s with
  | nil => rfl
  | cons c cs ih => cases c <;> simp [applyTag, appendParams, ih]

theorem parent_foldl_applyTag (s : Stylesheet) (cs : List Change) (j : NodeId) :
    (cs.foldl applyTag s).parent j = s.parent j := by
  induction cs generalizing s with
  | nil => rfl
  | cons c cs ih => cases c <;> simp [applyTag, appendParams, ih]

theorem children_foldl_applyTag (s : Stylesheet) (cs : List Change) (j : NodeId) :
    (cs.foldl applyTag s).children j = s.children j := by
  induction cs generalizing s with
  | nil => rfl
  | cons c cs ih => cases c <;> simp [applyTag, appendParams, ih]

def tagContent (s : Stylesheet) (cs : List Change) (j : NodeId) : Content :=
  match Change.tag? j cs with
  | some layer => (s.content j).tagged layer
  | none => s.content j

theorem content_foldl_applyTag {s : Stylesheet} {cs : List Change}
    (hnodup : (cs.flatMap Change.ids).Nodup) (hlt : ∀ x ∈ cs.flatMap Change.ids, x.index < s.size)
    (j : NodeId) : (cs.foldl applyTag s).content j = s.tagContent cs j := by
  induction cs generalizing s with
  | nil => rfl
  | cons c cs ih =>
    rw [List.flatMap_cons] at hnodup hlt
    have hnodup' := (List.nodup_append.mp hnodup).2.1
    have hlt' : ∀ x ∈ cs.flatMap Change.ids, x.index < s.size := fun x hx => hlt x (by simp [hx])
    cases c with
    | keep id => exact ih hnodup' hlt'
    | wrap => exact ih hnodup' hlt'
    | tag id layer =>
      have hstep : ∀ i, (s.applyTag (.tag id layer)).content i =
          if id = i then (s.content i).tagged layer else s.content i := by
        intro i
        rw [applyTag, appendParams, content_modifyContent]
        by_cases hi : id = i
        · subst hi
          rw [if_pos ⟨rfl, hlt id (by simp [Change.ids])⟩, if_pos rfl]
          rfl
        · rw [if_neg fun h => hi h.1, if_neg hi]
      have hsize : (s.applyTag (.tag id layer)).size = s.size := size_modifyContent ..
      rw [List.foldl_cons, ih hnodup' (by rwa [hsize])]
      unfold tagContent
      rw [hstep, Change.tag?]
      by_cases hj : id = j
      · -- No later change is about the same node.
        have hnone : Change.tag? j cs = none := by
          cases htag : Change.tag? j cs with
          | none => rfl
          | some l =>
            have hmem := Change.mem_ids_of_tag? htag
            exact absurd hj ((List.nodup_append.mp hnodup).2.2 id (by simp [Change.ids]) j hmem)
        rw [hnone, if_pos hj, if_pos hj]
      · rw [if_neg hj, if_neg hj]

theorem raws_tagContent (s : Stylesheet) (cs : List Change) (j : NodeId) :
    (s.tagContent cs j).raws = s.raws j := by
  unfold tagContent
  split <;> rfl

/-- What the wrappers of the changes `cs` do, when the children before them are already placed. -/
structure Layers (s s' : Stylesheet) (pre : List NodeId) (cs : List Change) : Prop where
  size : s'.size = s.size + (Change.wrapped cs).length
  children_root : s'.children root = pre ++ Change.placed s.size cs
  children_old : ∀ j, j.index < s.size → j ≠ root → s'.children j = s.children j
  content_old : ∀ j, j.index < s.size → s'.content j = s.content j
  wrapper : ∀ k layer first more, (Change.wrapped cs)[k]? = some (layer, first, more) →
    s'.children ⟨s.size + k⟩ = first :: more ∧
      s'.content ⟨s.size + k⟩ = wrapperContent layer (s.raws first).before

/-- The children of the root are placed up to those that the changes `cs` are about. -/
structure Awaits (s : Stylesheet) (pre : List NodeId) (cs : List Change) : Prop where
  parent_root : s.parent root = none
  children_root : s.children root = pre ++ cs.flatMap Change.ids
  nodup : (s.children root).Nodup
  lt_size : ∀ x ∈ s.children root, x.index < s.size
  parent : ∀ x ∈ cs.flatMap Change.ids, s.parent x = some root

section Wrap

variable {s t t' : Stylesheet} {pre : List NodeId} {cs : List Change} {layer : Layer}
  {first : NodeId} {more : List NodeId}

theorem Awaits.next {c : Change} {id : NodeId} (h : s.Awaits pre (c :: cs)) (hc : c.ids = [id]) :
    s.Awaits (pre ++ [id]) cs where
  parent_root := h.parent_root
  children_root := by simpa [hc] using h.children_root
  nodup := h.nodup
  lt_size := h.lt_size
  parent x hx := h.parent x (by simp [hx])

theorem Awaits.children_eq (h : s.Awaits pre (.wrap layer first more :: cs)) :
    s.children root = pre ++ first :: (more ++ cs.flatMap Change.ids) := by
  rw [h.children_root]
  rfl

theorem Awaits.parent_of_mem_run (h : s.Awaits pre (.wrap layer first more :: cs)) {x : NodeId}
    (hx : x ∈ first :: more) : s.parent x = some root := by
  refine h.parent x ?_
  rw [List.flatMap_cons]
  exact List.mem_append_left _ hx

theorem Awaits.rootRun (h : s.Awaits pre (.wrap layer first more :: cs)) :
    s.RootRun first more pre (cs.flatMap Change.ids) :=
  ⟨h.children_eq, h.nodup, fun _ hx => h.parent_of_mem_run hx⟩

theorem Awaits.wraps (h : s.Awaits pre (.wrap layer first more :: cs)) :
    s.Wraps (s.wrapRun layer first more) layer first more pre (cs.flatMap Change.ids) :=
  h.rootRun.wraps layer

/-- After one run is wrapped the later ones still stand where they stood. -/
theorem Awaits.wrap (h : s.Awaits pre (.wrap layer first more :: cs))
    (hw : s.Wraps t layer first more pre (cs.flatMap Change.ids)) :
    t.Awaits (pre ++ [s.nextId]) cs where
  parent_root := by
    have hrun : root ∉ first :: more := by
      intro hmem
      have := h.parent_of_mem_run hmem
      rw [h.parent_root] at this
      cases this
    rw [hw.parent_old root hrun (ne_nextId_of_lt h.rootRun.root_lt_size), h.parent_root]
  children_root := by rw [hw.children_root, List.append_assoc, List.singleton_append]
  nodup := by
    have hfresh : s.nextId ∉ s.children root := fun hmem => Nat.lt_irrefl _ (h.lt_size _ hmem)
    have hnodup := h.nodup
    rw [h.children_eq, ← List.cons_append] at hnodup hfresh
    rw [hw.children_root, List.nodup_middle]
    refine List.nodup_cons.mpr ⟨fun hmem => hfresh ?_, ?_⟩
    · rcases List.mem_append.mp hmem with hmem | hmem <;> simp [hmem]
    · exact hnodup.sublist ((List.sublist_append_right _ _).append_left pre)
  lt_size := by
    intro x hx
    rw [hw.size]
    rw [hw.children_root] at hx
    rcases List.mem_append.mp hx with hx | hx
    · exact Nat.lt_succ_of_lt (h.lt_size x (by simp [h.children_eq, hx]))
    · rcases List.mem_cons.mp hx with rfl | hx
      · exact Nat.lt_succ_self _
      · exact Nat.lt_succ_of_lt (h.lt_size x (by simp [h.children_eq, hx]))
  parent := by
    intro x hx
    have hxroot := h.parent x (by simp [hx])
    have hxrun : x ∉ first :: more := by
      intro hmem
      have hnodup := h.nodup
      rw [h.children_eq, ← List.cons_append, List.nodup_append, List.nodup_append] at hnodup
      exact hnodup.2.1.2.2 x hmem x hx rfl
    rw [hw.parent_old x hxrun (ne_nextId_of_lt (lt_size_of_parent hxroot)), hxroot]

theorem Layers.wrap (h : s.Awaits pre (.wrap layer first more :: cs))
    (hw : s.Wraps t layer first more pre (cs.flatMap Change.ids))
    (hrest : t.Layers t' (pre ++ [s.nextId]) cs) :
    s.Layers t' pre (.wrap layer first more :: cs) where
  size := by
    rw [hrest.size, hw.size, Change.wrapped, List.length_cons]
    omega
  children_root := by
    rw [hrest.children_root, hw.size, List.append_assoc, List.singleton_append]
    rfl
  children_old j hj hjroot := by
    rw [hrest.children_old j (by rw [hw.size]; omega) hjroot,
      hw.children_old j hjroot (ne_nextId_of_lt hj)]
  content_old j hj := by
    rw [hrest.content_old j (by rw [hw.size]; omega), hw.content_old j (ne_nextId_of_lt hj)]
  wrapper := by
    intro k layer' first' more' hk
    have hnextlt : s.nextId.index < t.size := by
      rw [hw.size]
      exact Nat.lt_succ_self _
    cases k with
    | zero =>
      cases hk
      change t'.children s.nextId = first :: more ∧ t'.content s.nextId = _
      have hroot : s.nextId ≠ root := Ne.symm (ne_nextId_of_lt h.rootRun.root_lt_size)
      rw [hrest.children_old _ hnextlt hroot, hw.children_new, hrest.content_old _ hnextlt,
        hw.content_new]
      exact ⟨rfl, rfl⟩
    | succ k =>
      have hk' : (Change.wrapped cs)[k]? = some (layer', first', more') := hk
      have hmem := Change.mem_ids_of_wrapped (List.mem_of_getElem? hk')
      have hlt := lt_size_of_parent (h.parent first' (by simp [hmem]))
      have hnew := hrest.wrapper k layer' first' more' hk'
      rw [raws, hw.content_old first' (ne_nextId_of_lt hlt), hw.size, Nat.add_assoc,
        Nat.add_comm 1 k] at hnew
      exact hnew

end Wrap

theorem Awaits.layers {s : Stylesheet} {cs : List Change} {pre : List NodeId}
    (h : s.Awaits pre cs) : s.Layers (cs.foldl applyWrap s) pre cs := by
  induction cs generalizing s pre with
  | nil =>
    refine ⟨rfl, h.children_root, fun _ _ _ => rfl, fun _ _ => rfl, fun k _ _ _ hk => ?_⟩
    simp [Change.wrapped] at hk
  | cons c cs ih =>
    cases c with
    | keep id =>
      obtain ⟨hsize, hroot, hold, hcontent, hwrapper⟩ := ih (h.next rfl)
      rw [List.append_assoc] at hroot
      exact ⟨hsize, hroot, hold, hcontent, hwrapper⟩
    | tag id layer =>
      obtain ⟨hsize, hroot, hold, hcontent, hwrapper⟩ := ih (h.next rfl)
      rw [List.append_assoc] at hroot
      exact ⟨hsize, hroot, hold, hcontent, hwrapper⟩
    | wrap layer first more => exact .wrap h h.wraps (ih (h.wrap h.wraps))

end Stylesheet
end UtilityCss
