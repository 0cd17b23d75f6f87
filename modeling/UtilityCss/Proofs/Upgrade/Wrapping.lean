import UtilityCss.Proofs.Stylesheet.Building
import UtilityCss.Upgrade.Layering

/-!
# Wrapping runs

One wrapper takes the place of its run among the children of the root and gets the run as its own
children; nothing else changes. So the changes of a whole stylesheet can be carried out one after
the other, since each finds its run where the stylesheet had it.
-/
namespace UtilityCss.Stylesheet

section Several

variable {s : Stylesheet} {p w : NodeId} {ids : List NodeId}

theorem size_foldl_detach (s : Stylesheet) (ids : List NodeId) :
    (ids.foldl detach s).size = s.size := by
  induction ids generalizing s with
  | nil => rfl
  | cons id ids ih => rw [List.foldl_cons, ih, size_detach]

theorem content_foldl_detach (s : Stylesheet) (ids : List NodeId) (j : NodeId) :
    (ids.foldl detach s).content j = s.content j := by
  induction ids generalizing s with
  | nil => rfl
  | cons id ids ih => rw [List.foldl_cons, ih, content_detach]

theorem parent_foldl_detach (s : Stylesheet) (ids : List NodeId) (j : NodeId) :
    (ids.foldl detach s).parent j = if j ∈ ids then none else s.parent j := by
  induction ids generalizing s with
  | nil => simp
  | cons id ids ih =>
    rw [List.foldl_cons, ih, parent_detach]
    by_cases hj : j = id <;> by_cases hmem : j ∈ ids <;> simp [hj, hmem]

theorem children_foldl_detach (hids : ids.Nodup) (hp : ∀ x ∈ ids, s.parent x = some p)
    (j : NodeId) :
    (ids.foldl detach s).children j =
      if j = p then (s.children p).filter (· ∉ ids) else s.children j := by
  induction ids generalizing s with
  | nil => by_cases hj : j = p <;> simp [hj]
  | cons id ids ih =>
    obtain ⟨hid, hnodup⟩ := List.nodup_cons.mp hids
    have hp' : ∀ x ∈ ids, (s.detach id).parent x = some p := by
      intro x hx
      have hne : x ≠ id := fun heq => hid (heq ▸ hx)
      rw [parent_detach, if_neg hne, hp x (by simp [hx])]
    rw [List.foldl_cons, ih hnodup hp', children_detach, children_detach, hp id (by simp)]
    by_cases hj : j = p
    · simp [hj, List.filter_filter, Bool.and_comm]
    · simp [hj, Ne.symm hj]

theorem size_foldl_append (s : Stylesheet) (w : NodeId) (ids : List NodeId) :
    (ids.foldl (·.append w ·) s).size = s.size := by
  induction ids generalizing s with
  | nil => rfl
  | cons id ids ih => rw [List.foldl_cons, ih, size_append]

theorem content_foldl_append (s : Stylesheet) (w : NodeId) (ids : List NodeId) (j : NodeId) :
    (ids.foldl (·.append w ·) s).content j = s.content j := by
  induction ids generalizing s with
  | nil => rfl
  | cons id ids ih => rw [List.foldl_cons, ih, content_append]

theorem parent_foldl_append (hsize : ∀ x ∈ ids, x.index < s.size) (j : NodeId) :
    (ids.foldl (·.append w ·) s).parent j = if j ∈ ids then some w else s.parent j := by
  induction ids generalizing s with
  | nil => simp
  | cons id ids ih =>
    rw [List.foldl_cons, ih fun x hx => by rw [size_append]; exact hsize x (by simp [hx])]
    rw [parent_append (hsize id (by simp))]
    by_cases hj : j = id <;> by_cases hmem : j ∈ ids <;> simp [hj, hmem]

theorem children_foldl_append (hw : w.index < s.size) (hids : ids.Nodup)
    (hsize : ∀ x ∈ ids, x.index < s.size) (hfree : ∀ x ∈ ids, s.parent x = none) (j : NodeId) :
    (ids.foldl (·.append w ·) s).children j =
      if j = w then s.children w ++ ids else s.children j := by
  induction ids generalizing s with
  | nil => by_cases hj : j = w <;> simp [hj]
  | cons id ids ih =>
    obtain ⟨hid, hnodup⟩ := List.nodup_cons.mp hids
    have hfree' : ∀ x ∈ ids, (s.append w id).parent x = none := by
      intro x hx
      have hne : x ≠ id := fun heq => hid (heq ▸ hx)
      rw [parent_append (hsize id (by simp)), if_neg hne, hfree x (by simp [hx])]
    have hdetach : ∀ i, (s.detach id).children i = s.children i := by
      intro i
      rw [children_detach, hfree id (by simp), if_neg (by simp)]
    rw [List.foldl_cons, ih (by rwa [size_append]) hnodup
      (fun x hx => by rw [size_append]; exact hsize x (by simp [hx])) hfree',
      children_append hw, children_append hw, hdetach, hdetach]
    by_cases hj : j = w <;> simp [hj]

end Several

def wrapperContent (layer : Layer) (before : Text) : Content :=
  { Change.wrapper layer with raws := { (Change.wrapper layer).raws with before := before } }

/-- What wrapping a run does: `s'` has one node more than `s`, which stands for the run. -/
structure Wraps (s s' : Stylesheet) (layer : Layer) (first : NodeId) (more pre post : List NodeId) :
    Prop where
  size : s'.size = s.size + 1
  children_root : s'.children root = pre ++ s.nextId :: post
  children_new : s'.children s.nextId = first :: more
  children_old : ∀ j, j ≠ root → j ≠ s.nextId → s'.children j = s.children j
  content_new : s'.content s.nextId = wrapperContent layer (s.raws first).before
  content_old : ∀ j, j ≠ s.nextId → s'.content j = s.content j
  parent_old : ∀ j, j ∉ first :: more → j ≠ s.nextId → s'.parent j = s.parent j
  parent_new : s'.parent s.nextId = some root
  parent_run : ∀ j ∈ first :: more, s'.parent j = some s.nextId

theorem filter_notMem_run {a b l : List NodeId} {first : NodeId}
    (h : (a ++ first :: (l ++ b)).Nodup) :
    (a ++ first :: (l ++ b)).filter (· ∉ l) = a ++ first :: b := by
  rw [List.nodup_append, List.nodup_cons, List.nodup_append] at h
  obtain ⟨-, ⟨hfirst, -, -, hlb⟩, ha⟩ := h
  have hkeep : ∀ {m : List NodeId}, (∀ x ∈ m, x ∉ l) → m.filter (· ∉ l) = m := by
    intro m hm
    exact List.filter_eq_self.mpr fun x hx => by simpa using hm x hx
  have hdrop : l.filter (· ∉ l) = [] := List.filter_eq_nil_iff.mpr fun x hx => by simpa using hx
  have hfirst' : first ∉ l := fun hl => hfirst (List.mem_append_left b hl)
  rw [List.filter_append, hkeep fun x hx hl => ha x hx x (by simp [hl]) rfl,
    List.filter_cons_of_pos (by simpa using hfirst'), List.filter_append, hdrop,
    hkeep fun x hx hl => hlb x hl x hx rfl, List.nil_append]

/-- A run of children of the root, with the children before and after it. -/
structure RootRun (s : Stylesheet) (first : NodeId) (more pre post : List NodeId) : Prop where
  children_root : s.children root = pre ++ first :: (more ++ post)
  nodup : (s.children root).Nodup
  parent_run : ∀ x ∈ first :: more, s.parent x = some root

namespace RootRun

variable {s : Stylesheet} {first : NodeId} {more pre post : List NodeId}

theorem lt_size (h : s.RootRun first more pre post) {x : NodeId} (hx : x ∈ first :: more) :
    x.index < s.size :=
  lt_size_of_parent (h.parent_run x hx)

theorem ne_nextId (h : s.RootRun first more pre post) {x : NodeId} (hx : x ∈ first :: more) :
    x ≠ s.nextId :=
  ne_nextId_of_lt (h.lt_size hx)

theorem root_lt_size (h : s.RootRun first more pre post) : root.index < s.size := by
  have hmem : first ∈ s.children root := by simp [h.children_root]
  exact lt_size_of_mem_children hmem

theorem nodup_run (h : s.RootRun first more pre post) : (first :: more).Nodup := by
  have hnodup := h.nodup
  rw [h.children_root, ← List.cons_append] at hnodup
  exact (List.nodup_append.mp (List.nodup_append.mp hnodup).2.1).1

theorem first_notMem (h : s.RootRun first more pre post) : first ∉ pre := by
  intro hmem
  have hnodup := h.nodup
  rw [h.children_root, List.nodup_append] at hnodup
  exact hnodup.2.2 first hmem first (by simp) rfl

end RootRun

/-! The rest of a run leaves the root and a wrapper is created, which belongs nowhere yet. -/

def withWrapper (s : Stylesheet) (layer : Layer) (more : List NodeId) : Stylesheet :=
  (more.foldl detach s).create (Change.wrapper layer)

section WithWrapper

variable {s : Stylesheet} {first : NodeId} {more pre post : List NodeId} (layer : Layer)

theorem nextId_foldl_detach (s : Stylesheet) (ids : List NodeId) :
    (ids.foldl detach s).nextId = s.nextId :=
  NodeId.ext (size_foldl_detach s ids)

theorem size_withWrapper : (s.withWrapper layer more).size = s.size + 1 := by
  rw [withWrapper, size_create, size_foldl_detach]

theorem parent_withWrapper (j : NodeId) :
    (s.withWrapper layer more).parent j = if j ∈ more then none else s.parent j := by
  rw [withWrapper, parent_create, parent_foldl_detach]

theorem content_withWrapper (j : NodeId) :
    (s.withWrapper layer more).content j =
      if j = s.nextId then Change.wrapper layer else s.content j := by
  rw [withWrapper, content_create, nextId_foldl_detach, content_foldl_detach]

theorem RootRun.children_withWrapper (h : s.RootRun first more pre post) (j : NodeId) :
    (s.withWrapper layer more).children j =
      if j = root then pre ++ first :: post else s.children j := by
  have hmore := (List.nodup_cons.mp h.nodup_run).2
  have hparent : ∀ x ∈ more, s.parent x = some root := fun x hx => h.parent_run x (by simp [hx])
  have hnodup := h.nodup
  rw [h.children_root] at hnodup
  rw [withWrapper, children_create, children_foldl_detach hmore hparent, h.children_root,
    filter_notMem_run hnodup]

theorem RootRun.first_mem_withWrapper (h : s.RootRun first more pre post) :
    first ∈ (s.withWrapper layer more).children root := by
  rw [h.children_withWrapper, if_pos rfl]
  exact List.mem_append_right _ List.mem_cons_self

end WithWrapper

/-! The wrapper takes the place of the first node of its run, which then belongs nowhere. -/

def withPlacedWrapper (s : Stylesheet) (layer : Layer) (first : NodeId) (more : List NodeId) :
    Stylesheet :=
  (s.withWrapper layer more).replaceWith first s.nextId

section WithPlacedWrapper

variable {s : Stylesheet} {first : NodeId} {more pre post : List NodeId} (layer : Layer)

theorem size_withPlacedWrapper :
    (s.withPlacedWrapper layer first more).size = s.size + 1 := by
  rw [withPlacedWrapper, size_replaceWith, size_withWrapper]

theorem RootRun.parent_first (h : s.RootRun first more pre post) :
    (s.withWrapper layer more).parent first = some root := by
  have hfirst := (List.nodup_cons.mp h.nodup_run).1
  rw [parent_withWrapper, if_neg hfirst, h.parent_run first (by simp)]

theorem nextId_lt_size_withWrapper : s.nextId.index < (s.withWrapper layer more).size := by
  rw [size_withWrapper]
  exact Nat.lt_succ_self _

theorem RootRun.parent_withPlacedWrapper (h : s.RootRun first more pre post) (j : NodeId) :
    (s.withPlacedWrapper layer first more).parent j =
      if j = first then none else if j = s.nextId then some root
      else if j ∈ more then none else s.parent j := by
  have hne : first ≠ s.nextId := h.ne_nextId (by simp)
  rw [withPlacedWrapper,
    parent_replaceWith hne (h.parent_first layer) (h.first_mem_withWrapper layer)
      (nextId_lt_size_withWrapper layer),
    parent_withWrapper]

theorem RootRun.children_withPlacedWrapper (h : s.RootRun first more pre post) (j : NodeId) :
    (s.withPlacedWrapper layer first more).children j =
      if j = root then pre ++ s.nextId :: post else s.children j := by
  have hne : first ≠ s.nextId := h.ne_nextId (by simp)
  have hroot : root.index < (s.withWrapper layer more).size := by
    rw [size_withWrapper]
    exact Nat.lt_succ_of_lt h.root_lt_size
  have hfresh : (s.withWrapper layer more).parent s.nextId = none := by
    rw [parent_withWrapper, parent_nextId, ite_self]
  have hdetach : ∀ i, ((s.withWrapper layer more).detach s.nextId).children i =
      (s.withWrapper layer more).children i := by
    intro i
    rw [children_detach, hfresh, if_neg (by simp)]
  rw [withPlacedWrapper,
    children_replaceWith hne (h.parent_first layer) (h.first_mem_withWrapper layer) hroot,
    hdetach, hdetach, h.children_withWrapper, h.children_withWrapper, if_pos rfl]
  by_cases hj : j = root
  · rw [if_pos hj, if_pos hj, List.replace_append_right h.first_notMem, List.replace_cons_self]
  · rw [if_neg hj, if_neg hj, if_neg hj]

theorem RootRun.content_withPlacedWrapper (h : s.RootRun first more pre post) (j : NodeId) :
    (s.withPlacedWrapper layer first more).content j =
      if j = s.nextId then wrapperContent layer (s.raws first).before else s.content j := by
  have hne : first ≠ s.nextId := h.ne_nextId (by simp)
  have hbefore : ((s.withWrapper layer more).raws s.nextId).before = [] := by
    rw [raws, content_withWrapper, if_pos rfl]
    rfl
  have hraws : (s.withWrapper layer more).raws first = s.raws first := by
    rw [raws, content_withWrapper, if_neg hne, raws]
  rw [withPlacedWrapper,
    content_replaceWith hne (h.parent_first layer) (h.first_mem_withWrapper layer)
      (nextId_lt_size_withWrapper layer), hbefore,
    hraws, raws, content_withWrapper, content_withWrapper]
  by_cases hj : j = s.nextId
  · simp only [hj, and_self, if_true]
    rfl
  · simp [hj]

end WithPlacedWrapper

theorem wrapRun_eq (s : Stylesheet) (layer : Layer) (first : NodeId) (more : List NodeId) :
    s.wrapRun layer first more =
      (first :: more).foldl (·.append s.nextId ·) (s.withPlacedWrapper layer first more) := by
  rw [wrapRun, nextId_foldl_detach, withPlacedWrapper, withWrapper]

theorem RootRun.wraps {s : Stylesheet} {first : NodeId} {more pre post : List NodeId}
    (h : s.RootRun first more pre post) (layer : Layer) :
    s.Wraps (s.wrapRun layer first more) layer first more pre post := by
  have hfree : ∀ x ∈ first :: more, (s.withPlacedWrapper layer first more).parent x = none := by
    intro x hx
    rw [h.parent_withPlacedWrapper]
    rcases List.mem_cons.mp hx with rfl | hmore
    · rw [if_pos rfl]
    · simp [h.ne_nextId hx, hmore]
  have hnext : s.nextId.index < (s.withPlacedWrapper layer first more).size := by
    rw [size_withPlacedWrapper]
    exact Nat.lt_succ_self _
  have hlt : ∀ x ∈ first :: more, x.index < (s.withPlacedWrapper layer first more).size := by
    intro x hx
    rw [size_withPlacedWrapper]
    exact Nat.lt_succ_of_lt (h.lt_size hx)
  have hchildren := children_foldl_append hnext h.nodup_run hlt hfree
  have hparent := fun j => parent_foldl_append (w := s.nextId) hlt j
  have hroot : root ≠ s.nextId := ne_nextId_of_lt h.root_lt_size
  rw [wrapRun_eq]
  constructor
  · rw [size_foldl_append, size_withPlacedWrapper]
  · rw [hchildren, if_neg hroot, h.children_withPlacedWrapper, if_pos rfl]
  · rw [hchildren, if_pos rfl, h.children_withPlacedWrapper, if_neg (Ne.symm hroot),
      children_nextId, List.nil_append]
  · intro j hj hjnext
    rw [hchildren, if_neg hjnext, h.children_withPlacedWrapper, if_neg hj]
  · rw [content_foldl_append, h.content_withPlacedWrapper, if_pos rfl]
  · intro j hj
    rw [content_foldl_append, h.content_withPlacedWrapper, if_neg hj]
  · intro j hj hjnext
    have hjfirst : j ≠ first := fun heq => hj (by simp [heq])
    have hjmore : j ∉ more := fun hmem => hj (by simp [hmem])
    rw [hparent, if_neg hj, h.parent_withPlacedWrapper, if_neg hjfirst, if_neg hjnext,
      if_neg hjmore]
  · have hnot : s.nextId ∉ first :: more := fun hmem => h.ne_nextId hmem rfl
    have hfirst : s.nextId ≠ first := Ne.symm (h.ne_nextId (by simp))
    rw [hparent, if_neg hnot, h.parent_withPlacedWrapper, if_neg hfirst, if_pos rfl]
  · intro j hj
    rw [hparent, if_pos hj]

end UtilityCss.Stylesheet
