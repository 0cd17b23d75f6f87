import Mathlib
import UtilityCss.Stylesheet.Basic

/-!
# Links after an edit

What each elementary change does to the size, the parents, the children and the contents of a
stylesheet. A number that names no node has no parent and no children, so most of these equations
need no condition.
-/
namespace UtilityCss.Stylesheet

theorem hasNode_iff {s : Stylesheet} {id : NodeId} : s.hasNode id = true ↔ id.index < s.size := by
  simp [hasNode]

theorem node_of_size_le {s : Stylesheet} {id : NodeId} (h : s.size ≤ id.index) :
    s.node id = detachedNode ⟨.root, {}⟩ := by
  unfold node
  rw [Array.getD_eq_getD_getElem?, Array.getElem?_eq_none h]
  rfl

theorem parent_of_size_le {s : Stylesheet} {id : NodeId} (h : s.size ≤ id.index) :
    s.parent id = none := by
  rw [parent, node_of_size_le h]
  rfl

theorem children_of_size_le {s : Stylesheet} {id : NodeId} (h : s.size ≤ id.index) :
    s.children id = [] := by
  rw [children, node_of_size_le h]
  rfl

theorem lt_size_of_parent {s : Stylesheet} {id p : NodeId} (h : s.parent id = some p) :
    id.index < s.size := by
  by_contra hle
  rw [parent_of_size_le (Nat.le_of_not_lt hle)] at h
  cases h

theorem lt_size_of_mem_children {s : Stylesheet} {p id : NodeId} (h : id ∈ s.children p) :
    p.index < s.size := by
  by_contra hle
  rw [children_of_size_le (Nat.le_of_not_lt hle)] at h
  cases h

theorem parent_nextId (s : Stylesheet) : s.parent s.nextId = none :=
  parent_of_size_le (Nat.le_refl _)

theorem children_nextId (s : Stylesheet) : s.children s.nextId = [] :=
  children_of_size_le (Nat.le_refl _)

section Fields

variable (s : Stylesheet) (id j : NodeId)

theorem content_modify (f : Node → Node) (hf : ∀ n, (f n).content = n.content) :
    (s.modify id f).content j = s.content j := by
  simp only [content, node_modify]
  split
  · exact hf _
  · rfl

theorem parent_modify (f : Node → Node) (hf : ∀ n, (f n).parent = n.parent) :
    (s.modify id f).parent j = s.parent j := by
  simp only [parent, node_modify]
  split
  · exact hf _
  · rfl

theorem children_modify (f : Node → Node) (hf : ∀ n, (f n).children = n.children) :
    (s.modify id f).children j = s.children j := by
  simp only [children, node_modify]
  split
  · exact hf _
  · rfl

@[simp] theorem size_setParent (p : Option NodeId) : (s.setParent id p).size = s.size :=
  size_modify ..

@[simp] theorem content_setParent (p : Option NodeId) :
    (s.setParent id p).content j = s.content j :=
  content_modify _ _ _ _ fun _ => rfl

@[simp] theorem children_setParent (p : Option NodeId) :
    (s.setParent id p).children j = s.children j :=
  children_modify _ _ _ _ fun _ => rfl

theorem parent_setParent (p : Option NodeId) :
    (s.setParent id p).parent j = if id = j ∧ j.index < s.size then p else s.parent j := by
  simp only [parent, setParent, node_modify]
  split <;> rfl

@[simp] theorem size_modifyChildren (f : List NodeId → List NodeId) :
    (s.modifyChildren id f).size = s.size :=
  size_modify ..

@[simp] theorem content_modifyChildren (f : List NodeId → List NodeId) :
    (s.modifyChildren id f).content j = s.content j :=
  content_modify _ _ _ _ fun _ => rfl

@[simp] theorem parent_modifyChildren (f : List NodeId → List NodeId) :
    (s.modifyChildren id f).parent j = s.parent j :=
  parent_modify _ _ _ _ fun _ => rfl

theorem children_modifyChildren (f : List NodeId → List NodeId) :
    (s.modifyChildren id f).children j =
      if id = j ∧ j.index < s.size then f (s.children j) else s.children j := by
  simp only [children, modifyChildren, node_modify]
  split <;> rfl

@[simp] theorem size_modifyContent (f : Content → Content) :
    (s.modifyContent id f).size = s.size :=
  size_modify ..

@[simp] theorem parent_modifyContent (f : Content → Content) :
    (s.modifyContent id f).parent j = s.parent j :=
  parent_modify _ _ _ _ fun _ => rfl

@[simp] theorem children_modifyContent (f : Content → Content) :
    (s.modifyContent id f).children j = s.children j :=
  children_modify _ _ _ _ fun _ => rfl

theorem content_modifyContent (f : Content → Content) :
    (s.modifyContent id f).content j =
      if id = j ∧ j.index < s.size then f (s.content j) else s.content j := by
  simp only [content, modifyContent, node_modify]
  split <;> rfl

@[simp] theorem parent_create (c : Content) : (s.create c).parent j = s.parent j := by
  simp only [parent, node_create]
  split
  · rename_i h
    subst h
    exact (parent_nextId s).symm
  · rfl

@[simp] theorem children_create (c : Content) : (s.create c).children j = s.children j := by
  simp only [children, node_create]
  split
  · rename_i h
    subst h
    exact (children_nextId s).symm
  · rfl

theorem content_create (c : Content) :
    (s.create c).content j = if j = s.nextId then c else s.content j := by
  simp only [content, node_create]
  split <;> rfl

end Fields

@[simp] theorem size_detach (s : Stylesheet) (id : NodeId) : (s.detach id).size = s.size := by
  unfold detach
  split <;> simp

@[simp] theorem content_detach (s : Stylesheet) (id j : NodeId) :
    (s.detach id).content j = s.content j := by
  unfold detach
  split <;> simp

theorem parent_detach (s : Stylesheet) (id j : NodeId) :
    (s.detach id).parent j = if j = id then none else s.parent j := by
  unfold detach
  split
  · rename_i h
    split
    · rename_i hj
      rw [hj, h]
    · rfl
  · rename_i p h
    rw [parent_modifyChildren, parent_setParent]
    by_cases hj : j = id
    · subst hj
      simp [lt_size_of_parent h]
    · simp [hj, Ne.symm hj]

theorem children_detach (s : Stylesheet) (id j : NodeId) :
    (s.detach id).children j =
      if s.parent id = some j then (s.children j).filter (· ≠ id) else s.children j := by
  unfold detach
  cases h : s.parent id with
  | none => simp
  | some p =>
    rw [children_modifyChildren]
    simp only [children_setParent, size_setParent, Option.some.injEq]
    by_cases hp : p = j
    · subst hp
      by_cases hlt : p.index < s.size
      · simp [hlt]
      · simp [hlt, children_of_size_le (Nat.le_of_not_lt hlt)]
    · simp [hp]

@[simp] theorem size_attach (s : Stylesheet) (p c : NodeId) (place : List NodeId → List NodeId) :
    (s.attach p c place).size = s.size := by
  simp [attach]

@[simp] theorem content_attach (s : Stylesheet) (p c j : NodeId)
    (place : List NodeId → List NodeId) : (s.attach p c place).content j = s.content j := by
  simp [attach]

theorem parent_attach {s : Stylesheet} {c : NodeId} (hc : c.index < s.size) (p j : NodeId)
    (place : List NodeId → List NodeId) :
    (s.attach p c place).parent j = if j = c then some p else s.parent j := by
  rw [attach, parent_setParent, size_modifyChildren, parent_modifyChildren]
  by_cases hj : j = c
  · subst hj
    simp [hc]
  · simp [hj, Ne.symm hj]

theorem children_attach {s : Stylesheet} {p : NodeId} (hp : p.index < s.size) (c j : NodeId)
    (place : List NodeId → List NodeId) :
    (s.attach p c place).children j = if j = p then place (s.children p) else s.children j := by
  rw [attach, children_setParent, children_modifyChildren]
  by_cases hj : j = p
  · subst hj
    simp [hp]
  · simp [hj, Ne.symm hj]

@[simp] theorem size_append (s : Stylesheet) (p c : NodeId) : (s.append p c).size = s.size := by
  simp [append]

@[simp] theorem content_append (s : Stylesheet) (p c j : NodeId) :
    (s.append p c).content j = s.content j := by
  simp [append]

theorem parent_append {s : Stylesheet} {c : NodeId} (hc : c.index < s.size) (p j : NodeId) :
    (s.append p c).parent j = if j = c then some p else s.parent j := by
  rw [append, parent_attach (by simpa using hc), parent_detach]
  split <;> rfl

theorem children_append {s : Stylesheet} {p : NodeId} (hp : p.index < s.size) (c j : NodeId) :
    (s.append p c).children j =
      if j = p then (s.detach c).children p ++ [c] else (s.detach c).children j := by
  rw [append, children_attach (by simpa using hp)]

section Replace

variable {s : Stylesheet} {t r p : NodeId}

theorem size_replaceWith (s : Stylesheet) (t r : NodeId) : (s.replaceWith t r).size = s.size := by
  unfold replaceWith
  split
  · rfl
  · split
    · rfl
    · dsimp only
      split <;> simp [modifyRaws]

theorem set_of_findIdx? {l : List NodeId} {i : Nat} (h : l.findIdx? (· = t) = some i) :
    l.set i r = l.replace t r := by
  induction l generalizing i with
  | nil => rfl
  | cons a l ih =>
    rw [List.findIdx?_cons] at h
    by_cases ha : a = t
    · rw [if_pos (by simpa using ha)] at h
      cases h
      rw [ha, List.set_cons_zero, List.replace_cons_self]
    · rw [if_neg (by simpa using ha), Option.map_eq_some_iff] at h
      obtain ⟨i, hi, rfl⟩ := h
      rw [List.set_cons_succ, ih hi, List.replace_cons, beq_false_of_ne (Ne.symm ha)]

/-- Where the target is a child of its parent, it still is once the replacement has left its own
place. -/
theorem exists_indexOf?_detach (hne : t ≠ r) (hmem : t ∈ s.children p) :
    ∃ i, (s.detach r).indexOf? p t = some i := by
  have hdetach : t ∈ (s.detach r).children p := by
    rw [children_detach]
    split
    · exact List.mem_filter.mpr ⟨hmem, by simpa using hne⟩
    · exact hmem
  rw [← Option.isSome_iff_exists, indexOf?, List.findIdx?_isSome]
  simpa using hdetach

theorem content_replaceWith (hne : t ≠ r) (ht : s.parent t = some p) (hmem : t ∈ s.children p)
    (hr : r.index < s.size) (j : NodeId) :
    (s.replaceWith t r).content j =
      if j = r ∧ (s.raws r).before = [] then
        { s.content r with raws := { s.raws r with before := (s.raws t).before } }
      else s.content j := by
  obtain ⟨i, hi⟩ := exists_indexOf?_detach hne hmem
  simp only [replaceWith, hne, if_false, ht, hi, modifyRaws, content_modifyContent,
    content_setParent, content_attach, content_detach, size_setParent, size_attach, size_detach]
  by_cases hj : j = r
  · subst hj
    by_cases hb : (s.raws j).before = []
    · have hb' : (s.content j).raws.before = [] := hb
      simp [hr, hb', raws]
    · have hb' : (s.content j).raws.before ≠ [] := hb
      simp [hr, hb, hb']
  · simp [hj, Ne.symm hj]

theorem parent_replaceWith (hne : t ≠ r) (ht : s.parent t = some p) (hmem : t ∈ s.children p)
    (hr : r.index < s.size) (j : NodeId) :
    (s.replaceWith t r).parent j =
      if j = t then none else if j = r then some p else s.parent j := by
  obtain ⟨i, hi⟩ := exists_indexOf?_detach hne hmem
  simp only [replaceWith, hne, if_false, ht, hi, modifyRaws, parent_modifyContent,
    parent_setParent, size_attach, size_detach]
  rw [parent_attach (by simpa using hr), parent_detach]
  by_cases hj : j = t
  · subst hj
    simp [lt_size_of_parent ht]
  · by_cases hjr : j = r
    · have hrt : r ≠ t := Ne.symm hne
      simp [hjr, hrt, hne]
    · simp [hj, hjr, Ne.symm hj]

theorem children_replaceWith (hne : t ≠ r) (ht : s.parent t = some p) (hmem : t ∈ s.children p)
    (hp : p.index < s.size) (j : NodeId) :
    (s.replaceWith t r).children j =
      if j = p then ((s.detach r).children p).replace t r else (s.detach r).children j := by
  obtain ⟨i, hi⟩ := exists_indexOf?_detach hne hmem
  simp only [replaceWith, hne, if_false, ht, hi, modifyRaws, children_modifyContent,
    children_setParent]
  rw [children_attach (by simpa using hp), set_of_findIdx? hi]

end Replace

end UtilityCss.Stylesheet
