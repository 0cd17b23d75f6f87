import UtilityCss.Proofs.Stylesheet.Links

/-!
# Stylesheets that are forests

The links of a stylesheet make a forest when parents and children agree, no child is listed twice,
and every chain of parents ends. Below each node there is then a finite tree, and the traversal by a
bounded depth misses nothing of it.
-/
namespace UtilityCss

def Forest.height {α : Type} : Forest α → Nat
  | nil => 0
  | cons _ children rest => max (children.height + 1) rest.height

namespace Stylesheet

/-- The parent of a node, the parent of that one, and so on to a node without a parent. -/
inductive Ancestry (s : Stylesheet) : NodeId → List NodeId → Prop
  | top {id : NodeId} (h : s.parent id = none) : Ancestry s id []
  | step {id p : NodeId} {l : List NodeId} (h : s.parent id = some p) (rest : Ancestry s p l) :
      Ancestry s id (p :: l)

/-- The links of a forest: a node is among the children of its parent and nowhere else, it is there
once, the root has no parent, and from every node the parents lead to an end. -/
structure IsForest (s : Stylesheet) : Prop where
  mem_children_iff : ∀ p c, c ∈ s.children p ↔ s.parent c = some p
  nodup_children : ∀ p, (s.children p).Nodup
  parent_root : s.parent root = none
  ancestry : ∀ id, ∃ l, s.Ancestry id l

/-- The forest that the links make below and beside the nodes `ids`. -/
inductive Spans (s : Stylesheet) : List NodeId → Forest NodeId → Prop
  | nil : Spans s [] .nil
  | cons {id : NodeId} {ids : List NodeId} {below rest : Forest NodeId}
      (hbelow : Spans s (s.children id) below) (hrest : Spans s ids rest) :
      Spans s (id :: ids) (.cons id below rest)

namespace Ancestry

variable {s : Stylesheet} {id a : NodeId} {l l' : List NodeId}

theorem unique (h : s.Ancestry id l) (h' : s.Ancestry id l') : l = l' := by
  induction h generalizing l' with
  | top hp =>
    cases h' with
    | top => rfl
    | step hp' => rw [hp] at hp'; cases hp'
  | step hp _ ih =>
    cases h' with
    | top hp' => rw [hp] at hp'; cases hp'
    | step hp' hrest =>
      rw [hp] at hp'
      cases hp'
      rw [ih hrest]

theorem of_mem (h : s.Ancestry id l) (ha : a ∈ l) :
    ∃ l', s.Ancestry a l' ∧ l'.length < l.length := by
  induction h with
  | top => cases ha
  | @step id p l hp hrest ih =>
    rcases List.mem_cons.mp ha with rfl | ha
    · exact ⟨l, hrest, by simp⟩
    · obtain ⟨l', hl', hlt⟩ := ih ha
      exact ⟨l', hl', by simp only [List.length_cons]; omega⟩

theorem notMem (h : s.Ancestry id l) : id ∉ l := by
  intro hid
  obtain ⟨l', hl', hlt⟩ := h.of_mem hid
  rw [h.unique hl'] at hlt
  exact Nat.lt_irrefl _ hlt

theorem nodup (h : s.Ancestry id l) : (id :: l).Nodup := by
  induction h with
  | top => simp
  | step hp hrest ih => exact List.nodup_cons.mpr ⟨notMem (.step hp hrest), ih⟩

end Ancestry

namespace IsForest

variable {s : Stylesheet}

theorem lt_size_of_mem (h : s.IsForest) {p c : NodeId} (hc : c ∈ s.children p) :
    c.index < s.size :=
  lt_size_of_parent ((h.mem_children_iff p c).mp hc)

theorem parent_lt_size (h : s.IsForest) {p c : NodeId} (hc : s.parent c = some p) :
    p.index < s.size :=
  lt_size_of_mem_children ((h.mem_children_iff p c).mpr hc)

theorem root_notMem_children (h : s.IsForest) (p : NodeId) : root ∉ s.children p := by
  intro hr
  have hp := (h.mem_children_iff p root).mp hr
  rw [h.parent_root] at hp
  cases hp

theorem ancestry_lt_size (h : s.IsForest) {id a : NodeId} {l : List NodeId}
    (hl : s.Ancestry id l) (ha : a ∈ l) : a.index < s.size := by
  induction hl with
  | top => cases ha
  | step hp _ ih =>
    rcases List.mem_cons.mp ha with rfl | ha
    · exact h.parent_lt_size hp
    · exact ih ha

/-- A chain of parents never comes back to a node, so it is shorter than the stylesheet. -/
theorem length_ancestry_lt (h : s.IsForest) {id : NodeId} {l : List NodeId}
    (hid : id.index < s.size) (hl : s.Ancestry id l) : l.length < s.size := by
  have hnodup : ((id :: l).map NodeId.index).Nodup :=
    hl.nodup.map fun a b hab => NodeId.ext hab
  have hsub : (id :: l).map NodeId.index ⊆ List.range s.size := by
    intro n hn
    obtain ⟨a, ha, rfl⟩ := List.mem_map.mp hn
    rcases List.mem_cons.mp ha with rfl | ha
    · exact List.mem_range.mpr hid
    · exact List.mem_range.mpr (h.ancestry_lt_size hl ha)
  have hlen := (List.subperm_of_subset hnodup hsub).length_le
  simp only [List.length_map, List.length_cons, List.length_range] at hlen
  omega

end IsForest

theorem unfold_cons (s : Stylesheet) (d : Nat) (id : NodeId) (ids : List NodeId) :
    s.unfold (d + 1) (id :: ids) =
      .cons id (s.unfold d (s.children id)) (s.unfold (d + 1) ids) := rfl

theorem unfold_nil (s : Stylesheet) (d : Nat) : s.unfold d [] = .nil := by
  cases d <;> rfl

theorem height_unfold_le (s : Stylesheet) (d : Nat) (ids : List NodeId) :
    (s.unfold d ids).height ≤ d := by
  induction d generalizing ids with
  | zero => simp [unfold, Forest.height]
  | succ d ih =>
    induction ids with
    | nil => simp [unfold_nil, Forest.height]
    | cons id ids ihids =>
      rw [unfold_cons]
      simp only [Forest.height, Nat.max_le]
      exact ⟨Nat.succ_le_succ (ih _), ihids⟩

namespace Spans

variable {s s' : Stylesheet} {ids : List NodeId} {t : Forest NodeId}

theorem unfold_eq (h : s.Spans ids t) {d : Nat} (hd : t.height ≤ d) : s.unfold d ids = t := by
  induction h generalizing d with
  | nil => exact unfold_nil s d
  | cons _ _ ihbelow ihrest =>
    simp only [Forest.height, Nat.max_le] at hd
    obtain ⟨d, rfl⟩ : ∃ e, d = e + 1 := ⟨d - 1, by omega⟩
    rw [unfold_cons, ihbelow (by omega), ihrest hd.2]

theorem below_eq {id : NodeId} (h : s.Spans (s.children id) t) (ht : t.height ≤ s.size) :
    s.below id = t :=
  h.unfold_eq ht

theorem roots_eq (h : s.Spans ids t) : t.roots = ids := by
  induction h with
  | nil => rfl
  | cons _ _ _ ih => simp [Forest.roots, ih]

theorem congr (h : s.Spans ids t) (hs : ∀ x ∈ t.preorder, s'.children x = s.children x) :
    s'.Spans ids t := by
  induction h with
  | nil => exact .nil
  | @cons id ids below rest _ _ ihbelow ihrest =>
    simp only [Forest.preorder, List.mem_cons, List.mem_append] at hs
    refine .cons ?_ (ihrest fun x hx => hs x (.inr (.inr hx)))
    rw [hs id (.inl rfl)]
    exact ihbelow fun x hx => hs x (.inr (.inl hx))

theorem mem_preorder (h : s.Spans ids t) {x : NodeId} (hx : x ∈ t.preorder) :
    x ∈ ids ∨ ∃ y ∈ t.preorder, x ∈ s.children y := by
  induction h with
  | nil => cases hx
  | @cons id ids below rest _ _ ihbelow ihrest =>
    simp only [Forest.preorder, List.mem_cons, List.mem_append] at hx ⊢
    rcases hx with rfl | hx | hx
    · exact .inl (.inl rfl)
    · rcases ihbelow hx with hx | ⟨y, hy, hxy⟩
      · exact .inr ⟨id, .inl rfl, hx⟩
      · exact .inr ⟨y, .inr (.inl hy), hxy⟩
    · rcases ihrest hx with hx | ⟨y, hy, hxy⟩
      · exact .inl (.inr hx)
      · exact .inr ⟨y, .inr (.inr hy), hxy⟩

theorem unique {t' : Forest NodeId} (h : s.Spans ids t) (h' : s.Spans ids t') : t = t' := by
  induction h generalizing t' with
  | nil =>
    cases h'
    rfl
  | cons _ _ ihbelow ihrest =>
    cases h' with
    | cons hbelow hrest => rw [ihbelow hbelow, ihrest hrest]

end Spans

theorem IsForest.spans_unfold {s : Stylesheet} (h : s.IsForest) (d : Nat) (ids : List NodeId)
    (hids : ∀ id ∈ ids, id.index < s.size ∧ ∃ l, s.Ancestry id l ∧ s.size ≤ l.length + d) :
    s.Spans ids (s.unfold d ids) := by
  induction d generalizing ids with
  | zero =>
    cases ids with
    | nil => exact .nil
    | cons id ids =>
      obtain ⟨hid, l, hl, hlen⟩ := hids id (by simp)
      have := h.length_ancestry_lt hid hl
      omega
  | succ d ih =>
    induction ids with
    | nil => exact .nil
    | cons id ids ihids =>
      obtain ⟨-, l, hl, hlen⟩ := hids id (by simp)
      rw [unfold_cons]
      refine .cons (ih _ fun c hc => ?_) (ihids fun x hx => hids x (by simp [hx]))
      have hp := (h.mem_children_iff id c).mp hc
      exact ⟨h.lt_size_of_mem hc, id :: l, .step hp hl, by simp only [List.length_cons]; omega⟩

/-- In a forest the traversal below a node is complete. -/
theorem IsForest.spans_below {s : Stylesheet} (h : s.IsForest) (id : NodeId) :
    s.Spans (s.children id) (s.below id) := by
  refine h.spans_unfold _ _ fun c hc => ⟨h.lt_size_of_mem hc, ?_⟩
  obtain ⟨l, hl⟩ := h.ancestry c
  exact ⟨l, hl, by omega⟩

def trees (s : Stylesheet) (ids : List NodeId) : Forest NodeId :=
  ids.foldr (fun id rest => .cons id (s.below id) rest) .nil

theorem trees_cons (s : Stylesheet) (id : NodeId) (ids : List NodeId) :
    s.trees (id :: ids) = .cons id (s.below id) (s.trees ids) := rfl

theorem isEmpty_map_trees (s : Stylesheet) (ids : List NodeId) :
    ((s.trees ids).map s.content).isEmpty = ids.isEmpty := by
  cases ids <;> rfl

namespace IsForest

variable {s : Stylesheet}

theorem spans_trees (h : s.IsForest) (ids : List NodeId) : s.Spans ids (s.trees ids) := by
  induction ids with
  | nil => exact .nil
  | cons id ids ih => exact .cons (h.spans_below id) ih

theorem below_eq_trees (h : s.IsForest) (id : NodeId) : s.below id = s.trees (s.children id) :=
  (h.spans_below id).unique (h.spans_trees _)

theorem exists_parent_of_mem_below (h : s.IsForest) {id x : NodeId}
    (hx : x ∈ (s.below id).preorder) :
    ∃ y, (y = id ∨ y ∈ (s.below id).preorder) ∧ x ∈ s.children y := by
  rcases (h.spans_below id).mem_preorder hx with hx | ⟨y, hy, hxy⟩
  · exact ⟨id, .inl rfl, hx⟩
  · exact ⟨y, .inr hy, hxy⟩

theorem lt_size_of_mem_below (h : s.IsForest) {id x : NodeId} (hx : x ∈ (s.below id).preorder) :
    x.index < s.size := by
  obtain ⟨y, -, hxy⟩ := h.exists_parent_of_mem_below hx
  exact h.lt_size_of_mem hxy

theorem root_notMem_below (h : s.IsForest) (id : NodeId) : root ∉ (s.below id).preorder := by
  intro hroot
  obtain ⟨y, -, hy⟩ := h.exists_parent_of_mem_below hroot
  exact h.root_notMem_children y hy

theorem notMem_children_root_of_mem_below (h : s.IsForest) {id x : NodeId} (hid : id ≠ root)
    (hx : x ∈ (s.below id).preorder) : x ∉ s.children root := by
  intro hxroot
  obtain ⟨y, hy, hxy⟩ := h.exists_parent_of_mem_below hx
  have hyroot : y = root := by
    have h₁ := (h.mem_children_iff y x).mp hxy
    rw [(h.mem_children_iff root x).mp hxroot] at h₁
    cases h₁
    rfl
  rcases hy with rfl | hy
  · exact hid hyroot
  · exact h.root_notMem_below id (hyroot ▸ hy)

end IsForest

end Stylesheet
end UtilityCss
