import UtilityCss.Proofs.Stylesheet.Tree
import UtilityCss.Stylesheet.Traversal

/-!
# Descendants

In a forest the traversal with a stack ends. It lists each node below the given one once, before the
nodes below it, and no other node, so it makes as many rounds as there are nodes to list.
-/
namespace UtilityCss.Stylesheet

def IsChild (s : Stylesheet) (x p : NodeId) : Prop := s.parent x = some p

/-- Whether the chain of parents of `x` passes through `a`. -/
def IsBelow (s : Stylesheet) (x a : NodeId) : Prop := Relation.TransGen s.IsChild x a

section Chains

variable {s : Stylesheet} {x a b : NodeId}

theorem rightUnique_isChild (s : Stylesheet) : Relator.RightUnique s.IsChild := by
  intro x p q hp hq
  exact Option.some.inj (hp.symm.trans hq)

theorem Ancestry.mem_iff {l : List NodeId} (h : s.Ancestry x l) : a ∈ l ↔ s.IsBelow x a := by
  rw [IsBelow, Relation.TransGen.head'_iff]
  induction h with
  | top hp =>
    refine ⟨fun hmem => (by cases hmem), ?_⟩
    rintro ⟨p, hchild, -⟩
    rw [IsChild, hp] at hchild
    cases hchild
  | @step id p l hp _ ih =>
    have hstep : (∃ q, s.IsChild id q ∧ Relation.ReflTransGen s.IsChild q a) ↔
        Relation.ReflTransGen s.IsChild p a := by
      constructor
      · rintro ⟨q, hchild, hq⟩
        rwa [rightUnique_isChild s hp hchild]
      · exact fun h => ⟨p, hp, h⟩
    rw [hstep, Relation.ReflTransGen.cases_head_iff, List.mem_cons, ih, eq_comm]

namespace IsForest

theorem not_isBelow_self (h : s.IsForest) (x : NodeId) : ¬ s.IsBelow x x := by
  obtain ⟨l, hl⟩ := h.ancestry x
  rw [← hl.mem_iff]
  exact hl.notMem

theorem isBelow_iff (h : s.IsForest) :
    s.IsBelow x a ↔ ∃ c ∈ s.children a, Relation.ReflTransGen s.IsChild x c := by
  rw [IsBelow, Relation.TransGen.tail'_iff]
  simp only [h.mem_children_iff, and_comm, IsChild]

/-- A node has no sibling above or below itself. -/
theorem eq_of_siblings (h : s.IsForest) {p : NodeId} (ha : s.IsChild a p) (hb : s.IsChild b p)
    (hab : Relation.ReflTransGen s.IsChild a b) : a = b := by
  rcases Relation.ReflTransGen.cases_head hab with heq | ⟨q, hq, hqb⟩
  · exact heq
  · rw [rightUnique_isChild s hq ha] at hqb
    exact absurd (Relation.TransGen.tail' hqb hb) (h.not_isBelow_self p)

end IsForest
end Chains

namespace Spans

variable {s : Stylesheet} {ids : List NodeId} {t : Forest NodeId}

/-- In the forest below some nodes stand these nodes and all that is below them. -/
theorem mem_preorder_iff (h : s.IsForest) (hspans : s.Spans ids t) (x : NodeId) :
    x ∈ t.preorder ↔ ∃ a ∈ ids, Relation.ReflTransGen s.IsChild x a := by
  induction hspans with
  | nil => simp [Forest.preorder]
  | @cons id ids below rest _ _ ihbelow ihrest =>
    rw [Forest.preorder, List.mem_cons, List.mem_append, ihbelow, ihrest, ← h.isBelow_iff,
      List.exists_mem_cons_iff, Relation.reflTransGen_iff_eq_or_transGen, or_assoc, eq_comm]
    rfl

theorem nodup_preorder (h : s.IsForest) (hspans : s.Spans ids t) (hids : ids.Nodup)
    (hapart : ∀ a ∈ ids, ∀ b ∈ ids, Relation.ReflTransGen s.IsChild a b → a = b) :
    t.preorder.Nodup := by
  induction hspans with
  | nil => exact List.nodup_nil
  | @cons id ids below rest hbelow hrest ihbelow ihrest =>
    obtain ⟨hid, hids⟩ := List.nodup_cons.mp hids
    have hchild : ∀ {a}, a ∈ s.children id → s.IsChild a id := (h.mem_children_iff id _).mp
    have hnodupbelow : below.preorder.Nodup := ihbelow (h.nodup_children id) fun a ha b hb =>
      h.eq_of_siblings (hchild ha) (hchild hb)
    have hnoduprest : rest.preorder.Nodup := ihrest hids fun a ha b hb =>
      hapart a (by simp [ha]) b (by simp [hb])
    have hidbelow : id ∉ below.preorder := by
      rw [hbelow.mem_preorder_iff h]
      rintro ⟨a, ha, hida⟩
      exact h.not_isBelow_self id (Relation.TransGen.tail' hida (hchild ha))
    have hidrest : id ∉ rest.preorder := by
      rw [hrest.mem_preorder_iff h]
      rintro ⟨b, hb, hidb⟩
      exact hid (hapart id (by simp) b (by simp [hb]) hidb ▸ hb)
    have hdisjoint : ∀ x ∈ below.preorder, ∀ y ∈ rest.preorder, x ≠ y := by
      rintro x hx _ hy rfl
      obtain ⟨a, ha, hxa⟩ := (hbelow.mem_preorder_iff h x).mp hx
      obtain ⟨b, hb, hxb⟩ := (hrest.mem_preorder_iff h x).mp hy
      have hxid : Relation.ReflTransGen s.IsChild x id := hxa.tail (hchild ha)
      rcases Relation.ReflTransGen.total_of_right_unique (rightUnique_isChild s) hxid hxb with
        hidb | hbid
      · exact hid (hapart id (by simp) b (by simp [hb]) hidb ▸ hb)
      · exact hid (hapart b (by simp [hb]) id (by simp) hbid ▸ hb)
    rw [Forest.preorder, List.nodup_cons, List.mem_append, List.nodup_append]
    exact ⟨by simp [hidbelow, hidrest], hnodupbelow, hnoduprest, hdisjoint⟩

/-- The trees below the first nodes of the stack are listed before the rest of it, one node in each
round. -/
theorem visit?_eq (h : s.Spans ids t) (rounds : Nat) (stack listed : List NodeId) :
    s.visit? (t.preorder.length + rounds) (ids ++ stack) listed =
      s.visit? rounds stack (listed ++ t.preorder) := by
  induction h generalizing rounds stack listed with
  | nil => simp [Forest.preorder]
  | @cons id ids below rest _ _ ihbelow ihrest =>
    have hrounds : (Forest.cons id below rest).preorder.length + rounds =
        below.preorder.length + (rest.preorder.length + rounds) + 1 := by
      simp only [Forest.preorder, List.length_cons, List.length_append]
      omega
    rw [hrounds, List.cons_append, visit?, ihbelow, ihrest, Forest.preorder]
    simp

end Spans

theorem preorder_trees (s : Stylesheet) (ids : List NodeId) :
    (s.trees ids).preorder = ids.flatMap fun id => id :: s.descendants id := by
  induction ids with
  | nil => rfl
  | cons id ids ih =>
    rw [trees_cons, Forest.preorder, ih]
    rfl

namespace IsForest

variable {s : Stylesheet}

/-- The traversal ends after as many rounds as there are nodes to list. -/
theorem walk?_eq (h : s.IsForest) {id : NodeId} {rounds : Nat}
    (hrounds : (s.descendants id).length ≤ rounds) :
    s.walk? rounds id = some (s.descendants id) := by
  obtain ⟨more, rfl⟩ := Nat.exists_eq_add_of_le hrounds
  have hvisit := (h.spans_below id).visit?_eq more [] []
  rw [List.append_nil, List.nil_append] at hvisit
  rw [walk?, descendants, hvisit, visit?]

/-- The descendants of a node are its children, each followed by its own descendants. -/
theorem descendants_eq (h : s.IsForest) (id : NodeId) :
    s.descendants id = (s.children id).flatMap fun c => c :: s.descendants c := by
  rw [← preorder_trees, ← h.below_eq_trees, descendants]

theorem mem_descendants_iff (h : s.IsForest) (id x : NodeId) :
    x ∈ s.descendants id ↔ s.IsBelow x id := by
  rw [descendants, (h.spans_below id).mem_preorder_iff h, h.isBelow_iff]

theorem nodup_descendants (h : s.IsForest) (id : NodeId) : (s.descendants id).Nodup :=
  (h.spans_below id).nodup_preorder h (h.nodup_children id) fun _ ha _ hb =>
    h.eq_of_siblings ((h.mem_children_iff id _).mp ha) ((h.mem_children_iff id _).mp hb)

end IsForest
end UtilityCss.Stylesheet
