import UtilityCss.Proofs.Upgrade.Preservation

/-!
# What layering prints

After layering, the contents below the root are those before, regrouped and tagged as the changes
say.
-/
namespace UtilityCss

namespace Change

def tagOf? : Change → Option (Option Layer)
  | tag _ layer => some layer
  | _ => none

theorem tag?_of_mem {cs : List Change} (hnodup : (cs.flatMap ids).Nodup) {c : Change} (hc : c ∈ cs)
    {x : NodeId} (hx : x ∈ c.ids) : tag? x cs = c.tagOf? := by
  induction cs with
  | nil => cases hc
  | cons d cs ih =>
    rw [List.flatMap_cons] at hnodup
    obtain ⟨-, hrest, hdisjoint⟩ := List.nodup_append.mp hnodup
    rcases List.mem_cons.mp hc with rfl | hmem
    · have hnone : tag? x cs = none := by
        cases htag : tag? x cs with
        | none => rfl
        | some layer => exact absurd rfl (hdisjoint x hx x (mem_ids_of_tag? htag))
      cases c with
      | keep id => exact hnone
      | wrap => exact hnone
      | tag id layer =>
        rw [List.mem_singleton.mp hx]
        exact if_pos rfl
    · have hxcs : x ∈ cs.flatMap ids := List.mem_flatMap.mpr ⟨c, hmem, hx⟩
      rw [← ih hrest hmem]
      cases d with
      | keep id => rfl
      | wrap => rfl
      | tag id layer =>
        have hne : id ≠ x := hdisjoint id (by simp [ids]) x hxcs
        exact if_neg hne

end Change

namespace Stylesheet

variable {s s' : Stylesheet}

def layeredForest (s : Stylesheet) : List Change → Forest Content
  | [] => .nil
  | .keep id :: cs => .cons (s.content id) (s.contents id) (s.layeredForest cs)
  | .tag id layer :: cs =>
    .cons ((s.content id).tagged layer) (s.contents id) (s.layeredForest cs)
  | .wrap layer first more :: cs =>
    .cons (wrapperContent layer (s.raws first).before) ((s.trees (first :: more)).map s.content)
      (s.layeredForest cs)

theorem IsForest.nodup_ids_changes (h : s.IsForest) : (s.changes.flatMap Change.ids).Nodup := by
  rw [flatMap_ids_changes]
  exact h.nodup_children root

theorem Layered.content_of_mem (h : s.IsForest) (hl : s.Layered s') {c : Change}
    (hc : c ∈ s.changes) {x : NodeId} (hx : x ∈ c.ids) :
    s'.content x = c.tagOf?.elim (s.content x) (s.content x).tagged := by
  have hlt := (h.mem_ids_changes x (List.mem_flatMap.mpr ⟨c, hc, hx⟩)).1
  rw [hl.content_old x hlt, tagContent, Change.tag?_of_mem h.nodup_ids_changes hc hx]
  cases c.tagOf? with
  | none => rfl
  | some layer => rfl

theorem Layered.map_below (h : s.IsForest) (hl : s.Layered s') {id : NodeId} (hid : id ≠ root) :
    (s.below id).map s'.content = s.contents id := by
  apply Forest.map_congr
  intro x hx
  have hnotMem := h.notMem_children_root_of_mem_below hid hx
  rw [hl.content_old x (h.lt_size_of_mem_below hx), tagContent, changes,
    tag?_changesFrom_of_notMem hnotMem]

theorem Layered.map_trees (h : s.IsForest) (hl : s.Layered s') {layer : Layer} {first : NodeId}
    {more ids : List NodeId} (hc : .wrap layer first more ∈ s.changes)
    (hids : ∀ x ∈ ids, x ∈ first :: more) :
    (s.trees ids).map s'.content = (s.trees ids).map s.content := by
  induction ids with
  | nil => rfl
  | cons id ids ih =>
    have hid : id ∈ Change.ids (.wrap layer first more) := hids id (by simp)
    have hroot := (h.mem_ids_changes id (List.mem_flatMap.mpr ⟨_, hc, hid⟩)).2
    rw [trees_cons, Forest.map, Forest.map, hl.content_of_mem h hc hid, hl.map_below h hroot,
      ih fun x hx => hids x (by simp [hx])]
    rfl

theorem Layered.map_layeredTrees (h : s.IsForest) (hl : s.Layered s') {n : Nat} {cs : List Change}
    (hcs : ∀ c ∈ cs, c ∈ s.changes)
    (hwrapper : ∀ k layer first more, (Change.wrapped cs)[k]? = some (layer, first, more) →
      s'.content ⟨n + k⟩ = wrapperContent layer (s.raws first).before) :
    (s.layeredTrees n cs).map s'.content = s.layeredForest cs := by
  induction cs generalizing n with
  | nil => rfl
  | cons c cs ih =>
    have hc := hcs c (by simp)
    have hcs' : ∀ d ∈ cs, d ∈ s.changes := fun d hd => hcs d (by simp [hd])
    cases c with
    | keep id =>
      have hid : id ∈ Change.ids (.keep id) := by simp [Change.ids]
      have hroot := (h.mem_ids_changes id (List.mem_flatMap.mpr ⟨_, hc, hid⟩)).2
      rw [layeredTrees, Forest.map, hl.content_of_mem h hc hid, hl.map_below h hroot,
        ih hcs' hwrapper]
      rfl
    | tag id layer =>
      have hid : id ∈ Change.ids (.tag id layer) := by simp [Change.ids]
      have hroot := (h.mem_ids_changes id (List.mem_flatMap.mpr ⟨_, hc, hid⟩)).2
      rw [layeredTrees, Forest.map, hl.content_of_mem h hc hid, hl.map_below h hroot,
        ih hcs' hwrapper]
      rfl
    | wrap layer first more =>
      have hown : s'.content ⟨n⟩ = wrapperContent layer (s.raws first).before :=
        hwrapper 0 layer first more rfl
      have hrest := ih (n := n + 1) hcs' fun k layer' first' more' hk => by
        have hk' : n + 1 + k = n + (k + 1) := by omega
        rw [hk']
        exact hwrapper (k + 1) layer' first' more' hk
      rw [layeredTrees, Forest.map, hown, hl.map_trees h hc fun x hx => hx, hrest]
      rfl

theorem IsForest.contents_layered (h : s.IsForest) :
    s.layered.contents root = s.layeredForest s.changes := by
  rw [contents, h.below_root_layered]
  exact h.layered.map_layeredTrees h (fun c hc => hc) fun k layer first more hk =>
    (h.layered.wrapper k layer first more hk).2

/-- Layering prints the changed contents, between the same blanks as before. -/
theorem IsForest.toCss_layered (h : s.IsForest) (hroot : root.index < s.size) :
    s.layered.toCss =
      render (.inline (s.raws root).semicolon) (s.layeredForest s.changes) ++
        (s.raws root).after := by
  have hraws : s.layered.raws root = s.raws root := by
    rw [raws, h.content_layered_of_notMem hroot (h.root_notMem_children root)]
    rfl
  rw [toCss, h.contents_layered, hraws]

end Stylesheet
end UtilityCss
