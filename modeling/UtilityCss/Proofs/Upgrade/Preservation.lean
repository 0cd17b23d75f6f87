import UtilityCss.Proofs.Stylesheet.Legible
import UtilityCss.Proofs.Upgrade.Layering

/-!
# What layering preserves

After layering, the same trees stand below the root in the same order, some of them under a new
node. Contents change only where an import is told its layer.
-/
namespace UtilityCss.Stylesheet

variable {s s' : Stylesheet}

def layeredTrees (s : Stylesheet) : Nat → List Change → Forest NodeId
  | _, [] => .nil
  | n, .keep id :: cs | n, .tag id _ :: cs => .cons id (s.below id) (s.layeredTrees n cs)
  | n, .wrap _ first more :: cs =>
    .cons ⟨n⟩ (s.trees (first :: more)) (s.layeredTrees (n + 1) cs)

theorem height_trees_append (s : Stylesheet) (a b : List NodeId) :
    (s.trees (a ++ b)).height = max (s.trees a).height (s.trees b).height := by
  induction a with
  | nil => simp [trees, Forest.height]
  | cons id a ih =>
    rw [List.cons_append, trees_cons, trees_cons, Forest.height, Forest.height, ih]
    omega

theorem preorder_trees_append (s : Stylesheet) (a b : List NodeId) :
    (s.trees (a ++ b)).preorder = (s.trees a).preorder ++ (s.trees b).preorder := by
  induction a with
  | nil => rfl
  | cons id a ih =>
    rw [List.cons_append, trees_cons, trees_cons, Forest.preorder, Forest.preorder, ih,
      List.cons_append, List.append_assoc]

/-- Every wrapper makes the trees at most one level higher. -/
theorem height_layeredTrees_le (s : Stylesheet) (n : Nat) (cs : List Change) :
    (s.layeredTrees n cs).height ≤
      (s.trees (cs.flatMap Change.ids)).height + (Change.wrapped cs).length := by
  induction cs generalizing n with
  | nil => simp [layeredTrees, Forest.height]
  | cons c cs ih =>
    rw [List.flatMap_cons]
    cases c with
    | keep id =>
      have := ih n
      simp only [Change.ids, List.singleton_append, trees_cons, layeredTrees, Change.wrapped,
        Forest.height]
      omega
    | tag id layer =>
      have := ih n
      simp only [Change.ids, List.singleton_append, trees_cons, layeredTrees, Change.wrapped,
        Forest.height]
      omega
    | wrap layer first more =>
      have := ih (n + 1)
      simp only [Change.ids, height_trees_append, layeredTrees, Change.wrapped, Forest.height,
        List.length_cons]
      omega

theorem IsForest.lt_size_of_mem_trees (h : s.IsForest) {ids : List NodeId}
    (hids : ∀ x ∈ ids, x.index < s.size) {x : NodeId} (hx : x ∈ (s.trees ids).preorder) :
    x.index < s.size := by
  rcases (h.spans_trees ids).mem_preorder hx with hx | ⟨y, -, hxy⟩
  · exact hids x hx
  · exact h.lt_size_of_mem hxy

/-- Without the wrappers, the nodes below the root are what they were. -/
theorem IsForest.filter_layeredTrees (h : s.IsForest) {n : Nat} (hn : s.size ≤ n)
    {cs : List Change} (hids : ∀ x ∈ cs.flatMap Change.ids, x.index < s.size) :
    (s.layeredTrees n cs).preorder.filter (s.hasNode ·) =
      (s.trees (cs.flatMap Change.ids)).preorder := by
  have hold : ∀ {l : List NodeId}, (∀ x ∈ l, x.index < s.size) → l.filter (s.hasNode ·) = l := by
    intro l hl
    exact List.filter_eq_self.mpr fun x hx => hasNode_iff.mpr (hl x hx)
  induction cs generalizing n with
  | nil => rfl
  | cons c cs ih =>
    rw [List.flatMap_cons] at hids ⊢
    have hids' : ∀ x ∈ cs.flatMap Change.ids, x.index < s.size := fun x hx => hids x (by simp [hx])
    have hsingle : ∀ id, c.ids = [id] →
        (Forest.cons id (s.below id) (s.layeredTrees n cs)).preorder.filter (s.hasNode ·) =
          (s.trees (c.ids ++ cs.flatMap Change.ids)).preorder := by
      intro id hid
      have hlt : id.index < s.size := hids id (by simp [hid])
      rw [hid, List.singleton_append, trees_cons, Forest.preorder, Forest.preorder,
        List.filter_cons_of_pos (hasNode_iff.mpr hlt), List.filter_append,
        hold fun x hx => h.lt_size_of_mem_below hx, ih hn hids']
    cases c with
    | keep id => exact hsingle id rfl
    | tag id layer => exact hsingle id rfl
    | wrap layer first more =>
      have hrun : ∀ x ∈ first :: more, x.index < s.size := fun x hx =>
        hids x (List.mem_append_left _ hx)
      have hnew : ¬ s.hasNode ⟨n⟩ = true := fun hlt => Nat.not_lt.mpr hn (hasNode_iff.mp hlt)
      rw [layeredTrees, Forest.preorder, List.filter_cons_of_neg hnew, List.filter_append,
        hold fun x hx => h.lt_size_of_mem_trees hrun hx, ih (Nat.le_succ_of_le hn) hids',
        Change.ids, preorder_trees_append]

/-- Below a node other than the root nothing moves. -/
theorem Layered.spans_below (h : s.IsForest) (hl : s.Layered s') {id : NodeId}
    (hlt : id.index < s.size) (hid : id ≠ root) : s'.Spans (s'.children id) (s.below id) := by
  rw [hl.children_old id hlt hid]
  refine (h.spans_below id).congr fun x hx => ?_
  refine hl.children_old x (h.lt_size_of_mem_below hx) ?_
  rintro rfl
  exact h.root_notMem_below id hx

theorem Layered.spans_trees (h : s.IsForest) (hl : s.Layered s') {ids : List NodeId}
    (hids : ∀ x ∈ ids, x.index < s.size ∧ x ≠ root) : s'.Spans ids (s.trees ids) := by
  induction ids with
  | nil => exact .nil
  | cons id ids ih =>
    obtain ⟨hlt, hroot⟩ := hids id (by simp)
    exact .cons (hl.spans_below h hlt hroot) (ih fun x hx => hids x (by simp [hx]))

theorem Layered.spans_layeredTrees (h : s.IsForest) (hl : s.Layered s') {n : Nat}
    {cs : List Change} (hids : ∀ x ∈ cs.flatMap Change.ids, x.index < s.size ∧ x ≠ root)
    (hwrapper : ∀ k layer first more, (Change.wrapped cs)[k]? = some (layer, first, more) →
      s'.children ⟨n + k⟩ = first :: more) :
    s'.Spans (Change.placed n cs) (s.layeredTrees n cs) := by
  induction cs generalizing n with
  | nil => exact .nil
  | cons c cs ih =>
    rw [List.flatMap_cons] at hids
    have hids' : ∀ x ∈ cs.flatMap Change.ids, x.index < s.size ∧ x ≠ root :=
      fun x hx => hids x (by simp [hx])
    cases c with
    | keep id =>
      obtain ⟨hlt, hroot⟩ := hids id (by simp [Change.ids])
      exact .cons (hl.spans_below h hlt hroot) (ih hids' hwrapper)
    | tag id layer =>
      obtain ⟨hlt, hroot⟩ := hids id (by simp [Change.ids])
      exact .cons (hl.spans_below h hlt hroot) (ih hids' hwrapper)
    | wrap layer first more =>
      have hown := hwrapper 0 layer first more rfl
      refine .cons ?_ (ih hids' fun k layer' first' more' hk => ?_)
      · rw [Nat.add_zero] at hown
        rw [hown]
        exact hl.spans_trees h fun x hx => hids x (List.mem_append_left _ hx)
      · have hk' : n + 1 + k = n + (k + 1) := by omega
        rw [hk']
        exact hwrapper (k + 1) layer' first' more' hk

theorem IsForest.mem_ids_changes (h : s.IsForest) :
    ∀ x ∈ s.changes.flatMap Change.ids, x.index < s.size ∧ x ≠ root := by
  intro x hx
  rw [flatMap_ids_changes] at hx
  refine ⟨h.lt_size_of_mem hx, ?_⟩
  rintro rfl
  exact h.root_notMem_children root hx

theorem IsForest.below_root_layered (h : s.IsForest) :
    s.layered.below root = s.layeredTrees s.size s.changes := by
  have hl := h.layered
  refine Spans.below_eq ?_ ?_
  · rw [hl.children_root]
    exact hl.spans_layeredTrees h h.mem_ids_changes fun k layer first more hk =>
      (hl.wrapper k layer first more hk).1
  · have hheight := height_layeredTrees_le s s.size s.changes
    have hbelow := height_unfold_le s s.size (s.children root)
    rw [flatMap_ids_changes, ← h.below_eq_trees] at hheight
    change (s.below root).height ≤ s.size at hbelow
    rw [hl.size]
    omega

/-- The content that layering gives to the child of the root that stands after `before`: an import
without a layer is told the one that is current there. -/
def layeredContent (s : Stylesheet) (before : List NodeId) (id : NodeId) : Content :=
  if s.role id = .importing ∧ Change.isUntagged (s.kind id) = true then
    (s.content id).tagged (s.layerAfter before)
  else s.content id

theorem IsForest.content_layered (h : s.IsForest) {pre post : List NodeId} {id : NodeId}
    (hroot : s.children root = pre ++ id :: post) :
    s.layered.content id = s.layeredContent pre id := by
  have hlt : id.index < s.size := h.lt_size_of_mem (p := root) (by simp [hroot])
  have hnodup := h.nodup_children root
  rw [hroot] at hnodup
  have htag : Change.tag? id (s.changesFrom (s.layerAfter []) [] (pre ++ id :: post)) =
      if s.awaitsTag id then some (s.layerAfter ([] ++ pre)) else none := tag?_changesFrom hnodup []
  rw [h.layered.content_old id hlt, tagContent, changes, hroot]
  change Change.tag? id (s.changesFrom none [] (pre ++ id :: post)) = _ at htag
  rw [htag, List.nil_append, layeredContent]
  by_cases hboth : s.role id = .importing ∧ Change.isUntagged (s.kind id) = true
  · have hawaits : s.awaitsTag id = true := by
      simp only [awaitsTag, hboth, decide_true, Bool.and_self]
    rw [if_pos hawaits, if_pos hboth]
  · have hawaits : ¬ s.awaitsTag id = true := by
      simpa only [awaitsTag, Bool.and_eq_true, decide_eq_true_eq] using hboth
    rw [if_neg hawaits, if_neg hboth]

theorem IsForest.content_layered_of_notMem (h : s.IsForest) {id : NodeId}
    (hlt : id.index < s.size) (hid : id ∉ s.children root) :
    s.layered.content id = s.content id := by
  rw [h.layered.content_old id hlt, tagContent, changes, tag?_changesFrom_of_notMem hid]

/-- Layering keeps the nodes in their order and every node's content and children, except that the
root gets wrappers among its children and that imports are tagged. -/
theorem layered_preserves (h : s.IsForest) :
    (s.layered.descendants root).filter (s.hasNode ·) = s.descendants root ∧
      (∀ id, s.hasNode id = true → id ≠ root → s.layered.children id = s.children id) ∧
      (∀ id, s.hasNode id = true → id ∉ s.children root →
        s.layered.content id = s.content id) ∧
      ∀ pre id post, s.children root = pre ++ id :: post →
        s.layered.content id = s.layeredContent pre id := by
  refine ⟨?_, ?_, ?_, ?_⟩
  · rw [descendants, h.below_root_layered,
      h.filter_layeredTrees (Nat.le_refl _) fun x hx => (h.mem_ids_changes x hx).1,
      flatMap_ids_changes, ← h.below_eq_trees]
    rfl
  · intro id hid hroot
    exact h.layered.children_old id (hasNode_iff.mp hid) hroot
  · intro id hid hmem
    exact h.content_layered_of_notMem (hasNode_iff.mp hid) hmem
  · intro pre id post hroot
    exact h.content_layered hroot

theorem layered_preserves_tagged_import :
    ∃ s, parse "@tailwind base;a\x7b\x7d@import x;".toList = .ok s ∧ s.IsForest ∧
      (s.layered.descendants root).filter (s.hasNode ·) = s.descendants root ∧
      s.layered.kind ⟨3⟩ = .atRule ⟨"import".toList, "x layer(base)".toList, false⟩ := by
  have hread : (parse "@tailwind base;a\x7b\x7d@import x;".toList).map (fun s =>
      (s.children root, (s.layeredContent [⟨1⟩, ⟨2⟩] ⟨3⟩).kind)) =
        .ok ([⟨1⟩, ⟨2⟩, ⟨3⟩], .atRule ⟨"import".toList, "x layer(base)".toList, false⟩) := by
    decide +kernel
  cases hs : parse "@tailwind base;a\x7b\x7d@import x;".toList with
  | error e =>
    rw [hs] at hread
    cases hread
  | ok s =>
    rw [hs] at hread
    obtain ⟨hroot, hkind⟩ := Prod.mk.inj (Except.ok.inj hread)
    have hforest : s.IsForest := isForest_of_parse hs
    obtain ⟨horder, -, -, hcontent⟩ := layered_preserves hforest
    refine ⟨s, rfl, hforest, horder, ?_⟩
    rw [kind, hcontent [⟨1⟩, ⟨2⟩] ⟨3⟩ [] hroot, hkind]

end UtilityCss.Stylesheet
