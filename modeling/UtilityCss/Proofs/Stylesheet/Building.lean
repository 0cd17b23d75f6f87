import UtilityCss.Proofs.Stylesheet.Tree
import UtilityCss.Stylesheet.Parsing

/-!
# Stylesheets built from a forest

The nodes of a forest are numbered in preorder, and what was in the stylesheet before stays as it
was. So the links of a parsed stylesheet make a forest, and below its root stands what was read.
-/
namespace UtilityCss

namespace Forest

variable {α β : Type}

def number : Nat → Forest α → Forest NodeId
  | _, nil => nil
  | n, cons _ children rest =>
    cons ⟨n⟩ (children.number (n + 1)) (rest.number (n + 1 + children.size))

theorem height_number (t : Forest α) (n : Nat) : (t.number n).height = t.height := by
  induction t generalizing n with
  | nil => rfl
  | cons _ children rest ihc ihr => simp only [number, height, ihc, ihr]

theorem height_le_size (t : Forest α) : t.height ≤ t.size := by
  induction t with
  | nil => exact Nat.le_refl _
  | cons _ children rest ihc ihr =>
    simp only [height, size]
    omega

theorem index_of_mem_number {t : Forest α} {n : Nat} {id : NodeId}
    (h : id ∈ (t.number n).preorder) : n ≤ id.index ∧ id.index < n + t.size := by
  induction t generalizing n with
  | nil => cases h
  | cons _ children rest ihc ihr =>
    simp only [number, preorder, List.mem_cons, List.mem_append] at h
    simp only [size]
    rcases h with rfl | h | h
    · exact ⟨Nat.le_refl _, by simp only; omega⟩
    · have := ihc h
      omega
    · have := ihr h
      omega

theorem roots_map (f : α → β) (t : Forest α) : (t.map f).roots = t.roots.map f := by
  induction t with
  | nil => rfl
  | cons a children rest _ ihr => rw [map, roots, roots, List.map_cons, ihr]

theorem map_congr {t : Forest α} {f g : α → β} (h : ∀ a ∈ t.preorder, f a = g a) :
    t.map f = t.map g := by
  induction t with
  | nil => rfl
  | cons a children rest ihc ihr =>
    simp only [preorder, List.mem_cons, List.mem_append] at h
    rw [map, map, h a (.inl rfl), ihc fun b hb => h b (.inr (.inl hb)),
      ihr fun b hb => h b (.inr (.inr hb))]

end Forest

namespace Stylesheet

def grow (s : Stylesheet) (p : NodeId) (c : Content) : Stylesheet := (s.create c).append p s.nextId

section Grow

variable {s : Stylesheet} {p : NodeId} {c : Content}

theorem size_grow : (s.grow p c).size = s.size + 1 := by
  rw [grow, size_append, size_create]

theorem index_nextId : s.nextId.index = s.size := rfl

theorem nextId_lt_size_create : s.nextId.index < (s.create c).size := by
  rw [size_create]
  exact Nat.lt_succ_self _

theorem parent_grow (j : NodeId) :
    (s.grow p c).parent j = if j = s.nextId then some p else s.parent j := by
  rw [grow, parent_append nextId_lt_size_create, parent_create]

theorem children_grow (hp : p.index < s.size) (j : NodeId) :
    (s.grow p c).children j = if j = p then s.children p ++ [s.nextId] else s.children j := by
  have hp' : p.index < (s.create c).size := by
    rw [size_create]
    omega
  rw [grow, children_append hp']
  simp only [children_detach, parent_create, parent_nextId, children_create]
  simp

theorem content_grow (j : NodeId) :
    (s.grow p c).content j = if j = s.nextId then c else s.content j := by
  rw [grow, content_append, content_create]

theorem ne_nextId_of_lt {j : NodeId} (h : j.index < s.size) : j ≠ s.nextId := by
  rintro rfl
  exact Nat.lt_irrefl _ h

theorem IsForest.ancestry_grow (h : s.IsForest) {id : NodeId} {l : List NodeId}
    (hl : s.Ancestry id l) (hid : id ≠ s.nextId) : (s.grow p c).Ancestry id l := by
  induction hl with
  | top hp => exact .top (by rw [parent_grow, if_neg hid, hp])
  | step hp _ ih =>
    refine .step ?_ (ih (ne_nextId_of_lt (h.parent_lt_size hp)))
    rw [parent_grow, if_neg hid, hp]

theorem IsForest.grow (h : s.IsForest) (hp : p.index < s.size) : (s.grow p c).IsForest where
  mem_children_iff := by
    intro q x
    have hfresh : ∀ q, s.nextId ∉ s.children q := fun q hq =>
      Nat.lt_irrefl _ (h.lt_size_of_mem hq)
    rw [children_grow hp, parent_grow]
    by_cases hx : x = s.nextId
    · subst hx
      by_cases hq : q = p
      · simp [hq]
      · simp [hq, hfresh, Ne.symm hq]
    · by_cases hq : q = p
      · subst hq
        simp [hx, h.mem_children_iff]
      · simp [hq, hx, h.mem_children_iff]
  nodup_children := by
    intro q
    rw [children_grow hp]
    split
    · rw [List.nodup_append]
      refine ⟨h.nodup_children p, by simp, ?_⟩
      intro a ha b hb
      rw [List.mem_singleton.mp hb]
      exact ne_nextId_of_lt (h.lt_size_of_mem ha)
    · exact h.nodup_children q
  parent_root := by
    have hroot : root ≠ s.nextId := ne_nextId_of_lt (Nat.lt_of_le_of_lt (Nat.zero_le _) hp)
    rw [parent_grow, if_neg hroot, h.parent_root]
  ancestry := by
    intro id
    by_cases hid : id = s.nextId
    · obtain ⟨l, hl⟩ := h.ancestry p
      refine ⟨p :: l, .step (by rw [parent_grow, if_pos hid]) ?_⟩
      exact h.ancestry_grow hl (ne_nextId_of_lt hp)
    · obtain ⟨l, hl⟩ := h.ancestry id
      exact ⟨l, h.ancestry_grow hl hid⟩

end Grow

theorem addForest_cons (s : Stylesheet) (p : NodeId) (c : Content)
    (children rest : Forest Content) :
    s.addForest p (.cons c children rest) =
      ((s.grow p c).addForest s.nextId children).addForest p rest := rfl

theorem size_addForest (s : Stylesheet) (p : NodeId) (t : Forest Content) :
    (s.addForest p t).size = s.size + t.size := by
  induction t generalizing s p with
  | nil => rfl
  | cons c children rest ihc ihr =>
    rw [addForest_cons, ihr, ihc, size_grow]
    simp only [Forest.size]
    omega

theorem IsForest.addForest {s : Stylesheet} (h : s.IsForest) {p : NodeId} (hp : p.index < s.size)
    (t : Forest Content) : (s.addForest p t).IsForest := by
  induction t generalizing s p with
  | nil => exact h
  | cons c children rest ihc ihr =>
    rw [addForest_cons]
    have hnext : s.nextId.index < (s.grow p c).size := by
      rw [size_grow]
      exact Nat.lt_succ_self _
    refine ihr (ihc (h.grow hp) hnext) ?_
    rw [size_addForest, size_grow]
    omega

theorem content_addForest {s : Stylesheet} {p j : NodeId} (t : Forest Content)
    (hj : j.index < s.size) : (s.addForest p t).content j = s.content j := by
  induction t generalizing s p with
  | nil => rfl
  | cons c children rest ihc ihr =>
    have hgrow : j.index < (s.grow p c).size := by
      rw [size_grow]
      omega
    rw [addForest_cons, ihr (by rw [size_addForest]; omega), ihc hgrow, content_grow,
      if_neg (ne_nextId_of_lt hj)]

theorem children_addForest {s : Stylesheet} {p j : NodeId} (t : Forest Content)
    (hp : p.index < s.size) (hj : j.index < s.size) :
    (s.addForest p t).children j =
      if j = p then s.children p ++ (t.number s.size).roots else s.children j := by
  induction t generalizing s p j with
  | nil =>
    by_cases hjp : j = p
    · simp [addForest, Forest.number, Forest.roots, hjp]
    · simp [addForest, hjp]
  | cons c children rest ihc ihr =>
    have hgrow : ∀ {i : NodeId}, i.index < s.size → i.index < (s.grow p c).size := by
      intro i hi
      rw [size_grow]
      omega
    have hfill : ∀ {i : NodeId}, i.index < s.size →
        i.index < ((s.grow p c).addForest s.nextId children).size := by
      intro i hi
      rw [size_addForest, size_grow]
      omega
    have hnext : s.nextId.index < (s.grow p c).size := by
      rw [size_grow]
      exact Nat.lt_succ_self _
    have hfilled : ∀ {i : NodeId}, i.index < s.size →
        ((s.grow p c).addForest s.nextId children).children i = (s.grow p c).children i := by
      intro i hi
      rw [ihc hnext (hgrow hi), if_neg (ne_nextId_of_lt hi)]
    rw [addForest_cons, ihr (hfill hp) (hfill hj), hfilled hp, hfilled hj, children_grow hp,
      children_grow hp, size_addForest, size_grow]
    by_cases hjp : j = p
    · simp [hjp, Forest.number, Forest.roots, nextId]
    · simp [hjp]

theorem spans_addForest {s : Stylesheet} {p : NodeId} (t : Forest Content)
    (hp : p.index < s.size) :
    (s.addForest p t).Spans (t.number s.size).roots (t.number s.size) := by
  induction t generalizing s p with
  | nil => exact .nil
  | cons c children rest ihc ihr =>
    have hnext : s.nextId.index < (s.grow p c).size := by
      rw [size_grow]
      exact Nat.lt_succ_self _
    have hfillp : p.index < ((s.grow p c).addForest s.nextId children).size := by
      rw [size_addForest, size_grow]
      omega
    have hkeep : ∀ j : NodeId, s.size ≤ j.index → j.index < s.size + 1 + children.size →
        (s.addForest p (.cons c children rest)).children j =
          ((s.grow p c).addForest s.nextId children).children j := by
      intro j hj hlt
      have hjp : j ≠ p := by
        rintro rfl
        omega
      rw [addForest_cons, children_addForest rest hfillp, if_neg hjp]
      rw [size_addForest, size_grow]
      omega
    have hown : (s.addForest p (.cons c children rest)).children s.nextId =
        (children.number (s.size + 1)).roots := by
      rw [hkeep s.nextId (Nat.le_refl _) (by rw [index_nextId]; omega),
        children_addForest _ hnext hnext, if_pos rfl, children_grow hp,
        if_neg (Ne.symm (ne_nextId_of_lt hp)), size_grow, children_nextId, List.nil_append]
    simp only [Forest.number, Forest.roots]
    refine .cons ?_ ?_
    · change Spans _ (Stylesheet.children _ s.nextId) _
      rw [hown]
      have hc := ihc hnext
      rw [size_grow] at hc
      refine hc.congr fun x hx => hkeep x ?_ ?_
      · have := Forest.index_of_mem_number hx
        omega
      · have := Forest.index_of_mem_number hx
        omega
    · have hr := ihr hfillp
      rw [size_addForest, size_grow] at hr
      exact hr

theorem map_content_addForest {s : Stylesheet} {p : NodeId} (t : Forest Content)
    (hp : p.index < s.size) :
    (t.number s.size).map (s.addForest p t).content = t := by
  induction t generalizing s p with
  | nil => rfl
  | cons c children rest ihc ihr =>
    have hnext : s.nextId.index < (s.grow p c).size := by
      rw [size_grow]
      exact Nat.lt_succ_self _
    have hfillp : p.index < ((s.grow p c).addForest s.nextId children).size := by
      rw [size_addForest, size_grow]
      omega
    have hkeep : ∀ j : NodeId, j.index < s.size + 1 + children.size →
        (s.addForest p (.cons c children rest)).content j =
          ((s.grow p c).addForest s.nextId children).content j := by
      intro j hlt
      rw [addForest_cons, content_addForest]
      rw [size_addForest, size_grow]
      omega
    have hown : (s.addForest p (.cons c children rest)).content s.nextId = c := by
      rw [hkeep s.nextId (by rw [index_nextId]; omega), content_addForest _ hnext, content_grow,
        if_pos rfl]
    have hc := ihc (p := s.nextId) hnext
    have hr := ihr (p := p) hfillp
    rw [size_grow] at hc
    rw [size_addForest, size_grow] at hr
    simp only [Forest.number, Forest.map]
    have hfirst : (children.number (s.size + 1)).map
        (s.addForest p (.cons c children rest)).content = children := by
      refine Eq.trans (Forest.map_congr fun x hx => ?_) hc
      have := Forest.index_of_mem_number hx
      exact hkeep x (by omega)
    rw [hfirst]
    exact congrArg₂ (Forest.cons · children ·) hown hr

theorem IsForest.congr {s s' : Stylesheet} (h : s.IsForest)
    (hparent : ∀ j, s'.parent j = s.parent j) (hchildren : ∀ j, s'.children j = s.children j) :
    s'.IsForest where
  mem_children_iff p c := by rw [hchildren, hparent, h.mem_children_iff]
  nodup_children p := by
    rw [hchildren]
    exact h.nodup_children p
  parent_root := by rw [hparent, h.parent_root]
  ancestry id := by
    obtain ⟨l, hl⟩ := h.ancestry id
    refine ⟨l, ?_⟩
    induction hl with
    | top hp => exact .top (by rw [hparent, hp])
    | step hp _ ih => exact .step (by rw [hparent, hp]) ih

theorem node_empty (j : NodeId) : empty.node j = detachedNode ⟨.root, {}⟩ := by
  rcases j with ⟨_ | i⟩
  · rfl
  · exact node_of_size_le (by simp [empty, size])

theorem isForest_empty : empty.IsForest where
  mem_children_iff p c := by simp [children, parent, node_empty, detachedNode]
  nodup_children p := by simp [children, node_empty, detachedNode]
  parent_root := rfl
  ancestry id := ⟨[], .top (by simp [parent, node_empty, detachedNode])⟩

def opened (b : Block) : Stylesheet :=
  empty.modifyRaws root fun raws => { raws with after := b.after, semicolon := b.semicolon }

theorem ofBlock_eq (b : Block) : ofBlock b = (opened b).addForest root b.forest := rfl

theorem size_opened (b : Block) : (opened b).size = 1 := size_modifyContent ..

theorem root_lt_size_opened (b : Block) : root.index < (opened b).size := by
  rw [size_opened]
  exact Nat.zero_lt_one

theorem isForest_ofBlock (b : Block) : (ofBlock b).IsForest := by
  have h : (opened b).IsForest := isForest_empty.congr
    (fun j => parent_modifyContent ..) (fun j => children_modifyContent ..)
  exact h.addForest (root_lt_size_opened b) _

theorem size_ofBlock (b : Block) : (ofBlock b).size = b.forest.size + 1 := by
  rw [ofBlock_eq, size_addForest, size_opened, Nat.add_comm]

theorem content_root_ofBlock (b : Block) :
    (ofBlock b).content root = ⟨.root, { after := b.after, semicolon := b.semicolon }⟩ := by
  rw [ofBlock_eq, content_addForest _ (root_lt_size_opened b)]
  rfl

theorem children_root_ofBlock (b : Block) :
    (ofBlock b).children root = (b.forest.number 1).roots := by
  rw [ofBlock_eq, children_addForest _ (root_lt_size_opened b) (root_lt_size_opened b), if_pos rfl,
    size_opened]
  rfl

/-- Below the root the nodes are numbered in the order in which they begin. -/
theorem below_root_ofBlock (b : Block) : (ofBlock b).below root = b.forest.number 1 := by
  refine Spans.below_eq ?_ ?_
  · have h := spans_addForest b.forest (root_lt_size_opened b)
    rw [size_opened] at h
    rw [children_root_ofBlock]
    exact h
  · rw [Forest.height_number, size_ofBlock]
    exact Nat.le_succ_of_le b.forest.height_le_size

theorem contents_root_ofBlock (b : Block) : (ofBlock b).contents root = b.forest := by
  have h := map_content_addForest b.forest (root_lt_size_opened b)
  rw [size_opened] at h
  rw [contents, below_root_ofBlock]
  exact h

theorem IsForest.map_content_children {s : Stylesheet} (h : s.IsForest) (id : NodeId) :
    (s.children id).map s.content = (s.contents id).roots := by
  rw [contents, Forest.roots_map, (h.spans_below id).roots_eq]

theorem IsForest.contents_eq_singleton_iff {s : Stylesheet} (h : s.IsForest) {id : NodeId}
    {c : Content} {t : Forest Content} :
    s.contents id = .cons c t .nil ↔
      ∃ child, s.children id = [child] ∧ s.content child = c ∧ s.contents child = t := by
  have hsingle : ∀ child, s.children id = [child] →
      s.contents id = .cons (s.content child) (s.contents child) .nil := by
    intro child hchild
    rw [contents, h.below_eq_trees, hchild]
    rfl
  constructor
  · intro ht
    have hroots := h.map_content_children id
    rw [ht] at hroots
    obtain ⟨child, hchild, -⟩ := List.map_eq_singleton_iff.mp hroots
    rw [hsingle child hchild] at ht
    obtain ⟨hc, hsub, -⟩ := Forest.cons.inj ht
    exact ⟨child, hchild, hc, hsub⟩
  · rintro ⟨child, hchild, rfl, rfl⟩
    exact hsingle child hchild

theorem map_content_children_root (b : Block) :
    ((ofBlock b).children root).map (ofBlock b).content = b.forest.roots := by
  rw [(isForest_ofBlock b).map_content_children, contents_root_ofBlock]

end Stylesheet
end UtilityCss
