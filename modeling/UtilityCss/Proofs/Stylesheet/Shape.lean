import UtilityCss.Proofs.Stylesheet.Tidy
import UtilityCss.Proofs.Stylesheet.Tracing
import UtilityCss.Proofs.Stylesheet.Descendants

/-!
# The shape of parsed stylesheets

What every parsed stylesheet is like: its nodes are numbered in preorder, only blocks have children,
each block notes whether a semicolon ends its last child, and the blanks around the parts of a node
are in its raws.
-/
namespace UtilityCss

open Text Event

/-- The node is a statement of the source that a semicolon ends. -/
def Statement.EndsWithSemicolon (source : Text) (id : NodeId) : Prop :=
  ∃ es before text rest, Trace source es (before ++ text ++ ';' :: rest) ∧
    before.all isAsciiSpace = true ∧ EndsAt text (';' :: rest) ∧ id = nodeAfter es

def Event.IsTerminated (e : Event) : Prop := ∃ c, e = .statement c true

theorem Forest.mem_preorder_of_mem_roots {α : Type} {t : Forest α} {a : α} (h : a ∈ t.roots) :
    a ∈ t.preorder := by
  induction t with
  | nil => cases h
  | cons b below rest _ ihrest =>
    rw [preorder, List.mem_cons, List.mem_append]
    exact (List.mem_cons.mp h).imp_right fun hrest => .inr (ihrest hrest)

namespace Stylesheet

/-- Whether the last of some children ends with a semicolon is noted. -/
def NotesSemicolon (ends : NodeId → Prop) (semicolon : Bool) (ids : List NodeId) : Prop :=
  semicolon = true ↔ ∃ id ∈ ids.getLast?, ends id

/-- A node that notes the semicolon of its last child, and has children only in a block. -/
structure BearsChildren (s : Stylesheet) (ends : NodeId → Prop) (id : NodeId) : Prop where
  semicolon : NotesSemicolon ends (s.raws id).semicolon (s.children id)
  hasBlock : s.children id ≠ [] → (s.kind id).hasBlock = true

variable {s : Stylesheet} {ends : NodeId → Prop} {b : Block} {c : Content} {n : Nat}
  {ids : List NodeId}

theorem notesSemicolon_push (hspans : s.Spans ids (b.forest.number n))
    (h : NotesSemicolon ends b.semicolon ids) {t : Forest Content} {terminated : Bool} {id : NodeId}
    (hid : terminated = true ↔ ends id) :
    NotesSemicolon ends (b.push c t terminated).semicolon (id :: ids) := by
  rcases b with ⟨_ | ⟨d, below, rest⟩, after, semicolon⟩
  · cases hspans
    simpa [NotesSemicolon, Block.push, Forest.isEmpty] using hid
  · cases hspans
    exact h

def Bears (s : Stylesheet) (ends : NodeId → Prop) (n : Nat) (semicolon : Bool)
    (t : Forest Content) : Prop :=
  ∀ ids, s.Spans ids (t.number n) → (t.number n).map s.content = t →
    NotesSemicolon ends semicolon ids ∧ ∀ id ∈ (t.number n).preorder, s.BearsChildren ends id

theorem bears_nil (s : Stylesheet) (ends : NodeId → Prop) (n : Nat) :
    s.Bears ends n false .nil := by
  intro ids hspans _
  cases hspans
  exact ⟨by simp [NotesSemicolon], fun id hid => absurd hid List.not_mem_nil⟩

theorem Bears.push {t : Forest Content} {terminated : Bool}
    (hrest : s.Bears ends (n + 1 + t.size) b.semicolon b.forest)
    (hbelow : s.Bears ends (n + 1) c.raws.semicolon t)
    (hblock : t.isEmpty = false → c.kind.hasBlock = true)
    (hid : terminated = true ↔ ends ⟨n⟩) :
    s.Bears ends n (b.push c t terminated).semicolon (b.push c t terminated).forest := by
  rintro _ (_ | ⟨hspansBelow, hspansRest⟩) hcontents
  obtain ⟨hc, hcontentsBelow, hcontentsRest⟩ := Forest.cons.inj hcontents
  obtain ⟨hsemicolonBelow, hnodesBelow⟩ := hbelow _ hspansBelow hcontentsBelow
  obtain ⟨hsemicolonRest, hnodesRest⟩ := hrest _ hspansRest hcontentsRest
  refine ⟨notesSemicolon_push hspansRest hsemicolonRest hid, ?_⟩
  refine List.forall_mem_cons.mpr ⟨⟨?_, fun hne => ?_⟩,
    List.forall_mem_append.mpr ⟨hnodesBelow, hnodesRest⟩⟩
  · rwa [raws, hc]
  · rw [kind, hc]
    apply hblock
    cases t with
    | nil =>
      generalize s.children ⟨n⟩ = children at hspansBelow hne
      cases hspansBelow
      exact absurd rfl hne
    | cons => rfl

end Stylesheet

/-- Of the nodes numbered from `n` on, those that come from terminated events are the ones that end
with a semicolon. -/
def Event.TellEnds (ends : NodeId → Prop) (n : Nat) (es : List Event) : Prop :=
  ∀ k e, es[k]? = some e → (ends ⟨n + k⟩ ↔ e.IsTerminated)

namespace Event.TellEnds

variable {ends : NodeId → Prop} {n : Nat} {e : Event} {es es' : List Event}

theorem head (h : TellEnds ends n (e :: es)) : ends ⟨n⟩ ↔ e.IsTerminated := h 0 e rfl

theorem tail (h : TellEnds ends n (e :: es)) : TellEnds ends (n + 1) es := by
  intro k e' hk
  rw [Nat.add_right_comm]
  exact h (k + 1) e' hk

theorem left (h : TellEnds ends n (es ++ es')) : TellEnds ends n es := by
  intro k e' hk
  apply h
  rwa [List.getElem?_append_left (List.getElem?_eq_some_iff.mp hk).1]

theorem right (h : TellEnds ends n (es ++ es')) : TellEnds ends (n + es.length) es' := by
  intro k e' hk
  rw [Nat.add_assoc]
  apply h
  rwa [List.getElem?_append_right (Nat.le_add_right ..), Nat.add_sub_cancel_left]

end Event.TellEnds

theorem Block.MadeBy.bears {es : List Event} {b : Block} (h : b.MadeBy es) {s : Stylesheet}
    {ends : NodeId → Prop} {n : Nat} (hends : TellEnds ends n es) :
    s.Bears ends n b.semicolon b.forest := by
  induction h generalizing n with
  | blank => exact s.bears_nil ends n
  | @comment es b c hc _ ih =>
    refine (ih hends.tail).push ?_ (fun hne => by cases hne) ?_
    · rw [hc]
      exact s.bears_nil ends _
    · simp [hends.head, IsTerminated]
  | @statement es b c terminated hc _ ih =>
    refine (ih hends.tail).push ?_ (fun hne => by cases hne) ?_
    · rw [hc]
      exact s.bears_nil ends _
    · simp [hends.head, IsTerminated]
  | @opening es es' inner b c place hc hinner _ ihinner ihrest =>
    have hsize : es.length = inner.forest.size := by
      rw [hinner.forall₂.length_eq, Forest.length_preorder]
    have hrest := hends.tail.right
    rw [hsize] at hrest
    refine (ihrest hrest).push (ihinner hends.tail.left) (fun _ => hc) ?_
    simp [hends.head, IsTerminated]

namespace Stylesheet

variable {source : Text} {s : Stylesheet}

/-- The events that make the nodes tell which of them are statements with a semicolon. -/
theorem tellEnds_of_parse (h : parse source = .ok s) :
    TellEnds (Statement.EndsWithSemicolon source) 1 ((Event.all source).filter makesNode) := by
  intro k e he
  constructor
  · rintro ⟨es, before, text, rest, htrace, hb, ht, hnumber⟩
    obtain ⟨c, -, htrace, hx⟩ := exists_statement_of_trace h htrace hb ht
    have hindex : 1 + k = es.countP makesNode + 1 := congrArg NodeId.index hnumber
    have hk : k = es.countP makesNode := by omega
    rw [hk, htrace.getElem?_filter_all hx rfl] at he
    cases he
    exact ⟨c, rfl⟩
  · rintro ⟨c, rfl⟩
    obtain ⟨hlt, hget⟩ := List.getElem?_eq_some_iff.mp he
    have hsplit := List.take_append_drop k ((Event.all source).filter makesNode)
    rw [List.drop_eq_getElem_cons hlt, hget] at hsplit
    obtain ⟨front, back, hall, hfront, hback⟩ := List.filter_eq_append_iff.mp hsplit.symm
    obtain ⟨skipped, back, rfl, hskipped, -, -⟩ := List.filter_eq_cons_iff.mp hback
    rw [← List.append_assoc] at hall
    obtain ⟨x, rest, htrace, hx⟩ := exists_trace_of_all hall
    have hcount : (front ++ skipped).countP makesNode = k := by
      rw [List.countP_append, List.countP_eq_length_filter, hfront, List.length_take,
        List.countP_eq_zero.mpr hskipped]
      omega
    cases hx with
    | @statement before text _ _ hb ht _ =>
      refine ⟨front ++ skipped, before, text, rest, ?_, hb, ht, ?_⟩
      · rwa [List.append_assoc, List.singleton_append] at htrace
      · rw [nodeAfter, hcount, Nat.add_comm]

theorem needsSemicolon_of_endsWithSemicolon (h : parse source = .ok s) (id : NodeId)
    (hid : Statement.EndsWithSemicolon source id) : (s.kind id).needsSemicolon = true := by
  obtain ⟨es, before, text, rest, htrace, hb, ht, rfl⟩ := hid
  obtain ⟨c, hc, htrace, hx⟩ := exists_statement_of_trace h htrace hb ht
  have hmakes := makes_of_trace h htrace hx rfl
  rw [kind]
  generalize s.content (nodeAfter es) = c' at hmakes ⊢
  cases hmakes
  exact Statement.needsSemicolon_of_body? hc

theorem content_of_size_le {id : NodeId} (h : s.size ≤ id.index) :
    s.content id = ⟨.root, {}⟩ := by
  rw [content, node_of_size_le h]
  rfl

theorem index_lt_of_mem_children {α : Type} {t : Forest α} {n : Nat} {ids : List NodeId}
    (h : s.Spans ids (t.number n)) {p c : NodeId} (hp : p ∈ (t.number n).preorder)
    (hc : c ∈ s.children p) : p.index < c.index := by
  induction t generalizing n ids with
  | nil => cases hp
  | cons a below rest ihbelow ihrest =>
    rcases h with _ | ⟨hbelow, hrest⟩
    rw [Forest.number, Forest.preorder, List.mem_cons, List.mem_append] at hp
    rcases hp with rfl | hp | hp
    · rw [← hbelow.roots_eq] at hc
      exact (Forest.index_of_mem_number (Forest.mem_preorder_of_mem_roots hc)).1
    · exact ihbelow hbelow hp
    · exact ihrest hrest hp

section Numbered

variable (b : Block)

theorem ofBlock_cases (id : NodeId) :
    id = root ∨ (ofBlock b).size ≤ id.index ∨ id ∈ (b.forest.number 1).preorder := by
  rw [Forest.preorder_number, size_ofBlock, or_iff_not_imp_left]
  intro hid
  have hpos : id.index ≠ 0 := fun hzero => hid (NodeId.ext hzero)
  rw [or_iff_not_imp_left, Nat.not_le]
  intro hlt
  refine List.mem_map.mpr ⟨id.index, ?_, rfl⟩
  rw [List.mem_range'_1]
  omega

theorem spans_ofBlock : (ofBlock b).Spans ((ofBlock b).children root) (b.forest.number 1) := by
  rw [← below_root_ofBlock]
  exact (isForest_ofBlock b).spans_below root

theorem descendants_ofBlock :
    (ofBlock b).descendants root = (List.range' 1 ((ofBlock b).size - 1)).map NodeId.mk := by
  rw [descendants, below_root_ofBlock, Forest.preorder_number, size_ofBlock, Nat.add_sub_cancel]

theorem exists_parent_ofBlock {id : NodeId} (hid : (ofBlock b).hasNode id = true)
    (hne : id ≠ root) : ∃ p, (ofBlock b).parent id = some p ∧ p.index < id.index := by
  have hforest := isForest_ofBlock b
  rw [hasNode_iff] at hid
  have hmem := ((ofBlock_cases b id).resolve_left hne).resolve_left (Nat.not_le.mpr hid)
  rw [← below_root_ofBlock] at hmem
  obtain ⟨p, hp, hchild⟩ := hforest.exists_parent_of_mem_below hmem
  refine ⟨p, (hforest.mem_children_iff p id).mp hchild, ?_⟩
  rcases hp with rfl | hp
  · exact Nat.pos_of_ne_zero fun hzero => hne (NodeId.ext hzero)
  · rw [below_root_ofBlock] at hp
    exact index_lt_of_mem_children (spans_ofBlock b) hp hchild

variable {b} {ends : NodeId → Prop} {es : List Event}

theorem hasBlock_ofBlock (hmade : b.MadeBy es) (hends : TellEnds ends 1 es) {id : NodeId}
    (hchildren : (ofBlock b).children id ≠ []) :
    id = root ∨ ((ofBlock b).kind id).hasBlock = true := by
  have hbears := hmade.bears hends _ (spans_ofBlock b) (map_content_number b)
  rcases ofBlock_cases b id with hroot | hout | hmem
  · exact .inl hroot
  · exact absurd (children_of_size_le hout) hchildren
  · exact .inr ((hbears.2 id hmem).hasBlock hchildren)

theorem notesSemicolon_ofBlock (hmade : b.MadeBy es) (hends : TellEnds ends 1 es) (id : NodeId) :
    NotesSemicolon ends ((ofBlock b).raws id).semicolon ((ofBlock b).children id) := by
  have hbears := hmade.bears hends _ (spans_ofBlock b) (map_content_number b)
  rcases ofBlock_cases b id with rfl | hout | hmem
  · rw [raws, content_root_ofBlock]
    exact hbears.1
  · rw [raws, content_of_size_le hout, children_of_size_le hout]
    simp [NotesSemicolon]
  · exact (hbears.2 id hmem).semicolon

theorem isTidy_ofBlock {stop : Text} (h : b.Legible stop) (id : NodeId) :
    ((ofBlock b).content id).IsTidy := by
  rcases ofBlock_cases b id with rfl | hout | hmem
  · rw [content_root_ofBlock]
    exact Content.isTidy_root _ _ (isBlankText_of_asciiSpace h.all_after)
  · rw [content_of_size_le hout]
    exact Content.isTidy_root _ _ rfl
  · apply h.isTidy
    rw [← map_content_number b, Forest.preorder_map]
    exact List.mem_map_of_mem hmem

end Numbered

/-- What a stylesheet is like that was parsed from `source`. -/
structure IsShaped (source : Text) (s : Stylesheet) : Prop where
  /-- The nodes are numbered in preorder. -/
  preorder : s.descendants root = (List.range' 1 (s.size - 1)).map NodeId.mk
  parent_lt : ∀ id, s.hasNode id = true → id ≠ root →
    ∃ p, s.parent id = some p ∧ p.index < id.index
  /-- Only the root and blocks have children. -/
  hasBlock : ∀ id, s.children id ≠ [] → id = root ∨ (s.kind id).hasBlock = true
  /-- The last child is a declaration or an at-rule without a block, and a semicolon ends it. -/
  semicolon_iff : ∀ id, (s.raws id).semicolon = true ↔
    ∃ last ∈ (s.children id).getLast?, (s.kind last).needsSemicolon = true ∧
      Statement.EndsWithSemicolon source last
  tidy : ∀ id, (s.content id).IsTidy

/-- Every parsed stylesheet has this shape, whatever the nesting of its blocks. -/
theorem isShaped_of_parse (h : parse source = .ok s) : s.IsShaped source := by
  have hneeds := needsSemicolon_of_endsWithSemicolon h
  have hends := tellEnds_of_parse h
  obtain ⟨b, rfl, hlegible, hmade⟩ := exists_madeBy_of_parse h
  constructor
  · exact descendants_ofBlock b
  · exact fun id => exists_parent_ofBlock b
  · exact fun id => hasBlock_ofBlock hmade hends
  · intro id
    refine (notesSemicolon_ofBlock hmade hends id).trans (exists_congr fun last => ?_)
    exact and_congr_right fun _ => (and_iff_right_of_imp (hneeds last)).symm
  · exact isTidy_ofBlock hlegible

/-- A semicolon that ends no statement, a comment behind the last one, and an at-rule without a
name. -/
theorem isShaped_of_stray_and_comment :
    ∃ s, parse "a\x7bb : c ; ;@x\x7d /**/ @;".toList = .ok s ∧ s.size = 6 ∧
      s.IsShaped "a\x7bb : c ; ;@x\x7d /**/ @;".toList := by
  have hany : (parse "a\x7bb : c ; ;@x\x7d /**/ @;".toList).toOption.any
      (fun s => s.size = 6) = true := by cbv
  obtain ⟨s, hs, hsize⟩ := exists_parse_of_any hany
  rw [decide_eq_true_eq] at hsize
  exact ⟨s, hs, hsize, isShaped_of_parse hs⟩

end Stylesheet
end UtilityCss
