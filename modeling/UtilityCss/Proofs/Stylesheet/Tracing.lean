import UtilityCss.Proofs.Stylesheet.Legible

/-!
# The course of reading

Reading goes through a source from one event to the next. The nodes of a stylesheet are numbered in
the order of the events that make them, so each place of a source where a node begins can be told by
the number of that node.
-/
namespace UtilityCss

open Text

namespace Event

def makesNode : Event → Bool
  | comment _ | statement .. | opening .. => true
  | closing .. | stray _ => false

/-- Reading a text gives the events one after the other and leaves the second text. -/
inductive Trace : Text → List Event → Text → Prop
  | start (t : Text) : Trace t [] t
  | next {x rest t : Text} {e : Event} {es : List Event} (h : Spells x e rest)
      (hrest : Trace rest es t) : Trace (x ++ rest) (e :: es) t

def nodeAfter (es : List Event) : NodeId := ⟨es.countP makesNode + 1⟩

/-- The content that an event gives to its node. What a block ends with is known at its end. -/
inductive Makes : Event → Content → Prop
  | comment (c : Content) : Makes (.comment c) c
  | statement (c : Content) (terminated : Bool) : Makes (.statement c terminated) c
  | opening (c : Content) (place : Text) (b : Block) : Makes (.opening c place) (c.enclosing b)

end Event

def EventStream.events : EventStream → List Event
  | .finish _ | .fault _ => []
  | .next e rest => e :: rest.events

def Event.all (t : Text) : List Event := (EventStream.ofText t).events

namespace Event

theorem all_of_finish {t after : Text} (h : first t = .finish after) : all t = [] := by
  rw [all, EventStream.ofText_eq, h]
  rfl

theorem all_of_fault {t : Text} {f : LocatedFault} (h : first t = .fault f) : all t = [] := by
  rw [all, EventStream.ofText_eq, h]
  rfl

theorem all_of_spells {x rest : Text} {e : Event} (h : Spells x e rest) :
    all (x ++ rest) = e :: all rest := by
  rw [all, EventStream.ofText_eq, first_of_spells h]
  rfl

namespace Trace

variable {t u v x rest : Text} {es es' : List Event} {e : Event}

theorem all_eq (h : Trace t es u) : all t = es ++ all u := by
  induction h with
  | start => rfl
  | next hx _ ih => rw [all_of_spells hx, ih, List.cons_append]

/-- The events that make nodes are counted from zero, and the nodes from one. -/
theorem getElem?_filter_all (h : Trace t es (x ++ rest)) (hx : Spells x e rest)
    (he : e.makesNode = true) : ((all t).filter makesNode)[es.countP makesNode]? = some e := by
  rw [h.all_eq, all_of_spells hx, List.filter_append, List.filter_cons_of_pos he,
    List.countP_eq_length_filter, List.getElem?_append_right (Nat.le_refl _), Nat.sub_self,
    List.getElem?_cons_zero]

end Trace

theorem exists_body?_of_ne_fault {before t after place rest : Text} {terminated : Bool}
    (h : ∀ f, ofBody before t after place terminated rest ≠ .fault f) :
    ∃ c, Statement.body? { before := before, after := after } t = some c := by
  cases hc : Statement.body? { before := before, after := after } t with
  | none => exact absurd (by rw [ofBody, hc]) (h _)
  | some c => exact ⟨c, rfl⟩

/-- Every event of a text is spelled at the place to which the events before it lead. -/
theorem exists_trace_of_all {t : Text} {es es' : List Event} {e : Event}
    (h : all t = es ++ e :: es') :
    ∃ x rest, Trace t es (x ++ rest) ∧ Spells x e rest := by
  induction es generalizing t with
  | nil =>
    cases hfirst : first t with
    | finish after =>
      rw [all_of_finish hfirst] at h
      cases h
    | fault f =>
      rw [all_of_fault hfirst] at h
      cases h
    | event e₀ rest =>
      obtain ⟨x, rfl, hx⟩ := spells_of_first hfirst
      rw [all_of_spells hx] at h
      cases h
      exact ⟨x, rest, .start _, hx⟩
  | cons e₀ es ih =>
    cases hfirst : first t with
    | finish after =>
      rw [all_of_finish hfirst] at h
      cases h
    | fault f =>
      rw [all_of_fault hfirst] at h
      cases h
    | event e₁ rest₀ =>
      obtain ⟨x₀, rfl, hx₀⟩ := spells_of_first hfirst
      rw [all_of_spells hx₀, List.cons_append] at h
      obtain ⟨rfl, hrest⟩ := List.cons.inj h
      obtain ⟨x, rest, htrace, hx⟩ := ih hrest
      exact ⟨x, rest, .next hx₀ htrace, hx⟩

end Event

open Event

theorem Nesting.last_before_of_error {n : Nesting} {f : LocatedFault} (h : n.last = .error f)
    (e : Event) : (n.before e).last = .error f := by
  rcases n with ⟨_ | ⟨⟨inner, place⟩, _ | ⟨outer, closed⟩⟩, last⟩ <;> cases h <;> cases e <;> rfl

theorem Event.Trace.last_of_fault {t u : Text} {es : List Event} {f : LocatedFault}
    (h : Trace t es u) (hf : first u = .fault f) : (Nesting.ofText t).last = .error f := by
  induction h with
  | start => rw [Nesting.ofText_of_fault hf]
  | next hx _ ih =>
    rw [Nesting.ofText_of_spells hx]
    exact Nesting.last_before_of_error (ih hf) _

/-- The nodes of a block, told by the events that make them. Only an opening makes a node that has a
block, and only a block has a last semicolon to note. -/
inductive Block.MadeBy : List Event → Block → Prop
  | blank (after : Text) : MadeBy [] (blank after)
  | comment {es : List Event} {b : Block} {c : Content} (hc : c.raws.semicolon = false)
      (rest : MadeBy es b) : MadeBy (.comment c :: es) (b.push c .nil false)
  | statement {es : List Event} {b : Block} {c : Content} (terminated : Bool)
      (hc : c.raws.semicolon = false) (rest : MadeBy es b) :
      MadeBy (.statement c terminated :: es) (b.push c .nil terminated)
  | opening {es es' : List Event} {inner b : Block} {c : Content} (place : Text)
      (hc : c.kind.hasBlock = true) (hinner : MadeBy es inner) (rest : MadeBy es' b) :
      MadeBy (.opening c place :: (es ++ es')) (b.push (c.enclosing inner) inner.forest false)

namespace Statement

theorem semicolon_of_body? {raws : Raws} {t : Text} {c : Content} (h : body? raws t = some c) :
    c.raws.semicolon = raws.semicolon := by
  unfold body? declaration? at h
  split at h
  · cases h
    rfl
  · split at h
    · cases h
    · split at h <;> cases h
      rfl

theorem hasBlock_prelude (before t : Text) : (prelude before t).kind.hasBlock = true := by
  unfold prelude
  split <;> rfl

end Statement

namespace Nesting

/-- The nodes of all blocks in their order. Nothing is said of a block that a fault cuts off. -/
inductive MadeBy : List Event → Nesting → Prop
  | last {es : List Event} {b : Block} (h : b.MadeBy es) : MadeBy es ⟨[], .ok b⟩
  | fault (es : List Event) (f : LocatedFault) : MadeBy es ⟨[], .error f⟩
  | closed {es es' : List Event} {b : Block} {place : Text} {outer : List (Block × Text)}
      {last : Except LocatedFault Block} (h : b.MadeBy es) (hrest : MadeBy es' ⟨outer, last⟩) :
      MadeBy (es ++ es') ⟨(b, place) :: outer, last⟩

theorem MadeBy.push {n : Nesting} {es front : List Event} {c : Content} {t : Forest Content}
    {terminated : Bool} (h : n.MadeBy es)
    (hpush : ∀ {es' : List Event} {b : Block}, b.MadeBy es' →
      (b.push c t terminated).MadeBy (front ++ es')) :
    (n.push c t terminated).MadeBy (front ++ es) := by
  cases h with
  | last h => exact .last (hpush h)
  | fault => exact .fault ..
  | closed h hrest =>
    rw [← List.append_assoc]
    exact .closed (hpush h) hrest

theorem MadeBy.before {n : Nesting} {es : List Event} (hn : n.MadeBy es) {x rest : Text} {e : Event}
    (h : Spells x e rest) : (n.before e).MadeBy ([e].filter makesNode ++ es) := by
  cases h with
  | comment => exact hn.push (.comment rfl)
  | statement _ _ hc => exact hn.push (.statement true (Statement.semicolon_of_body? hc))
  | last _ _ _ hc => exact hn.push (.statement false (Statement.semicolon_of_body? hc))
  | @opening before text _ _ _ =>
    cases hn with
    | last => exact .fault ..
    | fault => exact .fault ..
    | @closed es es' inner p outer last hinner hrest =>
      have hpush := @MadeBy.push _ _ (.opening (Statement.prelude before text) _ :: es) _ _ _ hrest
        (.opening ('\x7b' :: rest) (Statement.hasBlock_prelude before text) hinner)
      rwa [List.cons_append] at hpush
  | closing => exact .closed (.blank _) hn
  | stray => exact hn

theorem Reads.madeBy {t : Text} {n : Nesting} (h : Reads t n) :
    n.MadeBy ((Event.all t).filter makesNode) := by
  induction h with
  | finish ha =>
    rw [all_of_finish (first_of_isAsciiSpace ha)]
    exact .last (.blank _)
  | fault h => exact .fault ..
  | @event x rest e n hx hrest ih =>
    rw [all_of_spells hx, ← List.singleton_append, List.filter_append]
    exact ih.before hx

end Nesting

theorem Block.MadeBy.forall₂ {es : List Event} {b : Block} (h : b.MadeBy es) :
    List.Forall₂ Makes es b.forest.preorder := by
  induction h with
  | blank => exact .nil
  | comment _ _ ih => exact .cons (.comment _) ih
  | statement terminated _ _ ih => exact .cons (.statement _ terminated) ih
  | opening place _ _ _ ihinner ihrest =>
    exact .cons (.opening _ place _) (List.rel_append ihinner ihrest)

theorem Forest.preorder_number {α : Type} (t : Forest α) (n : Nat) :
    (t.number n).preorder = (List.range' n t.size).map NodeId.mk := by
  induction t generalizing n with
  | nil => rfl
  | cons a children rest ihc ihr =>
    have hsize : children.size + rest.size + 1 = 1 + (children.size + rest.size) := by omega
    rw [number, preorder, ihc, ihr, size, hsize, ← List.range'_append_1, ← List.range'_append_1,
      List.map_append, List.map_append]
    rfl

inductive Statement.Yields (before text : Text) : Text → Content → Prop
  | opening {rest : Text} (b : Block) :
      Yields before text ('\x7b' :: rest) ((prelude before text).enclosing b)
  | statement {rest : Text} {c : Content}
      (hc : body? { before := before, after := text.trailingBlanks } text.trimRight = some c) :
      Yields before text (';' :: rest) c
  | last {rest : Text} {c : Content} (hrest : endsBlock rest = true)
      (hc : body? { before := before } text.trimRight = some c) : Yields before text rest c

namespace Stylesheet

variable {source : Text} {s : Stylesheet}

theorem exists_madeBy_of_parse (h : parse source = .ok s) :
    ∃ b, s = ofBlock b ∧ b.Legible [] ∧ b.MadeBy ((Event.all source).filter makesNode) := by
  obtain ⟨b, hb, rfl⟩ := exists_block_of_parse h
  have hmade := (Nesting.reads_ofText source).madeBy
  rw [Nesting.ofText_of_block hb] at hmade
  refine ⟨b, rfl, Nesting.legible_of_ofText hb, ?_⟩
  generalize (Event.all source).filter makesNode = es at hmade ⊢
  cases hmade with
  | last hmade => exact hmade

theorem map_content_number (b : Block) :
    (b.forest.number 1).map (ofBlock b).content = b.forest := by
  rw [← below_root_ofBlock]
  exact contents_root_ofBlock b

theorem map_content_ofBlock (b : Block) :
    (List.range' 1 b.forest.size).map (fun k => (ofBlock b).content ⟨k⟩) = b.forest.preorder := by
  have hpreorder := congrArg Forest.preorder (map_content_number b)
  rw [Forest.preorder_map, Forest.preorder_number, List.map_map] at hpreorder
  exact hpreorder

/-- An event makes the node whose number is that of the nodes made so far. -/
theorem makes_of_trace (h : parse source = .ok s) {es : List Event} {x rest : Text} {e : Event}
    (htrace : Trace source es (x ++ rest)) (hx : Spells x e rest) (he : e.makesNode = true) :
    Makes e (s.content (nodeAfter es)) := by
  obtain ⟨b, rfl, -, hmade⟩ := exists_madeBy_of_parse h
  have hmakes := hmade.forall₂
  rw [← map_content_ofBlock] at hmakes
  obtain ⟨hlt, hget⟩ := List.getElem?_eq_some_iff.mp (htrace.getElem?_filter_all hx he)
  have hlt' := hlt
  rw [hmakes.length_eq] at hlt'
  have hnode := hmakes.get hlt hlt'
  simp only [List.get_eq_getElem, hget, List.getElem_map, List.getElem_range', Nat.one_mul,
    Nat.add_comm 1] at hnode
  exact hnode

theorem first_ne_fault_of_trace (h : parse source = .ok s) {es : List Event} {t : Text}
    (htrace : Trace source es t) (f : LocatedFault) : first t ≠ .fault f := by
  intro hf
  obtain ⟨b, hb, -⟩ := exists_block_of_parse h
  have hlast := htrace.last_of_fault hf
  rw [Nesting.ofText_of_block hb] at hlast
  cases hlast

theorem exists_statement_of_trace (h : parse source = .ok s) {es : List Event}
    {before text rest : Text} (htrace : Trace source es (before ++ text ++ ';' :: rest))
    (hb : before.all isAsciiSpace = true) (ht : EndsAt text (';' :: rest)) :
    ∃ c, Statement.body? { before := before, after := text.trailingBlanks } text.trimRight =
        some c ∧
      Trace source es (before ++ text ++ [';'] ++ rest) ∧
      Spells (before ++ text ++ [';']) (.statement c true) rest := by
  have hfirst := first_ne_fault_of_trace h htrace
  rw [List.append_assoc, first_of_beginsStatement hb ht.begins, ofStatement_of_semicolon ht]
    at hfirst
  obtain ⟨c, hc⟩ := exists_body?_of_ne_fault hfirst
  rw [List.append_cons] at htrace
  exact ⟨c, hc, htrace, .statement hb ht hc⟩

theorem yields_of_trace (h : parse source = .ok s) {es : List Event} {before text rest : Text}
    (htrace : Trace source es (before ++ text ++ rest)) (hb : before.all isAsciiSpace = true)
    (ht : EndsAt text rest) :
    Statement.Yields before text rest (s.content (nodeAfter es)) := by
  have hrest : (∃ rest', rest = '\x7b' :: rest') ∨ (∃ rest', rest = ';' :: rest') ∨
      endsBlock rest = true := by
    cases rest with
    | nil => exact .inr (.inr rfl)
    | cons c rest =>
      have hc := Scan.isTerminator_of_statement ht.scan
      simp only [Scan.isTerminator, Bool.or_eq_true, decide_eq_true_eq] at hc
      rcases hc with (rfl | rfl) | rfl
      · exact .inr (.inl ⟨rest, rfl⟩)
      · exact .inl ⟨rest, rfl⟩
      · exact .inr (.inr rfl)
  rcases hrest with ⟨rest, rfl⟩ | ⟨rest, rfl⟩ | hend
  · rw [List.append_cons] at htrace
    generalize hc : s.content (nodeAfter es) = c
    have hmakes := makes_of_trace h htrace (.opening hb ht) rfl
    rw [hc] at hmakes
    cases hmakes
    exact .opening _
  · obtain ⟨c, hc, htrace, hx⟩ := exists_statement_of_trace h htrace hb ht
    have hmakes := makes_of_trace h htrace hx rfl
    generalize s.content (nodeAfter es) = c' at hmakes ⊢
    cases hmakes
    exact .statement hc
  · have hfirst := first_ne_fault_of_trace h htrace
    rw [List.append_assoc, first_of_beginsStatement hb ht.begins,
      ofStatement_of_endsBlock hend ht.scan] at hfirst
    obtain ⟨c, hc⟩ := exists_body?_of_ne_fault hfirst
    have happ : before ++ text ++ rest =
        before ++ text.trimRight ++ (text.trailingBlanks ++ rest) := by
      conv_lhs => rw [← trimRight_append_trailingBlanks text]
      simp only [List.append_assoc]
    rw [happ] at htrace
    have hmakes := makes_of_trace h htrace (.last hb ht hend hc) rfl
    generalize s.content (nodeAfter es) = c' at hmakes ⊢
    cases hmakes
    exact .last hend hc

end Stylesheet
end UtilityCss
