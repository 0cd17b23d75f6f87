import UtilityCss.Proofs.Stylesheet.Reading
import UtilityCss.Proofs.Stylesheet.Building

/-!
# Legible blocks

A block is legible when it was put together from pieces that reading recognizes. Whatever is read is
legible, and the text of a legible block reads as that block, whatever follows its closing brace.
-/
namespace UtilityCss

open Text Event

def Nesting.ofText (t : Text) : Nesting := ofEvents (EventStream.ofText t)

/-- Blocks that end before `stop`, which is empty for the end of the text and a closing brace
otherwise. Each constructor but the first puts one more tree in front. -/
inductive Block.Legible : Text → Block → Prop
  | blank {stop after : Text} (ha : after.all isAsciiSpace = true) : Legible stop (blank after)
  | comment {stop before text : Text} {b : Block} (hb : before.all isAsciiSpace = true)
      (ht : Scan.ClosesAtEnd text) (rest : Legible stop b) :
      Legible stop (b.push ⟨.comment text, { before := before }⟩ .nil false)
  | statement {stop before text : Text} {c : Content} {b : Block}
      (hb : before.all isAsciiSpace = true) (ht : EndsAt text [';'])
      (hc : Statement.body? { before := before, after := text.trailingBlanks } text.trimRight =
        some c)
      (rest : Legible stop b) : Legible stop (b.push c .nil true)
  | last {stop before text : Text} {c : Content} (hb : before.all isAsciiSpace = true)
      (ht : EndsAt text stop) (hstop : endsBlock stop = true)
      (hafter : text.trailingBlanks.all isAsciiSpace = true)
      (hc : Statement.body? { before := before } text.trimRight = some c) :
      Legible stop ((blank text.trailingBlanks).push c .nil false)
  | opening {stop before text : Text} {inner b : Block} (hb : before.all isAsciiSpace = true)
      (ht : EndsAt text ['\x7b']) (hinner : Legible ['\x7d'] inner) (rest : Legible stop b) :
      Legible stop (b.push ((Statement.prelude before text).enclosing inner) inner.forest false)

namespace Nesting

theorem ofText_of_finish {t after : Text} (h : first t = .finish after) :
    ofText t = ⟨[], .ok (Block.blank after)⟩ := by
  rw [ofText, EventStream.ofText_eq, h]
  rfl

theorem ofText_of_fault {t : Text} {f : LocatedFault} (h : first t = .fault f) :
    ofText t = ⟨[], .error f⟩ := by
  rw [ofText, EventStream.ofText_eq, h]
  rfl

theorem ofText_of_event {t rest : Text} {e : Event} (h : first t = .event e rest) :
    ofText t = (ofText rest).before e := by
  rw [ofText, EventStream.ofText_eq, h]
  rfl

theorem ofText_of_spells {x rest : Text} {e : Event} (h : Spells x e rest) :
    ofText (x ++ rest) = (ofText rest).before e :=
  ofText_of_event (first_of_spells h)

theorem ofText_of_isAsciiSpace {after : Text} (h : after.all isAsciiSpace = true) :
    ofText after = ⟨[], .ok (Block.blank after)⟩ :=
  ofText_of_finish (first_of_isAsciiSpace h)

theorem ofText_closing {after : Text} (h : after.all isAsciiSpace = true) (rest : Text) :
    ofText (after ++ '\x7d' :: rest) =
      { ofText rest with
        closed := (Block.blank after, '\x7d' :: rest) :: (ofText rest).closed } := by
  have hread := ofText_of_spells (.closing h : Spells _ _ rest)
  rw [List.append_assoc] at hread
  exact hread

inductive Reads : Text → Nesting → Prop
  | finish {after : Text} (ha : after.all isAsciiSpace = true) :
      Reads after ⟨[], .ok (Block.blank after)⟩
  | fault {t : Text} {f : LocatedFault} (h : first t = .fault f) : Reads t ⟨[], .error f⟩
  | event {x rest : Text} {e : Event} {n : Nesting} (h : Spells x e rest) (hrest : Reads rest n) :
      Reads (x ++ rest) (n.before e)

theorem reads_ofText (t : Text) : Reads t (ofText t) := by
  induction hlen : t.length using Nat.strong_induction_on generalizing t with
  | _ n ih =>
    cases h : first t with
    | finish after =>
      obtain ⟨rfl, ha⟩ := eq_of_first_eq_finish h
      rw [ofText_of_finish h]
      exact .finish ha
    | fault f =>
      rw [ofText_of_fault h]
      exact .fault h
    | event e rest =>
      have hlt := length_lt_of_first h
      obtain ⟨x, rfl, hx⟩ := spells_of_first h
      rw [ofText_of_event h]
      exact .event hx (ih _ (hlen ▸ hlt) _ rfl)

theorem Reads.eq {t : Text} {n : Nesting} (h : Reads t n) : n = ofText t := by
  induction h with
  | finish ha => exact (ofText_of_isAsciiSpace ha).symm
  | fault h => exact (ofText_of_fault h).symm
  | event h _ ih => rw [ofText_of_spells h, ih]

structure Legible (n : Nesting) : Prop where
  closed : ∀ p ∈ n.closed, Block.Legible ['\x7d'] p.1
  last : ∀ b, n.last = .ok b → Block.Legible [] b

theorem Legible.push {n : Nesting} (h : n.Legible) {c : Content} {t : Forest Content}
    {terminated : Bool}
    (hpush : ∀ {stop : Text} {b : Block}, b.Legible stop → (b.push c t terminated).Legible stop) :
    (n.push c t terminated).Legible := by
  rcases n with ⟨_ | ⟨⟨b, place⟩, outer⟩, last⟩
  · refine ⟨h.closed, fun b hb => ?_⟩
    cases last with
    | error f => cases hb
    | ok b' =>
      cases hb
      exact hpush (h.last b' rfl)
  · refine ⟨fun p hp => ?_, h.last⟩
    rcases List.mem_cons.mp hp with rfl | hp
    · exact hpush (h.closed (b, place) (by simp))
    · exact h.closed p (by simp [hp])

theorem Legible.enclose {n : Nesting} (h : n.Legible) {before text : Text} (place : Text)
    (hb : before.all isAsciiSpace = true) (ht : EndsAt text ['\x7b']) :
    (n.enclose (Statement.prelude before text) place).Legible := by
  rcases n with ⟨_ | ⟨⟨b, p⟩, outer⟩, last⟩
  · cases last with
    | error f => exact ⟨h.closed, fun _ hb => by cases hb⟩
    | ok b' => exact ⟨h.closed, fun _ hb => by cases hb⟩
  · have hinner : b.Legible ['\x7d'] := h.closed (b, p) (by simp)
    have houter : Legible ⟨outer, last⟩ := ⟨fun p hp => h.closed p (by simp [hp]), h.last⟩
    exact houter.push fun hrest => .opening hb ht hinner hrest

/-- A statement that was cut short is the last one of its block. -/
theorem Legible.push_last {before text rest : Text} {c : Content}
    (h : (ofText (text.trailingBlanks ++ rest)).Legible) (hb : before.all isAsciiSpace = true)
    (ht : EndsAt text rest) (hrest : endsBlock rest = true)
    (hc : Statement.body? { before := before } text.trimRight = some c) :
    ((ofText (text.trailingBlanks ++ rest)).push c .nil false).Legible := by
  rcases first_of_isBlankText (isBlankText_trailingBlanks text) hrest with hafter | ⟨f, hf⟩
  · cases rest with
    | nil =>
      rw [List.append_nil, ofText_of_isAsciiSpace hafter]
      refine ⟨fun _ hp => (by cases hp), fun b heq => ?_⟩
      cases heq
      exact .last hb ht rfl hafter hc
    | cons d ds =>
      simp only [endsBlock, decide_eq_true_eq] at hrest
      subst hrest
      rw [ofText_closing hafter] at h ⊢
      refine ⟨fun p hp => ?_, h.last⟩
      rcases List.mem_cons.mp hp with rfl | hp
      · exact .last hb (ht.congr []) rfl hafter hc
      · exact h.closed p (by simp [hp])
  · rw [ofText_of_fault hf]
    exact ⟨fun _ hp => (by cases hp), fun _ heq => by cases heq⟩

theorem Reads.legible {t : Text} {n : Nesting} (h : Reads t n) : n.Legible := by
  induction h with
  | finish ha =>
    refine ⟨fun _ hp => (by cases hp), fun b hb => ?_⟩
    cases hb
    exact .blank ha
  | fault => exact ⟨fun _ hp => (by cases hp), fun _ hb => by cases hb⟩
  | event h hrest ih =>
    cases h with
    | comment hb ht => exact ih.push fun hlegible => .comment hb ht hlegible
    | statement hb ht hc => exact ih.push fun hlegible => .statement hb (ht.congr []) hc hlegible
    | last hb ht hstop hc =>
      rw [hrest.eq] at ih ⊢
      exact ih.push_last hb ht hstop hc
    | opening hb ht => exact ih.enclose _ hb (ht.congr [])
    | closing hb =>
      refine ⟨fun p hp => ?_, ih.last⟩
      rcases List.mem_cons.mp hp with rfl | hp
      · exact .blank hb
      · exact ih.closed p hp
    | stray => exact ih

/-- The nesting of a text whose first block is `b`, which ends where `rest` begins. -/
def endWith (b : Block) : Text → Nesting
  | [] => ⟨[], .ok b⟩
  | c :: cs => { ofText cs with closed := (b, c :: cs) :: (ofText cs).closed }

theorem push_endWith (b : Block) (rest : Text) (c : Content) (t : Forest Content)
    (terminated : Bool) :
    (endWith b rest).push c t terminated = endWith (b.push c t terminated) rest := by
  cases rest <;> rfl

theorem ofText_blank {after rest : Text} (ha : after.all isAsciiSpace = true)
    (hrest : endsBlock rest = true) :
    ofText (after ++ rest) = endWith (Block.blank after) rest := by
  cases rest with
  | nil =>
    rw [List.append_nil]
    exact ofText_of_isAsciiSpace ha
  | cons c cs =>
    simp only [endsBlock, decide_eq_true_eq] at hrest
    subst hrest
    exact ofText_closing ha cs

theorem endsAt_of_take {text stop rest : Text} (h : EndsAt text stop)
    (hstop : rest.take 1 = stop) : EndsAt text rest := by
  cases rest with
  | nil =>
    rw [List.take_nil] at hstop
    rwa [hstop]
  | cons c cs =>
    have hc : [c] = stop := hstop
    rw [← hc] at h
    exact h.congr cs

/-- A block that opens, its text, and the brace that closes it. -/
theorem ofText_opening {before text inner : Text} {b : Block} {rest : Text}
    (hb : before.all isAsciiSpace = true) (ht : EndsAt text ['\x7b'])
    (hinner : ofText (inner ++ '\x7d' :: rest) = endWith b ('\x7d' :: rest)) :
    ofText (before ++ text ++ '\x7b' :: inner ++ '\x7d' :: rest) =
      (ofText rest).push ((Statement.prelude before text).enclosing b) b.forest false := by
  have happ : before ++ text ++ '\x7b' :: inner ++ '\x7d' :: rest =
      before ++ text ++ ['\x7b'] ++ (inner ++ '\x7d' :: rest) := by simp
  rw [happ, ofText_of_spells (.opening hb (ht.congr _)), hinner]
  rfl

end Nesting

namespace Block

open Nesting

theorem Legible.all_after {stop : Text} {b : Block} (h : b.Legible stop) :
    b.after.all isAsciiSpace = true := by
  induction h with
  | blank ha => exact ha
  | comment _ _ _ ih => exact ih
  | statement _ _ _ _ ih => exact ih
  | last _ _ _ hafter _ => exact hafter
  | opening _ _ _ _ _ ih => exact ih

theorem text_push_comment (before text : Text) (b : Block) :
    (b.push ⟨.comment text, { before := before }⟩ .nil false).text =
      before ++ '/' :: '*' :: text ++ ['*', '/'] ++ b.text := by
  simp [text_push, Content.write, Kind.needsSemicolon]

theorem text_push_statement {before text : Text} {c : Content}
    (hc : Statement.body? { before := before, after := text.trailingBlanks } text.trimRight =
      some c) (b : Block) :
    (b.push c .nil true).text = before ++ text ++ [';'] ++ b.text := by
  rw [text_push, Statement.needsSemicolon_of_body? hc, Statement.before_of_body? hc,
    Statement.write_of_body? hc (trimRight_trimRight text)]
  simp [trimRight_append_trailingBlanks]

theorem text_push_last {before text : Text} {c : Content}
    (hc : Statement.body? { before := before } text.trimRight = some c) (after : Text) :
    ((blank after).push c .nil false).text = before ++ text.trimRight ++ after := by
  rw [text_push, Statement.before_of_body? hc,
    Statement.write_of_body? hc (trimRight_trimRight text)]
  simp [blank, Forest.isEmpty]
  rfl

theorem text_push_opening (before text : Text) (inner b : Block) :
    (b.push ((Statement.prelude before text).enclosing inner) inner.forest false).text =
      before ++ text ++ '\x7b' :: inner.text ++ '\x7d' :: b.text := by
  rw [text_push, Statement.write_prelude, Statement.layout_prelude]
  have hbefore : ((Statement.prelude before text).enclosing inner).raws.before = before :=
    Statement.before_prelude before text
  have hsemicolon : ((Statement.prelude before text).enclosing inner).kind.needsSemicolon =
    false := Statement.needsSemicolon_prelude before text
  rw [hbefore, hsemicolon]
  simp [Block.text]

/-- The text of a legible block reads as the block. -/
theorem Legible.ofText_text {stop : Text} {b : Block} (h : b.Legible stop) {rest : Text}
    (hrest : endsBlock rest = true) (hstop : rest.take 1 = stop) :
    Nesting.ofText (b.text ++ rest) = endWith b rest := by
  induction h generalizing rest with
  | blank ha => exact ofText_blank ha hrest
  | comment hb ht _ ih =>
    rw [text_push_comment, List.append_assoc, ofText_of_spells (.comment hb ht),
      ih hrest hstop, ← push_endWith]
    rfl
  | statement hb ht hc _ ih =>
    rw [text_push_statement hc, List.append_assoc, ofText_of_spells (.statement hb (ht.congr _) hc),
      ih hrest hstop, ← push_endWith]
    rfl
  | last hb ht _ hafter hc =>
    rw [text_push_last hc, List.append_assoc,
      ofText_of_spells (.last hb (endsAt_of_take ht hstop) hrest hc), ofText_blank hafter hrest,
      ← push_endWith]
    rfl
  | @opening _ before text inner b hb ht _ _ ihinner ihb =>
    have happ : before ++ text ++ '\x7b' :: inner.text ++ '\x7d' :: b.text ++ rest =
        before ++ text ++ '\x7b' :: inner.text ++ '\x7d' :: (b.text ++ rest) := by simp
    rw [text_push_opening, happ, ofText_opening hb ht (ihinner rfl rfl), ihb hrest hstop,
      push_endWith]

end Block

theorem Nesting.ofText_of_block {t : Text} {b : Block} (h : Block.ofText t = .ok b) :
    Nesting.ofText t = ⟨[], .ok b⟩ := by
  change (Nesting.ofText t).toBlock = .ok b at h
  rcases hn : Nesting.ofText t with ⟨_ | ⟨p, outer⟩, last⟩
  · rw [hn] at h
    rw [← h]
    rfl
  · rw [hn] at h
    cases h

theorem Nesting.legible_of_ofText {t : Text} {b : Block} (h : Block.ofText t = .ok b) :
    b.Legible [] :=
  (reads_ofText t).legible.last b (by rw [ofText_of_block h])

namespace Stylesheet

theorem exists_block_of_parse {source : Text} {s : Stylesheet} (h : parse source = .ok s) :
    ∃ b, Block.ofText source = .ok b ∧ s = ofBlock b := by
  unfold parse at h
  split at h
  · rename_i b hb
    cases h
    exact ⟨b, hb, rfl⟩
  · cases h

theorem exists_parse_of_any {source : Text} {p : Stylesheet → Bool}
    (h : (parse source).toOption.any p = true) : ∃ s, parse source = .ok s ∧ p s = true := by
  cases hs : parse source with
  | error e =>
    rw [hs] at h
    cases h
  | ok s =>
    rw [hs] at h
    exact ⟨s, rfl, h⟩

theorem parse_of_legible {b : Block} (h : b.Legible []) : parse b.text = .ok (ofBlock b) := by
  have hread : Nesting.ofText (b.text ++ []) = Nesting.endWith b [] := h.ofText_text rfl rfl
  rw [List.append_nil] at hread
  have hblock : Block.ofText b.text = .ok b := by
    change (Nesting.ofText b.text).toBlock = .ok b
    rw [hread]
    rfl
  rw [parse, hblock]

theorem isForest_of_parse {source : Text} {s : Stylesheet} (h : parse source = .ok s) :
    s.IsForest := by
  obtain ⟨b, -, rfl⟩ := exists_block_of_parse h
  exact isForest_ofBlock b

theorem toCss_ofBlock (b : Block) : (ofBlock b).toCss = b.text := by
  rw [toCss, contents_root_ofBlock, raws, content_root_ofBlock]
  rfl

end Stylesheet
end UtilityCss
