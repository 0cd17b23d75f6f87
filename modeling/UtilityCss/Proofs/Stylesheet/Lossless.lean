import UtilityCss.Proofs.Stylesheet.Legible

/-!
# Printing what was parsed

A source falls into the pieces that its events take, one after the other. The parsed stylesheet
prints every piece as it is, except that a stray semicolon and the blanks before it are left out.
What it prints is parsed as the same stylesheet again.
-/
namespace UtilityCss

open Text Event

def Event.isStray : Event → Bool
  | .stray _ => true
  | _ => false

/-- A piece of a source: the text of an event, or a stray semicolon with the blanks before it. -/
inductive Piece
  | kept (text : Text)
  | stray (blanks : Text)
  deriving DecidableEq, Repr

namespace Piece

def source : Piece → Text
  | kept text => text
  | stray blanks => blanks ++ [';']

def printed : Piece → Text
  | kept text => text
  | stray _ => []

def all (source : Text) : List Piece :=
  match _h : first source with
  | .event (.stray before) rest => .stray before :: all rest
  | .event _ rest => .kept (source.take (source.length - rest.length)) :: all rest
  | _ => [.kept source]
termination_by source.length
decreasing_by all_goals exact length_lt_of_first _h

theorem all_of_stray {t before rest : Text} (h : first t = .event (.stray before) rest) :
    all t = .stray before :: all rest := by
  rw [all]
  split
  · rename_i heq
    rw [h] at heq
    cases heq
    rfl
  · rename_i hstray heq
    rw [h] at heq
    cases heq
    exact absurd rfl (hstray before)
  · rename_i hstray hevent
    exact absurd h (hstray before rest)

theorem all_of_event {t rest : Text} {e : Event} (h : first t = .event e rest)
    (he : e.isStray = false) :
    all t = .kept (t.take (t.length - rest.length)) :: all rest := by
  rw [all]
  split
  · rename_i heq
    rw [h] at heq
    cases heq
    cases he
  · rename_i heq
    rw [h] at heq
    cases heq
    rfl
  · rename_i hstray hevent
    exact absurd h (hevent e rest)

theorem all_of_finish {t after : Text} (h : first t = .finish after) : all t = [.kept t] := by
  rw [all]
  split
  · rename_i heq
    rw [h] at heq
    cases heq
  · rename_i heq
    rw [h] at heq
    cases heq
  · rfl

theorem all_of_fault {t : Text} {f : LocatedFault} (h : first t = .fault f) :
    all t = [.kept t] := by
  rw [all]
  split
  · rename_i heq
    rw [h] at heq
    cases heq
  · rename_i heq
    rw [h] at heq
    cases heq
  · rfl

theorem all_of_spells {x rest : Text} {e : Event} (h : Spells x e rest)
    (he : e.isStray = false) : all (x ++ rest) = .kept x :: all rest := by
  rw [all_of_event (first_of_spells h) he]
  simp

theorem all_of_spells_stray {x rest : Text} {e : Event} (h : Spells x e rest)
    (he : e.isStray = true) :
    ∃ before, e = .stray before ∧ x = before ++ [';'] ∧ before.all isAsciiSpace = true ∧
      all (x ++ rest) = .stray before :: all rest := by
  cases h with
  | stray hb => exact ⟨_, rfl, rfl, hb, all_of_stray (first_of_spells (.stray hb))⟩
  | _ => cases he

/-- The pieces make up the source, and only ASCII spaces stand before a stray semicolon. -/
theorem flatMap_source_all (t : Text) :
    (all t).flatMap source = t ∧
      ∀ before, .stray before ∈ all t → before.all isAsciiSpace = true := by
  induction hlen : t.length using Nat.strong_induction_on generalizing t with
  | _ n ih =>
    cases h : first t with
    | finish after => simp [all_of_finish h, source]
    | fault f => simp [all_of_fault h, source]
    | event e rest =>
      have hlt := length_lt_of_first h
      obtain ⟨x, rfl, hx⟩ := spells_of_first h
      obtain ⟨hsource, hspace⟩ := ih _ (hlen ▸ hlt) rest rfl
      cases he : e.isStray with
      | true =>
        obtain ⟨before, -, rfl, hb, hall⟩ := all_of_spells_stray hx he
        rw [hall, List.flatMap_cons, hsource]
        refine ⟨rfl, fun b hmem => ?_⟩
        rcases List.mem_cons.mp hmem with heq | hmem
        · cases heq
          exact hb
        · exact hspace b hmem
      | false =>
        rw [all_of_spells hx he, List.flatMap_cons, hsource]
        refine ⟨rfl, fun b hmem => ?_⟩
        rcases List.mem_cons.mp hmem with heq | hmem
        · cases heq
        · exact hspace b hmem

end Piece

namespace Nesting

def text (n : Nesting) : Except LocatedFault Text :=
  n.last.map fun b => n.closed.flatMap (fun p => p.1.text ++ ['\x7d']) ++ b.text

def current? (n : Nesting) : Option Block :=
  match n.closed with
  | (b, _) :: _ => some b
  | [] => n.last.toOption

theorem text_push {n : Nesting} {c : Content} {t : Forest Content} {terminated : Bool} {x y : Text}
    (hx : ∀ b ∈ n.current?, (b.push c t terminated).text = x ++ b.text)
    (h : (n.push c t terminated).text = .ok y) : ∃ z, n.text = .ok z ∧ y = x ++ z := by
  rcases n with ⟨_ | ⟨⟨b, place⟩, outer⟩, _ | b'⟩
  · cases h
  · cases h
    exact ⟨b'.text, rfl, hx b' rfl⟩
  · cases h
  · cases h
    refine ⟨_, rfl, ?_⟩
    simp [push, hx b rfl]

theorem text_enclose {n : Nesting} {before text y : Text} {place : Text}
    (h : (n.enclose (Statement.prelude before text) place).text = .ok y) :
    ∃ z, n.text = .ok z ∧ y = before ++ text ++ ['\x7b'] ++ z := by
  rcases n with ⟨_ | ⟨⟨b, p⟩, outer⟩, last⟩
  · cases last <;> cases h
  · have hx : ∀ b' ∈ Nesting.current? ⟨outer, last⟩,
        (b'.push ((Statement.prelude before text).enclosing b) b.forest false).text =
          (before ++ text ++ '\x7b' :: b.text ++ ['\x7d']) ++ b'.text := by
      intro b' _
      rw [Block.text_push_opening]
      simp
    obtain ⟨z, hz, rfl⟩ := text_push hx h
    rcases last with _ | b'
    · cases hz
    · cases hz
      refine ⟨_, rfl, ?_⟩
      simp

theorem current?_of_isBlankText {blanks rest : Text} (hblank : blanks.isBlankText = true)
    (hrest : endsBlock rest = true) :
    ∀ b ∈ (ofText (blanks ++ rest)).current?, b = Block.blank blanks := by
  intro b hb
  rcases first_of_isBlankText hblank hrest with hspace | ⟨f, hf⟩
  · rw [ofText_blank hspace hrest] at hb
    cases rest <;> cases hb <;> rfl
  · rw [ofText_of_fault hf] at hb
    cases hb

/-- What an event takes of a text is printed before everything else. -/
theorem text_before {x rest y : Text} {e : Event} (h : Spells x e rest) (he : e.isStray = false)
    (hy : ((ofText rest).before e).text = .ok y) :
    ∃ z, (ofText rest).text = .ok z ∧ y = x ++ z := by
  cases h with
  | comment hb ht => exact text_push (fun b _ => Block.text_push_comment ..) hy
  | statement hb ht hc => exact text_push (fun b _ => Block.text_push_statement hc b) hy
  | @last _ text _ c hb ht hstop hc =>
    refine text_push (fun b hcurrent => ?_) hy
    rw [current?_of_isBlankText (isBlankText_trailingBlanks text) hstop b hcurrent,
      Block.text_push_last hc, Block.text_blank]
  | opening hb ht => exact text_enclose hy
  | @closing before _ hb =>
    simp only [Nesting.before, text] at hy
    rcases hlast : (ofText rest).last with f | b
    · rw [hlast] at hy
      cases hy
    · rw [hlast] at hy
      cases hy
      refine ⟨(ofText rest).closed.flatMap (fun p => p.1.text ++ ['\x7d']) ++ b.text, ?_, ?_⟩
      · rw [text, hlast]
        rfl
      · simp [Block.text_blank]
  | stray => cases he

/-- Printing leaves out the stray pieces and nothing else. -/
theorem Reads.text_eq {t y : Text} {n : Nesting} (h : Reads t n) (hy : n.text = .ok y) :
    (Piece.all t).flatMap Piece.printed = y := by
  induction h generalizing y with
  | @finish after ha =>
    cases hy
    rw [Piece.all_of_finish (first_of_isAsciiSpace ha)]
    simp [Piece.printed, Block.text_blank]
  | fault => cases hy
  | @event x rest e n hx hrest ih =>
    cases he : e.isStray with
    | true =>
      obtain ⟨before, rfl, rfl, -, hall⟩ := Piece.all_of_spells_stray hx he
      rw [hall, List.flatMap_cons, ih hy]
      rfl
    | false =>
      rw [hrest.eq] at hy ih
      obtain ⟨z, hz, rfl⟩ := text_before hx he hy
      rw [Piece.all_of_spells hx he, List.flatMap_cons, ih hz]
      rfl

end Nesting

namespace Stylesheet

theorem toCss_of_parse {source : Text} {s : Stylesheet} (h : parse source = .ok s) :
    s.toCss = (Piece.all source).flatMap Piece.printed := by
  obtain ⟨b, hb, rfl⟩ := exists_block_of_parse h
  rw [toCss_ofBlock]
  refine (Nesting.Reads.text_eq (Nesting.reads_ofText source) ?_).symm
  rw [Nesting.ofText_of_block hb]
  rfl

/-- A parsed stylesheet prints its source without the stray semicolons, each of which goes together
with the ASCII spaces before it. A source that has none is printed as it is. -/
theorem toCss_parse_lossless {source : Text} {s : Stylesheet} (h : parse source = .ok s) :
    (Piece.all source).flatMap Piece.source = source ∧
      s.toCss = (Piece.all source).flatMap Piece.printed ∧
      (∀ before, .stray before ∈ Piece.all source → before.all isAsciiSpace = true) ∧
      ((∀ before, .stray before ∉ Piece.all source) → s.toCss = source) := by
  obtain ⟨hsource, hspace⟩ := Piece.flatMap_source_all source
  have hcss := toCss_of_parse h
  refine ⟨hsource, hcss, hspace, fun hnone => ?_⟩
  have hsame : ∀ p ∈ Piece.all source, p.printed = p.source := by
    intro p hp
    cases p with
    | kept text => rfl
    | stray before => exact absurd hp (hnone before)
  calc s.toCss = (Piece.all source).flatMap Piece.printed := hcss
    _ = (Piece.all source).flatMap Piece.source := List.flatMap_congr hsame
    _ = source := hsource

theorem toCss_parse_lossless_of_stray :
    ∃ s, parse "a\x7bb:c; ;\x7d".toList = .ok s ∧ s.toCss = "a\x7bb:c;\x7d".toList := by
  cases h : parse "a\x7bb:c; ;\x7d".toList with
  | error e =>
    have hok : (parse "a\x7bb:c; ;\x7d".toList).toOption.isSome = true := by cbv
    rw [h] at hok
    cases hok
  | ok s =>
    refine ⟨s, rfl, ?_⟩
    rw [(toCss_parse_lossless h).2.1]
    cbv

/-- What a parsed stylesheet prints is parsed as that stylesheet, number by number: the semicolons
that were left out had no part in it. -/
theorem parse_toCss {source : Text} {s : Stylesheet} (h : parse source = .ok s) :
    parse s.toCss = .ok s := by
  obtain ⟨b, hb, rfl⟩ := exists_block_of_parse h
  have hlegible := Nesting.legible_of_ofText hb
  rw [toCss_ofBlock, parse_of_legible hlegible]

theorem parse_toCss_of_stray :
    ∃ s, parse "a\x7bb : c ; ;@x\x7d /**/ ;".toList = .ok s ∧
      s.toCss = "a\x7bb : c ;@x\x7d /**/".toList ∧ parse s.toCss = .ok s := by
  have hok : ((parse "a\x7bb : c ; ;@x\x7d /**/ ;".toList).toOption.map toCss) =
      some "a\x7bb : c ;@x\x7d /**/".toList := by cbv
  cases h : parse "a\x7bb : c ; ;@x\x7d /**/ ;".toList with
  | error e =>
    rw [h] at hok
    cases hok
  | ok s =>
    rw [h] at hok
    exact ⟨s, rfl, Option.some.inj hok, parse_toCss h⟩

end Stylesheet
end UtilityCss
