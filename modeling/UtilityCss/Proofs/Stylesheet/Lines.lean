import UtilityCss.Proofs.Stylesheet.Recognition

/-!
# Legible trees and the lines they print

A legible block is a sequence of legible trees, of which only the last may be a statement that was
cut short. Printed one per line, indented, legible trees make up a legible block again, although two
of them may be read as one there.
-/
namespace UtilityCss

open Text Event

namespace Block

/-- A tree of a legible block, other than a statement that was cut short. -/
inductive LegibleTree : Content → Forest Content → Prop
  | comment {before text : Text} (hb : before.all isAsciiSpace = true)
      (ht : Scan.ClosesAtEnd text) :
      LegibleTree ⟨.comment text, { before := before }⟩ .nil
  | statement {before text : Text} {c : Content} (hb : before.all isAsciiSpace = true)
      (ht : EndsAt text [';'])
      (hc : Statement.body? { before := before, after := text.trailingBlanks } text.trimRight =
        some c) :
      LegibleTree c .nil
  | opening {before text : Text} {inner : Block} (hb : before.all isAsciiSpace = true)
      (ht : EndsAt text ['\x7b']) (hinner : Legible ['\x7d'] inner) :
      LegibleTree ((Statement.prelude before text).enclosing inner) inner.forest

theorem needsSemicolon_enclosing (before text : Text) (b : Block) :
    ((Statement.prelude before text).enclosing b).kind.needsSemicolon = false :=
  Statement.needsSemicolon_prelude before text

theorem Legible.push_tree {stop : Text} {b : Block} {c : Content} {t : Forest Content}
    (h : LegibleTree c t) (hb : b.Legible stop) :
    (b.push c t c.kind.needsSemicolon).Legible stop := by
  cases h with
  | comment hbefore ht => exact .comment hbefore ht hb
  | statement hbefore ht hc =>
    rw [Statement.needsSemicolon_of_body? hc]
    exact .statement hbefore ht hc hb
  | opening hbefore ht hinner =>
    rw [needsSemicolon_enclosing]
    exact .opening hbefore ht hinner hb

/-- A block whose only statement is cut short by the end of the block. -/
inductive CutShort (stop : Text) (c : Content) : Block → Prop
  | last {before text : Text} (hb : before.all isAsciiSpace = true) (ht : EndsAt text stop)
      (hstop : endsBlock stop = true) (hafter : text.trailingBlanks.all isAsciiSpace = true)
      (hc : Statement.body? { before := before } text.trimRight = some c) :
      CutShort stop c ((Block.blank text.trailingBlanks).push c .nil false)

theorem CutShort.eq_nil {stop : Text} {b : Block} {c d : Content} (h : CutShort stop c b)
    {t rest : Forest Content} (hforest : b.forest = .cons d t rest) : rest = .nil := by
  cases h
  cases hforest
  rfl

theorem CutShort.children_eq_nil {stop : Text} {b : Block} {c d : Content} (h : CutShort stop c b)
    {t rest : Forest Content} (hforest : b.forest = .cons d t rest) : t = .nil := by
  cases h
  cases hforest
  rfl

/-- The first tree of a legible block either stands before another one or is cut short. -/
theorem Legible.of_cons {stop : Text} {b : Block} (h : b.Legible stop) {c : Content}
    {t rest : Forest Content} (hforest : b.forest = .cons c t rest) :
    (LegibleTree c t ∧
      ∃ b' : Block, b'.Legible stop ∧ b'.forest = rest ∧ b = b'.push c t c.kind.needsSemicolon) ∨
    CutShort stop c b := by
  cases h with
  | blank => cases hforest
  | comment hb ht hrest =>
    cases hforest
    exact .inl ⟨.comment hb ht, _, hrest, rfl, rfl⟩
  | statement hb ht hc hrest =>
    cases hforest
    refine .inl ⟨.statement hb ht hc, _, hrest, rfl, ?_⟩
    rw [Statement.needsSemicolon_of_body? hc]
  | last hb ht hstop hafter hc =>
    cases hforest
    exact .inr (.last hb ht hstop hafter hc)
  | opening hb ht hinner hrest =>
    cases hforest
    refine .inl ⟨.opening hb ht hinner, _, hrest, rfl, ?_⟩
    rw [needsSemicolon_enclosing]

theorem text_push_tree (c : Content) (t : Forest Content) (b : Block) :
    (b.push c t c.kind.needsSemicolon).text =
      c.raws.before ++ c.write (render c.layout t) ++
        (if c.kind.needsSemicolon then [';'] else []) ++ b.text := by
  rw [text_push]
  cases c.kind.needsSemicolon <;> simp

end Block

namespace Outline

theorem of_stepStatement_semicolon {j k : Nat} {s : Scan.State} {st : Standing}
    (h : stepStatement j s st ';' = some ⟨k, .between⟩) :
    s.stopsAt ';' = true ∧ st = .sound ∧ j = k := by
  unfold stepStatement at h
  split_ifs at h with hstop hopen hst hsemi
  · cases hopen
  · cases h
    exact ⟨hstop, not_not.mp hst, rfl⟩
  · exact absurd rfl hsemi
  · cases h

/-- A semicolon ends a sound statement that a blank before it would let it end, unless the blank is
escaped: then the statement goes on. -/
theorem joined_of_stopsAt {s : Scan.State} (hs : s.Sane) {c : Char} (hc : isBlank c = true)
    (hstop : (s.step c).stopsAt ';' = true) (k : Nat) :
    ∃ r, stepStatement k s .sound ';' = some r ∧ State.Joined ⟨k, .between⟩ r := by
  obtain ⟨hfault, hdepth⟩ := Scan.State.fault?_of_stopsAt hstop
  have hnone := Scan.State.Sane.fault?_of_step hs hc hfault
  rw [Scan.State.step_of_fault?_eq_none hnone hc] at hdepth
  rcases s with ⟨d, mode⟩
  cases hdepth
  cases mode with
  | code => exact ⟨_, rfl, .same _⟩
  | slash => exact ⟨_, rfl, .same _⟩
  | escape => exact ⟨_, rfl, .between k⟩
  | quoted q => cases hnone
  | quotedEscape q => cases hnone
  | comment => cases hnone
  | commentStar => cases hnone

/-- A semicolon moved to where blanks stood before it ends the statement, unless a backslash stands
there: then the statement goes on. -/
theorem joined_of_blanks {p : State} (hp : p.Sane) {blanks : Text}
    (hblanks : blanks.all isAsciiSpace = true) {k : Nat}
    (h : p.run (blanks ++ [';']) = some ⟨k, .between⟩) :
    ∃ r, p.step ';' = some r ∧ State.Joined ⟨k, .between⟩ r := by
  cases blanks with
  | nil =>
    rw [List.nil_append, State.run_singleton] at h
    exact ⟨_, h, .same _⟩
  | cons c blanks =>
    rw [List.all_cons, Bool.and_eq_true] at hblanks
    have hblank := isBlank_of_isAsciiSpace hblanks.1
    obtain ⟨p', hstep, hsettled⟩ := hp.step_of_isAsciiSpace hblanks.1
    rw [List.cons_append, State.run_cons_of_step hstep,
      State.run_append_of_run (hsettled.run hblanks.2), State.run_singleton] at h
    have hstar : c ≠ '*' := ne_of_isBlank hblank rfl
    rcases p with ⟨j, phase⟩
    cases phase with
    | between =>
      rw [(State.settled_between j).step c hblanks.1] at hstep
      cases hstep
      cases h
    | slash =>
      simp only [State.step, if_neg hstar, stepStatement_of_isBlank _ _ _ hblank] at hstep
      cases hstep
      cases Standing.eq_sound_of_next hblank (of_stepStatement_semicolon h).2.1
    | comment =>
      simp only [State.step, if_neg hstar] at hstep
      cases hstep
      cases h
    | commentStar =>
      have hslash : c ≠ '/' := ne_of_isBlank hblank rfl
      simp only [State.step, if_neg hslash, if_neg hstar] at hstep
      cases hstep
      cases h
    | statement s st =>
      simp only [State.step, stepStatement_of_isBlank _ _ _ hblank] at hstep
      cases hstep
      obtain ⟨hstop, hsound, rfl⟩ := of_stepStatement_semicolon h
      rw [Standing.eq_sound_of_next hblank hsound]
      exact joined_of_stopsAt hp hblank hstop j

/-- A tree of its own text leaves nothing open, its last statement ended by a semicolon right after
it. -/
theorem run_line {c : Content} {t : Forest Content} (h : Block.LegibleTree c t) (inner : Text)
    (hinner : inner = render c.layout t) (hblanks : AsciiBlanks (c.write inner)) (k : Nat) :
    ∃ r, State.run ⟨k, .between⟩
        (if c.kind.needsSemicolon then trimRight (c.write inner) ++ [';'] else c.write inner) =
      some r ∧ State.Joined ⟨k, .between⟩ r := by
  cases h with
  | @comment before text hb ht =>
    have hrun := run_closesAtEnd ht k []
    exact ⟨_, hrun, .same _⟩
  | @statement before text _ hb ht hc =>
    rw [Statement.write_of_body? hc (trimRight_trimRight text),
      trimRight_append_trailingBlanks] at hblanks
    rw [Statement.needsSemicolon_of_body? hc, if_pos rfl,
      Statement.write_of_body? hc (trimRight_trimRight text), trimRight_append_trailingBlanks]
    have hrun := run_semicolon ht hblanks hc k
    rw [← trimRight_append_trailingBlanks text, List.append_assoc, State.run_append] at hrun
    obtain ⟨p, hp, hrest⟩ := Option.bind_eq_some_iff.mp hrun
    have htrailing : text.trailingBlanks.all isAsciiSpace = true := by
      rw [← trimRight_append_trailingBlanks text, asciiBlanks_append] at hblanks
      exact hblanks.2.all_isAsciiSpace (isBlankText_trailingBlanks text)
    obtain ⟨r, hr, hjoined⟩ :=
      joined_of_blanks ((State.settled_between k).sane.run hp) htrailing hrest
    refine ⟨r, ?_, hjoined⟩
    rw [State.run_append_of_run hp, State.run_singleton, hr]
  | @opening before text b hb ht hlegible =>
    rw [Statement.layout_prelude] at hinner
    have hwrite : ((Statement.prelude before text).enclosing b).write inner =
        text ++ ['\x7b'] ++ (b.text ++ ['\x7d']) := by
      rw [Statement.write_prelude, hinner, Block.text]
      simp
    rw [hwrite] at hblanks ⊢
    rw [Block.needsSemicolon_enclosing, if_neg Bool.false_ne_true,
      State.run_append_of_run (run_opening ht k)]
    simp only [asciiBlanks_append] at hblanks
    exact ⟨_, run_legible hlegible rfl hblanks.2.1 k, .same _⟩

end Outline

def Forest.OfLegible : Forest Content → Prop
  | .nil => True
  | .cons c t rest => Block.LegibleTree c t ∧ rest.OfLegible

def Forest.LegibleTrees : Forest Content → Prop
  | .nil => True
  | .cons c t rest =>
    Block.LegibleTree c t ∧ AsciiBlanks (c.write (render c.layout t)) ∧ rest.LegibleTrees

namespace Outline

theorem asciiBlanks_line {needsSemicolon : Bool} {t : Text} (h : AsciiBlanks t) :
    AsciiBlanks (if needsSemicolon then trimRight t ++ [';'] else t) := by
  split_ifs
  · rw [← trimRight_append_trailingBlanks t, asciiBlanks_append] at h
    rw [asciiBlanks_append]
    refine ⟨h.1, fun c hc hblank => ?_⟩
    rw [List.mem_singleton.mp hc] at hblank
    cases hblank
  · exact h

theorem asciiBlanks_indentLine {line : Text} (h : AsciiBlanks line) :
    AsciiBlanks (indentLine line) := by
  unfold indentLine
  split_ifs
  · intro c hc
    cases hc
  · exact asciiBlanks_cons.mpr ⟨fun _ => rfl, asciiBlanks_cons.mpr ⟨fun _ => rfl, h⟩⟩

theorem asciiBlanks_intercalate_indentLine {lines : List Text}
    (h : AsciiBlanks (['\n'].intercalate lines)) :
    AsciiBlanks (['\n'].intercalate (lines.map indentLine)) := by
  induction lines with
  | nil => exact h
  | cons line rest ih =>
    cases rest with
    | nil =>
      rw [List.intercalate_singleton] at h
      rw [List.map_singleton, List.intercalate_singleton]
      exact asciiBlanks_indentLine h
    | cons next rest =>
      rw [List.intercalate_cons_cons, asciiBlanks_append, asciiBlanks_append] at h
      rw [List.map_cons, List.map_cons, List.intercalate_cons_cons, asciiBlanks_append,
        asciiBlanks_append, ← List.map_cons]
      exact ⟨⟨asciiBlanks_indentLine h.1.1, h.1.2⟩, ih h.2⟩

theorem asciiBlanks_indent {t : Text} (h : AsciiBlanks t) : AsciiBlanks (indent t) := by
  apply asciiBlanks_intercalate_indentLine
  rwa [List.intercalate_splitOn '\n']

/-- Trees on lines of their own leave nothing open, whether or not a statement goes on. -/
theorem run_lines {f : Forest Content} (h : f.LegibleTrees) {k : Nat} {r : State}
    (hr : State.Joined ⟨k, .between⟩ r) :
    ∃ r', r.run (render .lines f) = some r' ∧ State.Joined ⟨k, .between⟩ r' := by
  induction f generalizing r with
  | nil => exact ⟨r, rfl, hr⟩
  | cons c t rest _ ih =>
    obtain ⟨htree, hblanks, hrest⟩ := h
    obtain ⟨p, hp, hjoined⟩ := run_line htree _ rfl hblanks k
    obtain ⟨p', hp', hjoined'⟩ := hr.run hp
    obtain ⟨r', hrun, hlast⟩ := ih hrest (hjoined.trans hjoined')
    refine ⟨r', ?_, hlast⟩
    rw [render, Content.writeLine, List.cons_append,
      State.run_cons_of_step (hr.settled.step '\n' rfl), State.run_append,
      hr.settled.run_indent (asciiBlanks_line hblanks), hp', Option.bind_some, hrun]

theorem asciiBlanks_lines {f : Forest Content} (h : f.LegibleTrees) :
    AsciiBlanks (render .lines f) := by
  induction f with
  | nil =>
    intro c hc
    cases hc
  | cons c t rest _ ih =>
    obtain ⟨-, hblanks, hrest⟩ := h
    rw [render, Content.writeLine, List.cons_append, asciiBlanks_cons, asciiBlanks_append]
    exact ⟨fun _ => rfl, asciiBlanks_indent (asciiBlanks_line hblanks), ih hrest⟩

/-- Between braces, legible trees on lines of their own are a legible block. -/
theorem exists_legible_lines {f : Forest Content} (h : f.LegibleTrees) :
    ∃ b : Block, b.Legible ['\x7d'] ∧ b.text = render .lines f ++ ['\n'] := by
  obtain ⟨r, hr, hjoined⟩ := run_lines h (State.Joined.same ⟨0, .between⟩)
  have hblanks : AsciiBlanks (render .lines f ++ ['\n']) := by
    rw [asciiBlanks_append]
    exact ⟨asciiBlanks_lines h, by decide⟩
  have hrun : State.run ⟨0, .between⟩ (render .lines f ++ ['\n']) = some r := by
    rw [State.run_append_of_run hr, State.run_singleton, hjoined.settled.step '\n' rfl]
  cases hjoined with
  | same => exact exists_legible_of_run hblanks hrun rfl trivial
  | between => exact exists_legible_of_run hblanks hrun rfl ⟨rfl, rfl⟩

end Outline
end UtilityCss
