import UtilityCss.Proofs.Upgrade.Correspondence

/-!
# String literals in an upgrade

The string literals in the values of a stylesheet are the same after an upgrade, in the same order.
Those on lines of their own wrapped may not go on over a line break, after which they would be
indented.
-/
namespace UtilityCss

open Text

def Scan.State.inString (s : Scan.State) : Bool :=
  match s.mode with
  | .quoted _ | .quotedEscape _ => true
  | _ => false

/-- The string literals of the rest of a text, quotes included, where `read` is what has been read
of a literal that has not ended. -/
def literalsFrom (s : Scan.State) (read : Text) : Text → List Text
  | [] => []
  | c :: cs =>
    let read' := if s.inString then read ++ [c] else [c]
    let rest := literalsFrom (s.step c) read' cs
    if s.inString && !(s.step c).inString then read' :: rest else rest

/-- The string literals of a text outside its comments. -/
def literals (t : Text) : List Text := literalsFrom .start [] t

def Kind.literals : Kind → List Text
  | declaration _ value _ => UtilityCss.literals value
  | _ => []

def Stylesheet.literals (s : Stylesheet) : List Text :=
  (s.contents root).kinds.preorder.flatMap Kind.literals

theorem Scan.State.Sane.inString_step_of_isBlank {s : Scan.State} (h : s.Sane) {c : Char}
    (hc : isBlank c = true) : (s.step c).inString = s.inString := by
  have hstar : c ≠ '*' := ne_of_isBlank hc rfl
  have hslash : c ≠ '/' := ne_of_isBlank hc rfl
  have hescape : c ≠ '\\' := ne_of_isBlank hc rfl
  rcases s with ⟨d, mode⟩
  cases mode with
  | code => simp only [State.step, stepCode_of_isBlank _ hc, inString]
  | slash => simp only [State.step, if_neg hstar, stepCode_of_isBlank _ hc, inString]
  | escape => rfl
  | quoted q => simp only [State.step, if_neg hescape, if_neg (ne_of_isQuote hc h), inString]
  | quotedEscape q => rfl
  | comment => simp only [State.step, if_neg hstar, inString]
  | commentStar => simp only [State.step, if_neg hstar, if_neg hslash, inString]

theorem literalsFrom_of_inString_eq_false {s : Scan.State} (h : s.inString = false)
    (read read' t : Text) : literalsFrom s read t = literalsFrom s read' t := by
  cases t with
  | nil => rfl
  | cons c t => simp only [literalsFrom, h, Bool.false_eq_true, if_false, Bool.false_and]

/-- Blanks end no literal. -/
theorem literalsFrom_append {s : Scan.State} (hs : s.Sane) {u : Text}
    (hu : u.isBlankText = true) (read t : Text) :
    literalsFrom s read (u ++ t) =
      literalsFrom (s.run u) (if s.inString then read ++ u else []) t := by
  induction u generalizing s read with
  | nil =>
    cases hstring : s.inString with
    | true => simp
    | false => exact literalsFrom_of_inString_eq_false hstring _ _ _
  | cons c u ih =>
    simp only [isBlankText, List.all_cons, Bool.and_eq_true] at hu
    have hstep := hs.inString_step_of_isBlank hu.1
    rw [List.cons_append, literalsFrom, hstep, Bool.and_not_self, if_neg Bool.false_ne_true,
      ih (hs.step c) hu.2, hstep, Scan.State.run_cons]
    cases s.inString <;> simp

/-- Literals without line breaks are the same with other blanks after line breaks. -/
theorem literalsFrom_respaced {s : Scan.State} (hs : s.Sane) {t t' : Text} (h : Respaced t t')
    {read read' : Text} (hread : read = read' ∨ '\n' ∈ read)
    (hline : ∀ l ∈ literalsFrom s read t, '\n' ∉ l) :
    literalsFrom s read' t' = literalsFrom s read t := by
  induction h generalizing s read read' with
  | nil => rfl
  | @cons c t t' h ih =>
    simp only [literalsFrom] at hline ⊢
    have hread' : (if s.inString then read ++ [c] else [c]) =
        (if s.inString then read' ++ [c] else [c]) ∨
        '\n' ∈ (if s.inString then read ++ [c] else [c]) := by
      rcases hread with rfl | hmem
      · exact .inl rfl
      · cases s.inString with
        | true => exact .inr (List.mem_append_left _ hmem)
        | false => exact .inl rfl
    cases hclose : s.inString && !(s.step c).inString with
    | false =>
      rw [hclose] at hline
      exact ih (hs.step c) hread' hline
    | true =>
      rw [hclose, if_pos rfl, List.forall_mem_cons] at hline
      have hsame := hread'.resolve_right hline.1
      rw [if_pos rfl, if_pos rfl, ← hsame, ih (hs.step c) (.inl rfl) hline.2]
  | @line u u' t t' hu hu' _ _ h ih =>
    -- A literal that goes on over the line break is never ended.
    have hnewline : ∀ v : Text, v.isBlankText = true →
        isBlankText ('\n' :: v) = true := fun v hv => hv
    have hrun : ∀ v : Text, v.isBlankText = true → s.run ('\n' :: v) = s.step '\n' :=
      fun v hv => hs.run_newline hv
    rw [← List.cons_append, ← List.cons_append] at *
    rw [literalsFrom_append hs (hnewline u hu), hrun u hu] at hline ⊢
    rw [literalsFrom_append hs (hnewline u' hu'), hrun u' hu']
    refine ih (hs.step '\n') ?_ hline
    cases s.inString with
    | true => exact .inr (by simp)
    | false => exact .inl rfl

theorem literals_respaced {t t' : Text} (h : Respaced t t')
    (hline : ∀ l ∈ literals t, '\n' ∉ l) : literals t' = literals t :=
  literalsFrom_respaced (s := .start) trivial h (.inl rfl) hline

theorem Kind.Respaced.literals_eq {k k' : Kind} (h : k.Respaced k')
    (hline : ∀ l ∈ k.literals, '\n' ∉ l) : k.literals = k'.literals := by
  cases h with
  | declaration _ _ hvalue => exact (literals_respaced hvalue hline).symm
  | _ => rfl

namespace Stylesheet

variable {s : Stylesheet}

theorem literals_trees_append (a b : List NodeId) :
    ((s.trees (a ++ b)).map s.content).kinds.preorder.flatMap Kind.literals =
      ((s.trees a).map s.content).kinds.preorder.flatMap Kind.literals ++
        ((s.trees b).map s.content).kinds.preorder.flatMap Kind.literals := by
  simp only [Forest.kinds, Forest.preorder_map, preorder_trees_append, List.map_append,
    List.flatMap_append]

theorem literals_trees_cons {id : NodeId} {rest : Forest Content} {ids : List NodeId} {c : Content}
    (hc : c.kind.literals = (s.content id).kind.literals)
    (hrest : rest.kinds.preorder.flatMap Kind.literals =
      ((s.trees ids).map s.content).kinds.preorder.flatMap Kind.literals) :
    (Forest.cons c (s.contents id) rest).kinds.preorder.flatMap Kind.literals =
      ((s.trees (id :: ids)).map s.content).kinds.preorder.flatMap Kind.literals := by
  simp only [trees_cons, Forest.kinds, Forest.map, Forest.preorder, List.flatMap_cons,
    List.flatMap_append, hc, contents] at hrest ⊢
  rw [hrest]

theorem WellPlaced.literals_layeredForest {cs : List Change} (h : s.WellPlaced cs) :
    (s.layeredForest cs).kinds.preorder.flatMap Kind.literals =
      ((s.trees (cs.flatMap Change.ids)).map s.content).kinds.preorder.flatMap Kind.literals := by
  induction h with
  | nil => rfl
  | keep _ ih => exact literals_trees_cons rfl ih
  | @tag id layer cs hid _ ih =>
    obtain ⟨r, hr⟩ := exists_atRule_of_importing hid
    refine literals_trees_cons ?_ ih
    rw [Content.tagged, hr]
    rfl
  | @wrap layer first more cs _ _ ih =>
    have hwrapper : (wrapperContent layer (s.raws first).before).kind.literals = [] := rfl
    rw [List.flatMap_cons, literals_trees_append, ← ih]
    simp only [layeredForest, Forest.kinds, Forest.map, Forest.preorder, List.flatMap_cons,
      List.flatMap_append, hwrapper, List.nil_append]
    rfl

end Stylesheet

open Stylesheet

/-- An upgrade changes no string literal in a value. -/
theorem upgrade_literals {source out : Text} {s : Stylesheet} (hs : parse source = .ok s)
    (hout : upgrade source = .ok out) (hwrapped : ∀ f ∈ s.wrappedRuns s.changes, f.Indentable)
    (hline : ∀ f ∈ s.wrappedRuns s.changes, ∀ k ∈ f.kinds.preorder, ∀ l ∈ k.literals, '\n' ∉ l) :
    ∃ s', parse out = .ok s' ∧ s'.literals = s.literals := by
  obtain ⟨s₀, hs₀, rfl⟩ := upgrade_eq_ok_iff.mp hout
  obtain rfl : s = s₀ := Except.ok.inj (hs.symm.trans hs₀)
  have htagged : ∀ r k, (Kind.atRule r).Respaced k → (Kind.atRule r).literals = k.literals := by
    intro r k h
    cases h
    rfl
  obtain ⟨s', hs', hkinds⟩ := exists_parse_layered (R := fun k k' => k.literals = k'.literals)
    (fun _ => rfl) htagged hs
    fun f hf => ⟨hwrapped f hf, fun k hk _ h => h.literals_eq (hline f hf k hk)⟩
  refine ⟨s', hs', ?_⟩
  have hforest := isForest_of_parse hs
  have hmap := congrArg Forest.preorder (hkinds.map_eq fun _ _ h => h)
  have hlayered := s.wellPlaced_changes.literals_layeredForest
  rw [Forest.preorder_map, Forest.preorder_map, hforest.contents_layered] at hmap
  rw [flatMap_ids_changes, ← hforest.below_eq_trees] at hlayered
  rw [Stylesheet.literals, Stylesheet.literals, List.flatMap_def, ← hmap, ← List.flatMap_def,
    hlayered, contents]

/-- Every literal is found again, also where lines are indented. -/
theorem upgrade_literals_of_lines :
    ∃ s out s', parse "@tailwind base;a\x7bb:'x'\n'y'\x7d@import z;".toList = .ok s ∧
      upgrade "@tailwind base;a\x7bb:'x'\n'y'\x7d@import z;".toList = .ok out ∧
      (∀ f ∈ s.wrappedRuns s.changes, f.Indentable) ∧
      (∀ f ∈ s.wrappedRuns s.changes, ∀ k ∈ f.kinds.preorder, ∀ l ∈ k.literals, '\n' ∉ l) ∧
      parse out = .ok s' ∧ s'.literals = s.literals := by
  have hany : (parse "@tailwind base;a\x7bb:'x'\n'y'\x7d@import z;".toList).toOption.any
      (fun s => (∀ f ∈ s.wrappedRuns s.changes, f.Indentable) ∧
        ∀ f ∈ s.wrappedRuns s.changes, ∀ k ∈ f.kinds.preorder, ∀ l ∈ k.literals, '\n' ∉ l) =
      true := by
    decide +kernel
  obtain ⟨s, hs, hwrapped⟩ := exists_parse_of_any hany
  rw [decide_eq_true_eq] at hwrapped
  have hout := upgrade_eq_ok_iff.mpr ⟨s, hs, rfl⟩
  obtain ⟨s', hs', hliterals⟩ := upgrade_literals hs hout hwrapped.1 hwrapped.2
  exact ⟨s, _, s', hs, hout, hwrapped.1, hwrapped.2, hs', hliterals⟩

/-- A literal that goes on over a line break is indented there. -/
theorem upgrade_indents_literal :
    ∃ s out s', parse "@tailwind base;a\x7bb:'x\\\ny'\x7d@import z;".toList = .ok s ∧
      upgrade "@tailwind base;a\x7bb:'x\\\ny'\x7d@import z;".toList = .ok out ∧
      parse out = .ok s' ∧ s.literals = ["'x\\\ny'".toList] ∧
      s'.literals = ["'x\\\n  y'".toList] ∧ s'.literals ≠ s.literals := by
  have hany : (parse "@tailwind base;a\x7bb:'x\\\ny'\x7d@import z;".toList).toOption.any
      (fun s => s.literals = ["'x\\\ny'".toList] ∧
        (parse s.layered.toCss).toOption.any fun s' => s'.literals = ["'x\\\n  y'".toList]) =
      true := by
    decide +kernel
  obtain ⟨s, hs, hliterals⟩ := exists_parse_of_any hany
  rw [decide_eq_true_eq] at hliterals
  obtain ⟨s', hs', hliterals'⟩ := exists_parse_of_any hliterals.2
  rw [decide_eq_true_eq] at hliterals'
  refine ⟨s, _, s', hs, upgrade_eq_ok_iff.mpr ⟨s, hs, rfl⟩, hs', hliterals.1, hliterals', ?_⟩
  rw [hliterals', hliterals.1]
  decide

end UtilityCss
