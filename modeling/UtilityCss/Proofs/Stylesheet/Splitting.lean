import UtilityCss.Proofs.Stylesheet.Tracing

/-!
# Where the parts of a statement are cut

A statement ends at a terminator outside its comments, strings and escapes. Its parts are cut at
characters that are looked for without regard to these tokens, so a cut may fall within one. Here is
when that happens.
-/
namespace UtilityCss

namespace Text

/-- The places between the parts of a text, its beginning and its end included. -/
def cuts : List Text → List (Text × Text)
  | [] => [([], [])]
  | part :: parts =>
    ([], (part :: parts).flatten) :: (cuts parts).map fun cut => (part ++ cut.1, cut.2)

theorem isBlank_or_mem_trim {t : Text} {c : Char} (h : c ∈ t) : isBlank c = true ∨ c ∈ t.trim := by
  rw [← trimRight_append_trailingBlanks t, ← leadingBlanks_append_trimLeft t.trimRight,
    List.mem_append, List.mem_append] at h
  rcases h with (h | h) | h
  · exact .inl (List.all_eq_true.mp (isBlankText_leadingBlanks _) c h)
  · exact .inr h
  · exact .inl (List.all_eq_true.mp (isBlankText_trailingBlanks _) c h)

end Text

open Text Event

namespace Scan

/-- Whether the place between two parts of a statement lies within a comment, a string or an
escape. -/
def isWithin (front back : Text) : Bool :=
  match (State.start.run front).mode with
  | .code => false
  | .slash => back.head? = some '*'
  | .escape => !back.isEmpty
  | .quoted _ | .quotedEscape _ | .comment | .commentStar => true

namespace State

theorem isPlain_of_isBlankText {t : Text} (h : t.isBlankText = true) : t.all isPlain = true :=
  List.all_eq_true.mpr fun c hc => isPlain_of_isBlank (List.all_eq_true.mp h c hc)

theorem head?_ne_star_of_isPlain {t : Text} (h : t.all isPlain = true) : t.head? ≠ some '*' := by
  cases t with
  | nil => simp
  | cons c t =>
    rw [List.all_cons, Bool.and_eq_true] at h
    simpa using ne_of_isPlain h.1 rfl

theorem mode_stepCode_of_isPlain (s : State) {c : Char} (hc : isPlain c = true) :
    (s.stepCode c).mode = .code := by
  have hne : ∀ d : Char, isPlain d = false → c ≠ d := fun d => ne_of_isPlain hc
  have hquote : isQuote c = false := by
    simp [isQuote, hne '\x22' rfl, hne '\x27' rfl]
  rw [stepCode, if_neg (hne '\\' rfl), hquote, if_neg Bool.false_ne_true, if_neg (hne '/' rfl)]
  split_ifs <;> rfl

theorem mode_step_of_isPlain {s : State} (h : s.fault? = none) {c : Char}
    (hc : isPlain c = true) : (s.step c).mode = .code := by
  have hstar : c ≠ '*' := ne_of_isPlain hc rfl
  rcases s with ⟨n, mode⟩
  cases mode with
  | code => exact mode_stepCode_of_isPlain _ hc
  | slash =>
    simp only [step, if_neg hstar]
    exact mode_stepCode_of_isPlain _ hc
  | escape => rfl
  | quoted q => cases h
  | quotedEscape q => cases h
  | comment => cases h
  | commentStar => cases h

theorem fault?_of_mode_eq_code {s : State} (h : s.mode = .code) : s.fault? = none := by
  rw [fault?, h]

theorem mode_run_of_isPlain {s : State} (h : s.fault? = none) {t : Text}
    (ht : t.all isPlain = true) (hne : t ≠ []) : (s.run t).mode = .code := by
  induction t generalizing s with
  | nil => exact absurd rfl hne
  | cons c t ih =>
    rw [List.all_cons, Bool.and_eq_true] at ht
    have hstep := mode_step_of_isPlain h ht.1
    rw [run_cons]
    by_cases ht' : t = []
    · rw [ht', run_nil]
      exact hstep
    · exact ih (fault?_of_mode_eq_code hstep) ht.2 ht'

theorem Sane.fault?_of_run_isPlain {s : State} (h : s.Sane) {t : Text}
    (ht : t.all isPlain = true) (hf : (s.run t).fault? = none) : s.fault? = none := by
  induction t generalizing s with
  | nil => exact hf
  | cons c t ih =>
    rw [List.all_cons, Bool.and_eq_true] at ht
    exact h.fault?_of_step_isPlain ht.1 (ih (h.step c) ht.2 hf)

theorem sane_run_start (t : Text) : (start.run t).Sane := Sane.run (s := start) trivial t

theorem fault?_of_inCode {s : State} (h : s.inCode = true) : s.fault? = none := by
  rw [inCode, Bool.or_eq_true, decide_eq_true_eq, decide_eq_true_eq] at h
  rcases h with h | h <;> rw [fault?, h]

theorem inCode_eq_false_iff {s : State} (h : s.fault? = none) :
    s.inCode = false ↔ s.mode = .escape := by
  rcases s with ⟨n, mode⟩
  cases mode with
  | code => simp [inCode]
  | slash => simp [inCode]
  | escape => simp [inCode]
  | quoted q => cases h
  | quotedEscape q => cases h
  | comment => cases h
  | commentStar => cases h

end State

open State

theorem isWithin_nil (back : Text) : isWithin [] back = false := rfl

/-- A place of a statement, not in front of a star, lies within a token exactly if the scan is not
back in code there. -/
theorem isWithin_iff {front back : Text} (hf : (start.run (front ++ back)).fault? = none)
    (hstar : back.head? ≠ some '*') :
    isWithin front back = true ↔ back ≠ [] ∧ (start.run front).inCode = false := by
  have hback : (start.run front).fault? ≠ none → back ≠ [] := by
    rintro hfront rfl
    rw [List.append_nil] at hf
    exact hfront hf
  rw [isWithin]
  generalize start.run front = s at hback ⊢
  rcases s with ⟨n, mode⟩
  cases mode with
  | code => simp [inCode]
  | slash => simp [inCode, hstar]
  | escape => simp [inCode]
  | quoted q => simpa [inCode] using hback (Option.some_ne_none _)
  | quotedEscape q => simpa [inCode] using hback (Option.some_ne_none _)
  | comment => simpa [inCode] using hback (Option.some_ne_none _)
  | commentStar => simpa [inCode] using hback (Option.some_ne_none _)

/-- Where no string and no comment is open, only an escape can be cut. -/
theorem isWithin_iff_escape {front back : Text} (hf : (start.run (front ++ back)).fault? = none)
    (hstar : back.head? ≠ some '*') (hfront : (start.run front).fault? = none) :
    isWithin front back = true ↔ back ≠ [] ∧ (start.run front).mode = .escape := by
  rw [isWithin_iff hf hstar, inCode_eq_false_iff hfront]

theorem inCode_of_isWithin {front between back : Text} (hplain : between.all isPlain = true)
    (hne : between ≠ []) (h : isWithin (front ++ between) back = true) :
    (start.run front).inCode = false := by
  rw [Bool.eq_false_iff]
  intro hcode
  have hmode := mode_run_of_isPlain (fault?_of_inCode hcode) hplain hne
  rw [← run_append] at hmode
  rw [isWithin, hmode] at h
  cases h

end Scan

open Scan State

theorem Event.EndsAt.fault?_run {text rest : Text} (h : EndsAt text rest) :
    (start.run text).fault? = none := by
  cases rest with
  | nil => exact fault?_of_statementFrom h.scan
  | cons c rest => exact (fault?_of_stopsAt (stopsAt_of_statementFrom h.scan)).1

theorem Scan.fault?_run_trimRight {text : Text} (h : (start.run text).fault? = none) :
    (start.run text.trimRight).fault? = none := by
  rw [← trimRight_append_trailingBlanks text, run_append] at h
  exact ((sane_run_start _).fault?_of_run (isBlankText_trailingBlanks text) h).1

namespace Statement

theorem isPlain_of_isImportant {mark : Text} (h : isImportant mark = true) :
    mark.all isPlain = true := by
  rw [isImportant, decide_eq_true_eq] at h
  apply List.all_eq_true.mpr
  intro c hc
  rcases isBlank_or_mem_trim hc with hblank | hmem
  · exact isPlain_of_isBlank hblank
  · have hlower : c.toLower ∈ "important".toList := by
      rw [← h]
      exact List.mem_map_of_mem hmem
    by_contra hplain
    have hspecial : c = '\x22' ∨ c = '\x27' ∨ c = '/' ∨ c = '*' ∨ c = '\\' := by
      simpa [isPlain, isQuote, or_assoc, or_iff_not_imp_left] using hplain
    rcases hspecial with rfl | rfl | rfl | rfl | rfl <;> revert hlower <;> decide

theorem isPlain_splitImportant (value : Text) : (splitImportant value).2.all isPlain = true := by
  unfold splitImportant
  split
  · split
    · rename_i hmark
      rw [List.all_append, List.all_cons,
        isPlain_of_isBlankText (isBlankText_trailingBlanks _), isPlain_of_isImportant hmark]
      rfl
    · rfl
  · rfl

end Statement

namespace Content

/-- The part of a statement up to its first cut. -/
def head (c : Content) : Text :=
  match c.kind with
  | .root => []
  | .atRule r => '@' :: r.name
  | .rule selector => selector
  | .declaration property .. => property
  | .comment text => text

def separation (c : Content) : Text :=
  match c.kind with
  | .atRule _ => c.raws.afterName
  | .declaration .. => c.raws.between
  | _ => []

def tail (c : Content) : Text :=
  match c.kind with
  | .atRule r => r.params
  | .declaration _ value _ => value
  | _ => []

def parts (c : Content) : List Text := [c.head, c.separation, c.tail, c.raws.important]

def lastBlanks (c : Content) : Text := if c.kind.hasBlock then c.raws.between else c.raws.after

/-- Some cut of the statement `text` lies within a token. -/
def CutsToken (c : Content) (text : Text) : Prop :=
  ∃ cut ∈ cuts (c.parts ++ [text.trailingBlanks]), isWithin cut.1 cut.2 = true

instance (c : Content) (text : Text) : Decidable (c.CutsToken text) :=
  inferInstanceAs (Decidable (∃ cut ∈ cuts (c.parts ++ [text.trailingBlanks]), _))

/-- How the parts of `text` come to be cut within a token: the head ends in a comment, a string or
an escape; or a backslash escapes the first character of the mark of importance or of the blanks
behind the last part. -/
inductive Tears (c : Content) (text : Text) : Prop
  | head (hne : c.head ≠ text) (h : (start.run c.head).inCode = false)
  | mark {front : Text} (happ : front ++ c.raws.important = text.trimRight)
      (hne : c.raws.important ≠ []) (h : (start.run front).mode = .escape)
  | blanks (hne : text.trailingBlanks ≠ []) (h : (start.run text.trimRight).mode = .escape)

structure Divides (c : Content) (text : Text) : Prop where
  flatten : c.parts.flatten = text.trimRight
  separation : c.separation.all isPlain = true
  important : c.raws.important.all isPlain = true
  afterHead :
    (c.separation ++ (c.tail ++ (c.raws.important ++ text.trailingBlanks))).head? ≠ some '*'

namespace Divides

variable {c : Content} {text : Text}

theorem flatten_append (h : c.Divides text) :
    (c.parts ++ [text.trailingBlanks]).flatten = text := by
  rw [List.flatten_append, h.flatten, List.flatten_singleton, trimRight_append_trailingBlanks]

theorem head_append (h : c.Divides text) :
    c.head ++ (c.separation ++ (c.tail ++ (c.raws.important ++ text.trailingBlanks))) = text := by
  simpa [parts] using h.flatten_append

/-- Of the five places between the parts, four can lie within a token. -/
theorem cutsToken_iff (h : c.Divides text) (hf : (start.run text).fault? = none) :
    c.CutsToken text ↔
      isWithin c.head (c.separation ++ (c.tail ++ (c.raws.important ++ text.trailingBlanks))) =
          true ∨
        isWithin (c.head ++ c.separation) (c.tail ++ (c.raws.important ++ text.trailingBlanks)) =
          true ∨
        isWithin (c.head ++ (c.separation ++ c.tail)) (c.raws.important ++ text.trailingBlanks) =
          true ∨
        isWithin text.trimRight text.trailingBlanks = true := by
  have hself : isWithin text [] = false := by
    rw [Bool.eq_false_iff, ne_eq, isWithin_iff (by rwa [List.append_nil]) (by simp)]
    simp
  have hflatten : c.head ++ (c.separation ++ (c.tail ++ c.raws.important)) = text.trimRight := by
    simpa [parts] using h.flatten
  have hwhole := h.head_append
  simp [CutsToken, parts, cuts, isWithin_nil, hflatten, hwhole, hself]

theorem isWithin_head_iff (h : c.Divides text) (hf : (start.run text).fault? = none) :
    isWithin c.head (c.separation ++ (c.tail ++ (c.raws.important ++ text.trailingBlanks))) =
        true ↔ c.head ≠ text ∧ (start.run c.head).inCode = false := by
  have hwhole := h.head_append
  rw [isWithin_iff (by rwa [hwhole]) h.afterHead]
  refine and_congr_left fun _ => not_congr ?_
  conv_rhs => rw [← hwhole]
  exact List.self_eq_append_right.symm

theorem isWithin_tail_iff (h : c.Divides text) (hf : (start.run text).fault? = none) :
    isWithin (c.head ++ (c.separation ++ c.tail)) (c.raws.important ++ text.trailingBlanks) =
        true ↔ c.raws.important ++ text.trailingBlanks ≠ [] ∧
      (start.run (c.head ++ (c.separation ++ c.tail))).mode = .escape := by
  have happ : c.head ++ (c.separation ++ c.tail) ++ (c.raws.important ++ text.trailingBlanks) =
      text := by
    simpa using h.head_append
  have hplain : (c.raws.important ++ text.trailingBlanks).all isPlain = true := by
    rw [List.all_append, h.important, isPlain_of_isBlankText (isBlankText_trailingBlanks text)]
    rfl
  rw [← happ] at hf
  have hfront : (start.run (c.head ++ (c.separation ++ c.tail))).fault? = none := by
    rw [run_append] at hf
    exact (sane_run_start _).fault?_of_run_isPlain hplain hf
  exact isWithin_iff_escape hf (head?_ne_star_of_isPlain hplain) hfront

theorem isWithin_trimRight_iff (hf : (start.run text).fault? = none) :
    isWithin text.trimRight text.trailingBlanks = true ↔
      text.trailingBlanks ≠ [] ∧ (start.run text.trimRight).mode = .escape := by
  have hstar := head?_ne_star_of_isPlain
    (isPlain_of_isBlankText (isBlankText_trailingBlanks text))
  refine isWithin_iff_escape ?_ hstar (fault?_run_trimRight hf)
  rwa [trimRight_append_trailingBlanks]

/-- The separation itself is never what goes wrong: a token that it cuts began in the head. -/
theorem cutsToken_iff_tears (h : c.Divides text) (hf : (start.run text).fault? = none) :
    c.CutsToken text ↔ c.Tears text := by
  have hflatten : c.head ++ (c.separation ++ c.tail) ++ c.raws.important = text.trimRight := by
    simpa [parts] using h.flatten
  rw [h.cutsToken_iff hf, isWithin_trimRight_iff hf]
  constructor
  · rintro (hhead | hseparation | htail | ⟨hne, hescape⟩)
    · obtain ⟨hne, hcode⟩ := (h.isWithin_head_iff hf).mp hhead
      exact .head hne hcode
    · by_cases hnil : c.separation = []
      · rw [hnil, List.append_nil] at hseparation
        have hhead := h.isWithin_head_iff hf
        rw [hnil, List.nil_append] at hhead
        obtain ⟨hne, hcode⟩ := hhead.mp hseparation
        exact .head hne hcode
      · refine .head ?_ (inCode_of_isWithin h.separation hnil hseparation)
        intro heq
        have hwhole := h.head_append
        rw [heq, List.append_right_eq_self] at hwhole
        exact hnil (List.append_eq_nil_iff.mp hwhole).1
    · obtain ⟨hne, hescape⟩ := (h.isWithin_tail_iff hf).mp htail
      by_cases hnil : c.raws.important = []
      · rw [hnil, List.nil_append] at hne
        rw [hnil, List.append_nil] at hflatten
        rw [hflatten] at hescape
        exact .blanks hne hescape
      · exact .mark hflatten hnil hescape
    · exact .blanks hne hescape
  · rintro (⟨hne, hcode⟩ | ⟨happ, hne, hescape⟩ | ⟨hne, hescape⟩)
    · exact .inl ((h.isWithin_head_iff hf).mpr ⟨hne, hcode⟩)
    · rw [← hflatten, List.append_cancel_right_eq] at happ
      rw [happ] at hescape
      refine .inr (.inr (.inl ((h.isWithin_tail_iff hf).mpr ⟨?_, hescape⟩)))
      exact fun hnil => hne (List.append_eq_nil_iff.mp hnil).1
    · exact .inr (.inr (.inr ⟨hne, hescape⟩))

theorem enclosing (h : c.Divides text) (b : Block) : (c.enclosing b).Divides text :=
  ⟨h.flatten, h.separation, h.important, h.afterHead⟩

end Divides
end Content

namespace Statement

theorem head?_dropWhile_ne_star {blanks : Text} (hblanks : blanks.isBlankText = true) (t : Text) :
    (t.dropWhile (!endsName ·) ++ blanks).head? ≠ some '*' := by
  have hhead := List.head?_dropWhile_not (!endsName ·) t
  cases hrest : t.dropWhile (!endsName ·) with
  | nil => exact head?_ne_star_of_isPlain (isPlain_of_isBlankText hblanks)
  | cons c rest =>
    rw [hrest] at hhead
    rintro hstar
    cases hstar
    cases hhead

theorem divides_atRule {text t : Text} (ht : text.trimRight = '@' :: t) {raws : Raws}
    (hraws : raws.important = []) (hasBlock : Bool) :
    (atRule raws hasBlock t).Divides text := by
  have happ := leadingBlanks_append_trimLeft (t.dropWhile (!endsName ·))
  have hname : t.takeWhile (!endsName ·) ++ t.dropWhile (!endsName ·) = t :=
    List.takeWhile_append_dropWhile
  constructor
  · rw [ht]
    conv_rhs => rw [← hname, ← happ]
    simp [Content.parts, Content.head, Content.separation, Content.tail, atRule, hraws]
  · exact isPlain_of_isBlankText (isBlankText_leadingBlanks _)
  · change raws.important.all isPlain = true
    rw [hraws]
    rfl
  · change (leadingBlanks _ ++ (trimLeft _ ++ (raws.important ++ text.trailingBlanks))).head? ≠ _
    rw [hraws, List.nil_append, ← List.append_assoc, happ]
    exact head?_dropWhile_ne_star (isBlankText_trailingBlanks text) t

theorem divides_rule {text : Text} {raws : Raws} (hraws : raws.important = []) :
    Content.Divides ⟨.rule text.trimRight, raws⟩ text := by
  constructor
  · simp [Content.parts, Content.head, Content.separation, Content.tail, hraws]
  · rfl
  · change raws.important.all isPlain = true
    rw [hraws]
    rfl
  · change (raws.important ++ text.trailingBlanks).head? ≠ some '*'
    rw [hraws]
    exact head?_ne_star_of_isPlain
      (isPlain_of_isBlankText (isBlankText_trailingBlanks text))

theorem divides_declaration {text property rest : Text}
    (ht : text.trimRight = property ++ ':' :: rest) (raws : Raws) :
    (declaration raws property rest).Divides text := by
  have hproperty := trimRight_append_trailingBlanks property
  have hrest := leadingBlanks_append_trimLeft rest
  have hvalue := splitImportant_append rest.trimLeft
  have hbetween : (property.trailingBlanks ++ ':' :: rest.leadingBlanks).all isPlain = true := by
    rw [List.all_append, List.all_cons,
      isPlain_of_isBlankText (isBlankText_trailingBlanks property),
      isPlain_of_isBlankText (isBlankText_leadingBlanks rest)]
    rfl
  constructor
  · rw [ht]
    conv_rhs => rw [← hproperty, ← hrest, ← hvalue]
    simp [Content.parts, Content.head, Content.separation, Content.tail, declaration]
  · exact hbetween
  · exact isPlain_splitImportant _
  · have hhead := head?_ne_star_of_isPlain hbetween
    intro hstar
    rw [List.head?_append_of_ne_nil _ (by simp [Content.separation, declaration])] at hstar
    exact hhead hstar

theorem divides_of_body? {text : Text} {raws : Raws} {c : Content} (hraws : raws.important = [])
    (h : body? raws text.trimRight = some c) : c.Divides text := by
  unfold body? declaration? at h
  split at h
  · rename_i t ht
    cases h
    exact divides_atRule ht hraws false
  · split at h
    · cases h
    · rename_i property rest hsplit
      split at h <;> cases h
      exact divides_declaration (eq_append_of_splitFirst? hsplit) raws

theorem divides_prelude (before text : Text) : (prelude before text).Divides text := by
  unfold prelude
  split
  · rename_i t ht
    exact divides_atRule ht rfl true
  · exact divides_rule rfl

theorem lastBlanks_of_body? {raws : Raws} {t : Text} {c : Content} (h : body? raws t = some c) :
    c.lastBlanks = raws.after := by
  unfold body? declaration? at h
  split at h
  · cases h
    rfl
  · split at h
    · cases h
    · split at h <;> cases h
      rfl

theorem lastBlanks_prelude (before text : Text) (b : Block) :
    ((prelude before text).enclosing b).lastBlanks = text.trailingBlanks := by
  unfold prelude
  split <;> rfl

theorem Yields.divides {before text rest : Text} {c : Content} (h : Yields before text rest c) :
    c.Divides text := by
  cases h with
  | opening b => exact (divides_prelude before text).enclosing b
  | statement hc => exact divides_of_body? rfl hc
  | last _ hc => exact divides_of_body? rfl hc

theorem Yields.lastBlanks {before text rest : Text} {c : Content} (h : Yields before text rest c)
    (hrest : endsBlock rest = false) : c.lastBlanks = text.trailingBlanks := by
  cases h with
  | opening b => exact lastBlanks_prelude before text b
  | statement hc => exact lastBlanks_of_body? hc
  | last hend =>
    rw [hrest] at hend
    cases hend

end Statement

namespace Stylesheet

/-- The parts of a statement with the blanks behind them are its text, and a cut between them lies
within a token only where the head or an escape is torn. -/
theorem cutsToken_iff_tears_of_parse {source : Text} {s : Stylesheet} (h : parse source = .ok s)
    {es : List Event} {before text rest : Text} (htrace : Trace source es (before ++ text ++ rest))
    (hb : before.all isAsciiSpace = true) (ht : EndsAt text rest) :
    ((s.content (nodeAfter es)).parts ++ [text.trailingBlanks]).flatten = text ∧
      (endsBlock rest = false → (s.content (nodeAfter es)).lastBlanks = text.trailingBlanks) ∧
      ((s.content (nodeAfter es)).CutsToken text ↔ (s.content (nodeAfter es)).Tears text) := by
  have hyields := yields_of_trace h htrace hb ht
  exact ⟨hyields.divides.flatten_append, hyields.lastBlanks,
    hyields.divides.cutsToken_iff_tears ht.fault?_run⟩

/-- An escaped blank in front of a semicolon is cut from its backslash. -/
theorem cutsToken_iff_tears_of_escaped_blank :
    ∃ s, parse "a:b\\ ;".toList = .ok s ∧ (s.content ⟨1⟩).Tears "a:b\\ ".toList := by
  have hany : (parse "a:b\\ ;".toList).toOption.any
      (fun s => (s.content ⟨1⟩).CutsToken "a:b\\ ".toList) = true := by decide +kernel
  obtain ⟨s, hs, hcuts⟩ := exists_parse_of_any hany
  rw [decide_eq_true_eq] at hcuts
  have hparts := @cutsToken_iff_tears_of_parse _ s hs [] [] "a:b\\ ".toList [';'] (.start _) rfl
    ⟨rfl, rfl⟩
  exact ⟨s, hs, hparts.2.2.mp hcuts⟩

/-- The first colon of a declaration may stand in a comment. -/
theorem cutsToken_of_colon_in_comment :
    Scan.statement "a/*:*/b:c".toList = .ok ("a/*:*/b:c".toList, []) ∧
      ∃ s, parse "a/*:*/b:c".toList = .ok s ∧
        s.kind ⟨1⟩ = .declaration "a/*".toList "*/b:c".toList false ∧
        (s.content ⟨1⟩).CutsToken "a/*:*/b:c".toList := by
  have hany : (parse "a/*:*/b:c".toList).toOption.any (fun s =>
      s.kind ⟨1⟩ = .declaration "a/*".toList "*/b:c".toList false ∧
        (s.content ⟨1⟩).CutsToken "a/*:*/b:c".toList) = true := by decide +kernel
  obtain ⟨s, hs, hcuts⟩ := exists_parse_of_any hany
  rw [decide_eq_true_eq] at hcuts
  exact ⟨rfl, s, hs, hcuts⟩

end Stylesheet
end UtilityCss
