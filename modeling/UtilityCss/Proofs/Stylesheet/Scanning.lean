import UtilityCss.Proofs.Text.Trimming
import UtilityCss.Stylesheet.Scan

/-!
# What the scan of a statement depends on

Whether a text is the text of a statement depends on that text and on the character that ends it,
and on nothing that follows.
-/
namespace UtilityCss.Scan

namespace State

def run (s : State) (t : Text) : State := t.foldl step s

def passes : State → Text → Bool
  | _, [] => true
  | s, c :: cs => !s.stopsAt c && (s.step c).passes cs

@[simp] theorem run_nil (s : State) : s.run [] = s := rfl

@[simp] theorem run_cons (s : State) (c : Char) (t : Text) : s.run (c :: t) = (s.step c).run t :=
  rfl

theorem run_append (s : State) (a b : Text) : s.run (a ++ b) = (s.run a).run b := by
  simp [run]

theorem passes_append (s : State) (a b : Text) :
    s.passes (a ++ b) = (s.passes a && (s.run a).passes b) := by
  induction a generalizing s with
  | nil => rfl
  | cons c cs ih => simp only [List.cons_append, passes, ih, run_cons, Bool.and_assoc]

theorem isTerminator_eq_false_of_isBlank {c : Char} (h : Text.isBlank c = true) :
    isTerminator c = false := by
  have hsemi : c ≠ ';' := Text.ne_of_isBlank h rfl
  have hopen : c ≠ '\x7b' := Text.ne_of_isBlank h rfl
  have hclose : c ≠ '\x7d' := Text.ne_of_isBlank h rfl
  simp [isTerminator, hsemi, hopen, hclose]

theorem stopsAt_eq_false_of_isBlank (s : State) {c : Char} (h : Text.isBlank c = true) :
    s.stopsAt c = false := by
  rw [stopsAt, isTerminator_eq_false_of_isBlank h, Bool.and_false]

theorem ne_of_isQuote {c q : Char} (hc : Text.isBlank c = true) (hq : Text.isQuote q = true) :
    c ≠ q := by
  rintro rfl
  simp only [Text.isQuote, Bool.or_eq_true, decide_eq_true_eq] at hq
  rcases hq with hq | hq
  · exact Text.ne_of_isBlank hc rfl hq
  · exact Text.ne_of_isBlank hc rfl hq

theorem stepCode_of_isBlank (s : State) {c : Char} (h : Text.isBlank c = true) :
    s.stepCode c = ⟨s.depth, .code⟩ := by
  have hne : ∀ d : Char, Text.isBlank d = false → c ≠ d := fun d => Text.ne_of_isBlank h
  have hquote : Text.isQuote c = false := by
    simp [Text.isQuote, hne '\x22' rfl, hne '\x27' rfl]
  simp [stepCode, hne '\\' rfl, hquote, hne '/' rfl, hne '(' rfl, hne '[' rfl, hne ')' rfl,
    hne ']' rfl]

theorem run_code_of_isBlankText (d : Nat) {t : Text} (h : t.isBlankText = true) :
    run ⟨d, .code⟩ t = ⟨d, .code⟩ := by
  induction t with
  | nil => rfl
  | cons c cs ih =>
    simp only [Text.isBlankText, List.all_cons, Bool.and_eq_true] at h
    have hstep : step ⟨d, .code⟩ c = ⟨d, .code⟩ := stepCode_of_isBlank _ h.1
    rw [run_cons, hstep, ih h.2]

theorem passes_of_isBlankText (s : State) {t : Text} (h : t.isBlankText = true) :
    s.passes t = true := by
  induction t generalizing s with
  | nil => rfl
  | cons c cs ih =>
    simp only [Text.isBlankText, List.all_cons, Bool.and_eq_true] at h
    simp only [passes, stopsAt_eq_false_of_isBlank s h.1, Bool.not_false, Bool.true_and]
    exact ih _ h.2

/-- Only a quote is waited for as the end of a string. -/
def Sane (s : State) : Prop :=
  match s.mode with
  | .quoted q | .quotedEscape q => Text.isQuote q = true
  | _ => True

theorem sane_stepCode (s : State) (c : Char) : (s.stepCode c).Sane := by
  unfold stepCode
  split_ifs with hescape hquote
  · exact trivial
  · exact hquote
  · exact trivial
  · exact trivial
  · exact trivial
  · exact trivial

theorem Sane.step {s : State} (h : s.Sane) (c : Char) : (s.step c).Sane := by
  rcases s with ⟨d, mode⟩
  cases mode with
  | code => exact sane_stepCode _ c
  | slash =>
    simp only [State.step]
    split_ifs
    · exact trivial
    · exact sane_stepCode _ c
  | escape => exact trivial
  | quoted q =>
    simp only [State.step]
    split_ifs
    · exact h
    · exact trivial
    · exact h
  | quotedEscape q => exact h
  | comment =>
    simp only [State.step]
    split_ifs <;> exact trivial
  | commentStar =>
    simp only [State.step]
    split_ifs <;> exact trivial

/-- A second blank changes nothing more than the first. -/
theorem Sane.step_step {s : State} (h : s.Sane) {c d : Char} (hc : Text.isBlank c = true)
    (hd : Text.isBlank d = true) : (s.step c).step d = s.step c := by
  have hstar : ∀ {a : Char}, Text.isBlank a = true → a ≠ '*' := fun ha =>
    Text.ne_of_isBlank ha rfl
  have hcode : ∀ n, State.step ⟨n, .code⟩ d = ⟨n, .code⟩ := fun n => stepCode_of_isBlank _ hd
  rcases s with ⟨n, mode⟩
  cases mode with
  | code =>
    have hstep : State.step ⟨n, .code⟩ c = ⟨n, .code⟩ := stepCode_of_isBlank _ hc
    rw [hstep, hcode]
  | slash =>
    have hstep : State.step ⟨n, .slash⟩ c = ⟨n, .code⟩ := by
      simp only [State.step, if_neg (hstar hc), stepCode_of_isBlank _ hc]
    rw [hstep, hcode]
  | escape => exact hcode n
  | quoted q =>
    have hstep : ∀ {a : Char}, Text.isBlank a = true →
        State.step ⟨n, .quoted q⟩ a = ⟨n, .quoted q⟩ := by
      intro a ha
      have hescape : a ≠ '\\' := Text.ne_of_isBlank ha rfl
      simp only [State.step, if_neg hescape, if_neg (ne_of_isQuote ha h)]
    rw [hstep hc, hstep hd]
  | quotedEscape q =>
    have hescape : d ≠ '\\' := Text.ne_of_isBlank hd rfl
    simp only [State.step, if_neg hescape, if_neg (ne_of_isQuote hd h)]
  | comment => simp only [State.step, if_neg (hstar hc), if_neg (hstar hd)]
  | commentStar =>
    have hslash : c ≠ '/' := Text.ne_of_isBlank hc rfl
    simp only [State.step, if_neg (hstar hc), if_neg hslash, if_neg (hstar hd)]

def isPlain (c : Char) : Bool := !Text.isQuote c && c ≠ '/' && c ≠ '*' && c ≠ '\\'

theorem isPlain_of_isBlank {c : Char} (h : Text.isBlank c = true) : isPlain c = true := by
  have hne : ∀ d : Char, Text.isBlank d = false → c ≠ d := fun d => Text.ne_of_isBlank h
  simp [isPlain, Text.isQuote, hne '\x22' rfl, hne '\x27' rfl, hne '/' rfl, hne '*' rfl,
    hne '\\' rfl]

theorem ne_of_isPlain {c d : Char} (hc : isPlain c = true) (hd : isPlain d = false) : c ≠ d := by
  rintro rfl
  rw [hc] at hd
  cases hd

theorem Sane.fault?_of_step_isPlain {s : State} (h : s.Sane) {c : Char} (hc : isPlain c = true)
    (hf : (s.step c).fault? = none) : s.fault? = none := by
  have hne : ∀ d : Char, isPlain d = false → c ≠ d := fun d => ne_of_isPlain hc
  have hquote : ∀ {q : Char}, Text.isQuote q = true → c ≠ q := by
    rintro q hq rfl
    simp [isPlain, hq] at hc
  rcases s with ⟨n, mode⟩
  cases mode with
  | code => rfl
  | slash => rfl
  | escape => rfl
  | quoted q =>
    simp only [State.step, if_neg (hne '\\' rfl), if_neg (hquote h)] at hf
    cases hf
  | quotedEscape q => cases hf
  | comment =>
    simp only [State.step, if_neg (hne '*' rfl)] at hf
    cases hf
  | commentStar =>
    simp only [State.step, if_neg (hne '/' rfl), if_neg (hne '*' rfl)] at hf
    cases hf

theorem Sane.fault?_of_step {s : State} (h : s.Sane) {c : Char} (hc : Text.isBlank c = true)
    (hf : (s.step c).fault? = none) : s.fault? = none :=
  h.fault?_of_step_isPlain (isPlain_of_isBlank hc) hf

theorem step_of_fault?_eq_none {s : State} (h : s.fault? = none) {c : Char}
    (hc : Text.isBlank c = true) : s.step c = ⟨s.depth, .code⟩ := by
  have hstar : c ≠ '*' := Text.ne_of_isBlank hc rfl
  rcases s with ⟨n, mode⟩
  cases mode with
  | code => exact stepCode_of_isBlank _ hc
  | slash => simp only [State.step, if_neg hstar, stepCode_of_isBlank _ hc]
  | escape => rfl
  | quoted q => cases h
  | quotedEscape q => cases h
  | comment => cases h
  | commentStar => cases h

theorem Sane.run {s : State} (h : s.Sane) (t : Text) : (s.run t).Sane := by
  induction t generalizing s with
  | nil => exact h
  | cons c t ih => exact ih (h.step c)

/-- Where blanks lead out of all strings and comments, none was open before them. -/
theorem Sane.fault?_of_run {s : State} (h : s.Sane) {t : Text} (ht : t.isBlankText = true)
    (hf : (s.run t).fault? = none) : s.fault? = none ∧ s.depth = (s.run t).depth := by
  induction t generalizing s with
  | nil => exact ⟨hf, rfl⟩
  | cons c t ih =>
    simp only [Text.isBlankText, List.all_cons, Bool.and_eq_true] at ht
    obtain ⟨hstep, hdepth⟩ := ih (h.step c) ht.2 hf
    have hnone := h.fault?_of_step ht.1 hstep
    refine ⟨hnone, ?_⟩
    rw [run_cons, ← hdepth, step_of_fault?_eq_none hnone ht.1]

theorem fault?_of_stopsAt {s : State} {c : Char} (h : s.stopsAt c = true) :
    s.fault? = none ∧ s.depth = 0 := by
  simp only [stopsAt, inCode, Bool.and_eq_true, Bool.or_eq_true, decide_eq_true_eq] at h
  obtain ⟨⟨hmode, hdepth⟩, -⟩ := h
  rw [fault?]
  rcases hmode with hmode | hmode
  · rw [hmode]
    exact ⟨rfl, hdepth⟩
  · rw [hmode]
    exact ⟨rfl, hdepth⟩

theorem passes_of_forall (s : State) {t : Text} (h : t.all (!isTerminator ·) = true) :
    s.passes t = true := by
  induction t generalizing s with
  | nil => rfl
  | cons c t ih =>
    rw [List.all_cons, Bool.and_eq_true, Bool.not_eq_true'] at h
    rw [passes, stopsAt, h.1, Bool.and_false, Bool.not_false, Bool.true_and]
    exact ih _ h.2

end State

theorem statementFrom_of_stopsAt {s : State} {text : Text} {c : Char}
    (h : s.passes text = true) (hc : (s.run text).stopsAt c = true) (opening rest : Text) :
    statementFrom s opening (text ++ c :: rest) = .ok (text, c :: rest) := by
  induction text generalizing s opening with
  | nil =>
    rw [State.run_nil] at hc
    simp [statementFrom, hc]
  | cons d ds ih =>
    simp only [State.passes, Bool.and_eq_true, Bool.not_eq_true'] at h
    rw [State.run_cons] at hc
    simp [statementFrom, h.1, ih h.2 hc]

theorem statementFrom_of_fault?_eq_none {s : State} {text : Text} (h : s.passes text = true)
    (hf : (s.run text).fault? = none) (opening : Text) :
    statementFrom s opening text = .ok (text, []) := by
  induction text generalizing s opening with
  | nil =>
    rw [State.run_nil] at hf
    simp [statementFrom, hf]
  | cons d ds ih =>
    simp only [State.passes, Bool.and_eq_true, Bool.not_eq_true'] at h
    rw [State.run_cons] at hf
    simp [statementFrom, h.1, ih h.2 hf]

theorem passes_of_statementFrom {s : State} {opening t text rest : Text}
    (h : statementFrom s opening t = .ok (text, rest)) : s.passes text = true := by
  induction t generalizing s opening text with
  | nil =>
    simp only [statementFrom] at h
    split at h <;> cases h
    rfl
  | cons c cs ih =>
    simp only [statementFrom] at h
    split at h
    · cases h
      rfl
    · rename_i hc
      split at h
      · cases h
      · rename_i heq
        cases h
        simp only [State.passes, Bool.and_eq_true, Bool.not_eq_true']
        exact ⟨by simpa using hc, ih heq⟩

theorem fault?_of_statementFrom {s : State} {opening t text : Text}
    (h : statementFrom s opening t = .ok (text, [])) : (s.run text).fault? = none := by
  induction t generalizing s opening text with
  | nil =>
    simp only [statementFrom] at h
    split at h
    · cases h
    · rename_i hf
      cases h
      exact hf
  | cons c cs ih =>
    simp only [statementFrom] at h
    split at h
    · cases h
    · split at h
      · cases h
      · rename_i heq
        cases h
        rw [State.run_cons]
        exact ih heq

theorem stopsAt_of_statementFrom {s : State} {opening t text rest : Text} {c : Char}
    (h : statementFrom s opening t = .ok (text, c :: rest)) :
    (s.run text).stopsAt c = true := by
  induction t generalizing s opening text with
  | nil =>
    simp only [statementFrom] at h
    split at h <;> cases h
  | cons d ds ih =>
    simp only [statementFrom] at h
    split at h
    · rename_i hd
      cases h
      exact hd
    · split at h
      · cases h
      · rename_i heq
        cases h
        rw [State.run_cons]
        exact ih heq

theorem statement_congr {text rest : Text} {c : Char}
    (h : statement (text ++ c :: rest) = .ok (text, c :: rest)) (rest' : Text) :
    statement (text ++ c :: rest') = .ok (text, c :: rest') :=
  statementFrom_of_stopsAt (passes_of_statementFrom h) (stopsAt_of_statementFrom h) ..

theorem isTerminator_of_statement {t text rest : Text} {c : Char}
    (h : statement t = .ok (text, c :: rest)) : isTerminator c = true := by
  have hstop := stopsAt_of_statementFrom h
  rw [State.stopsAt, Bool.and_eq_true] at hstop
  exact hstop.2

def ClosesAtEnd (text : Text) : Prop :=
  ∀ rest, comment? (text ++ '*' :: '/' :: rest) = some (text, rest)

theorem eq_append_of_comment? {t text rest : Text} (h : comment? t = some (text, rest)) :
    t = text ++ '*' :: '/' :: rest := by
  induction t generalizing text with
  | nil => simp [comment?] at h
  | cons c cs ih =>
    simp only [comment?] at h
    split at h
    · rename_i hc
      cases h
      obtain ⟨rfl, hslash⟩ := hc
      cases cs with
      | nil => cases hslash
      | cons d ds =>
        cases hslash
        rfl
    · obtain ⟨p, hp, he⟩ := Option.map_eq_some_iff.mp h
      cases he
      simp [ih hp]

theorem closesAtEnd_of_comment? {t text rest : Text} (h : comment? t = some (text, rest)) :
    ClosesAtEnd text := by
  intro rest'
  induction t generalizing text with
  | nil => simp [comment?] at h
  | cons c cs ih =>
    simp only [comment?] at h
    split at h
    · cases h
      simp [comment?]
    · rename_i hc
      obtain ⟨p, hp, he⟩ := Option.map_eq_some_iff.mp h
      cases he
      have hhead : (p.1 ++ '*' :: '/' :: rest').head? = cs.head? := by
        rw [eq_append_of_comment? hp]
        cases p.1 <;> rfl
      rw [← hhead] at hc
      simp only [List.cons_append, comment?, hc, if_false, ih hp, Option.map_some]

end UtilityCss.Scan
