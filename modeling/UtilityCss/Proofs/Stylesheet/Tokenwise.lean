import UtilityCss.Proofs.Stylesheet.Scanning

/-!
# Statements token by token

The scan of a statement looks at one character at a time. Between its tokens it can also be told in
larger steps: an escape, a string or a comment is passed as a whole, and what is not closed is found
where it begins.
-/
namespace UtilityCss

open Text

/-- The rest of a string, its closing quote included, and what follows it. -/
def Scan.string? (quote : Char) : Text → Option (Text × Text)
  | [] => none
  | '\\' :: [] => none
  | '\\' :: c :: t => (string? quote t).map fun p => ('\\' :: c :: p.1, p.2)
  | c :: t => if c = quote then some ([c], t) else (string? quote t).map fun p => (c :: p.1, p.2)

namespace Scan

open State

def prepend (x : Text) (r : Except LocatedFault (Text × Text)) :
    Except LocatedFault (Text × Text) :=
  r.map fun p => (x ++ p.1, p.2)

theorem prepend_prepend (x y : Text) (r : Except LocatedFault (Text × Text)) :
    prepend x (prepend y r) = prepend (x ++ y) r := by
  cases r with
  | error f => rfl
  | ok p => rw [prepend, prepend, prepend, Except.map, Except.map, Except.map, List.append_assoc]

theorem statementFrom_cons {s : State} {c : Char} (hc : s.stopsAt c = false) (opening t : Text) :
    statementFrom s opening (c :: t) =
      prepend [c] (statementFrom (s.step c) (if s.opensAt c then c :: t else opening) t) := by
  rw [statementFrom, hc, if_neg Bool.false_ne_true]
  split <;> rename_i heq
  · rw [heq]
    rfl
  · rw [heq]
    rfl

theorem statementFrom_quoted {q : Char} (hq : isQuote q = true) (d : Nat) (opening t : Text) :
    statementFrom ⟨d, .quoted q⟩ opening t =
      match string? q t with
      | none => .error ⟨.unclosedString, opening⟩
      | some (x, rest) => prepend x (statementFrom ⟨d, .code⟩ opening rest) := by
  have hne : q ≠ '\\' := by
    rintro rfl
    cases hq
  have hescape : State.step ⟨d, .quoted q⟩ '\\' = ⟨d, .quotedEscape q⟩ := rfl
  fun_induction string? q t with
  | case1 => rfl
  | case2 =>
    rw [statementFrom_cons rfl, hescape]
    rfl
  | case3 c t ih =>
    rw [statementFrom_cons rfl, hescape, statementFrom_cons rfl]
    change prepend _ (prepend _ (statementFrom ⟨d, .quoted q⟩ opening t)) = _
    rw [ih, prepend_prepend]
    cases string? q t with
    | none => rfl
    | some p => exact prepend_prepend ..
  | case4 t =>
    have hstep : State.step ⟨d, .quoted q⟩ q = ⟨d, .code⟩ := by
      simp only [State.step, if_neg hne, if_true]
    rw [statementFrom_cons rfl, hstep]
    rfl
  | case5 c t hnil hcons hc ih =>
    have hbackslash : c ≠ '\\' := by
      rintro rfl
      cases t with
      | nil => exact hnil rfl rfl
      | cons c t => exact hcons c t rfl rfl
    have hstep : State.step ⟨d, .quoted q⟩ c = ⟨d, .quoted q⟩ := by
      simp only [State.step, if_neg hbackslash, if_neg hc]
    rw [statementFrom_cons rfl, hstep]
    change prepend _ (statementFrom ⟨d, .quoted q⟩ opening t) = _
    rw [ih]
    cases string? q t with
    | none => rfl
    | some p => exact prepend_prepend ..

theorem isPrefixOf_close_iff (c : Char) (t : Text) :
    List.isPrefixOf ['*', '/'] (c :: t) = true ↔ c = '*' ∧ t.head? = some '/' := by
  rw [List.isPrefixOf_iff_prefix, List.cons_prefix_cons, @eq_comm _ '*' c]
  refine and_congr_right fun _ => ?_
  cases t with
  | nil => simp
  | cons d t =>
    rw [List.cons_prefix_cons, and_iff_left List.nil_prefix, List.head?_cons, Option.some_inj,
      eq_comm]

theorem hasInfix_eq_false_of_comment? {t : Text} (h : comment? t = none) :
    t.hasInfix ['*', '/'] = false := by
  induction t with
  | nil => rfl
  | cons c t ih =>
    rw [comment?] at h
    split_ifs at h with hend
    rw [Option.map_eq_none_iff] at h
    rw [hasInfix, ih h, Bool.or_false, Bool.eq_false_iff, Ne, isPrefixOf_close_iff]
    exact hend

theorem statementFrom_commentStar {t : Text} (ht : t.head? ≠ some '/') (d : Nat) (opening : Text) :
    statementFrom ⟨d, .commentStar⟩ opening t = statementFrom ⟨d, .comment⟩ opening t := by
  cases t with
  | nil => rfl
  | cons c t =>
    have hslash : c ≠ '/' := by
      rintro rfl
      exact ht rfl
    have hstep : State.step ⟨d, .commentStar⟩ c = State.step ⟨d, .comment⟩ c := by
      simp only [State.step, if_neg hslash]
    rw [statementFrom_cons rfl, statementFrom_cons rfl, hstep]
    rfl

theorem statementFrom_comment (d : Nat) (opening t : Text) :
    statementFrom ⟨d, .comment⟩ opening t =
      match comment? t with
      | none => .error ⟨.unclosedComment, opening⟩
      | some (x, rest) => prepend (x ++ ['*', '/']) (statementFrom ⟨d, .code⟩ opening rest) := by
  induction t with
  | nil => rfl
  | cons c t ih =>
    rw [statementFrom_cons rfl, comment?]
    by_cases hend : c = '*' ∧ t.head? = some '/'
    · rw [if_pos hend]
      obtain ⟨rfl, hslash⟩ := hend
      cases t with
      | nil => cases hslash
      | cons e t =>
        cases hslash
        change prepend _ (statementFrom ⟨d, .commentStar⟩ opening ('/' :: t)) = _
        rw [statementFrom_cons rfl]
        exact prepend_prepend ..
    · rw [if_neg hend]
      have hnext : statementFrom (State.step ⟨d, .comment⟩ c) opening t =
          statementFrom ⟨d, .comment⟩ opening t := by
        by_cases hstar : c = '*'
        · have hslash : t.head? ≠ some '/' := fun hslash => hend ⟨hstar, hslash⟩
          rw [hstar]
          exact statementFrom_commentStar hslash d opening
        · simp only [State.step, if_neg hstar]
      change prepend _ (statementFrom (State.step ⟨d, .comment⟩ c) opening t) = _
      rw [hnext, ih]
      cases comment? t with
      | none => rfl
      | some p => exact prepend_prepend ..

theorem statementFrom_slash {t : Text} (ht : t.head? ≠ some '*') (d : Nat) (opening : Text) :
    statementFrom ⟨d, .slash⟩ opening t = statementFrom ⟨d, .code⟩ opening t := by
  cases t with
  | nil => rfl
  | cons c t =>
    have hstar : c ≠ '*' := by
      rintro rfl
      exact ht rfl
    have hstep : State.step ⟨d, .slash⟩ c = State.step ⟨d, .code⟩ c := by
      simp only [State.step, if_neg hstar]
      rfl
    have hstops : State.stopsAt ⟨d, .slash⟩ c = State.stopsAt ⟨d, .code⟩ c := rfl
    rw [statementFrom, statementFrom, hstep, hstops]
    rfl

def isSpecial (c : Char) : Bool :=
  c = '\\' || isQuote c || c = '/' || c = '(' || c = '[' || c = ')' || c = ']' || isTerminator c

/-- What the scan makes of a text with so many brackets open, told by its tokens. -/
inductive Tokenwise : Nat → Text → Except LocatedFault (Text × Text) → Prop
  | finish (d : Nat) : Tokenwise d [] (.ok ([], []))
  | stop {c : Char} {t : Text} (hc : isTerminator c = true) :
      Tokenwise 0 (c :: t) (.ok ([], c :: t))
  | pass {d : Nat} {c : Char} {t : Text} {r : Except LocatedFault (Text × Text)}
      (hc : isTerminator c = true) (hr : Tokenwise (d + 1) t r) :
      Tokenwise (d + 1) (c :: t) (prepend [c] r)
  | openEscape (d : Nat) : Tokenwise d ['\\'] (.ok (['\\'], []))
  | escape {d : Nat} {c : Char} {t : Text} {r : Except LocatedFault (Text × Text)}
      (hr : Tokenwise d t r) : Tokenwise d ('\\' :: c :: t) (prepend ['\\', c] r)
  | openString {d : Nat} {q : Char} {t : Text} (hq : isQuote q = true) (ht : string? q t = none) :
      Tokenwise d (q :: t) (.error ⟨.unclosedString, q :: t⟩)
  | string {d : Nat} {q : Char} {t x rest : Text} {r : Except LocatedFault (Text × Text)}
      (hq : isQuote q = true) (ht : string? q t = some (x, rest)) (hr : Tokenwise d rest r) :
      Tokenwise d (q :: t) (prepend (q :: x) r)
  | openComment {d : Nat} {t : Text} (ht : comment? t = none) :
      Tokenwise d ('/' :: '*' :: t) (.error ⟨.unclosedComment, '/' :: '*' :: t⟩)
  | comment {d : Nat} {t x rest : Text} {r : Except LocatedFault (Text × Text)}
      (ht : comment? t = some (x, rest)) (hr : Tokenwise d rest r) :
      Tokenwise d ('/' :: '*' :: t) (prepend ('/' :: '*' :: x ++ ['*', '/']) r)
  | slash {d : Nat} {t : Text} {r : Except LocatedFault (Text × Text)}
      (ht : t.head? ≠ some '*') (hr : Tokenwise d t r) : Tokenwise d ('/' :: t) (prepend ['/'] r)
  | opening {d : Nat} {c : Char} {t : Text} {r : Except LocatedFault (Text × Text)}
      (hc : c = '(' ∨ c = '[') (hr : Tokenwise (d + 1) t r) : Tokenwise d (c :: t) (prepend [c] r)
  | closing {d : Nat} {c : Char} {t : Text} {r : Except LocatedFault (Text × Text)}
      (hc : c = ')' ∨ c = ']') (hr : Tokenwise (d - 1) t r) : Tokenwise d (c :: t) (prepend [c] r)
  | other {d : Nat} {c : Char} {t : Text} {r : Except LocatedFault (Text × Text)}
      (hc : isSpecial c = false) (hr : Tokenwise d t r) : Tokenwise d (c :: t) (prepend [c] r)

theorem eq_append_of_string? {q : Char} {t x rest : Text} (h : string? q t = some (x, rest)) :
    t = x ++ rest := by
  fun_induction string? q t generalizing x with
  | case1 => cases h
  | case2 => cases h
  | case3 c t ih =>
    obtain ⟨p, hp, heq⟩ := Option.map_eq_some_iff.mp h
    cases heq
    rw [ih hp, List.cons_append, List.cons_append]
  | case4 =>
    cases h
    rfl
  | case5 c t _ _ _ ih =>
    obtain ⟨p, hp, heq⟩ := Option.map_eq_some_iff.mp h
    cases heq
    rw [ih hp, List.cons_append]

theorem step_code_of_isTerminator {c : Char} (hc : isTerminator c = true) (d : Nat) :
    State.step ⟨d, .code⟩ c = ⟨d, .code⟩ := by
  simp only [isTerminator, Bool.or_eq_true, decide_eq_true_eq] at hc
  rcases hc with (rfl | rfl) | rfl <;> rfl

theorem step_code_of_isQuote {q : Char} (hq : isQuote q = true) (d : Nat) :
    State.step ⟨d, .code⟩ q = ⟨d, .quoted q⟩ := by
  have hne : q ≠ '\\' := by
    rintro rfl
    cases hq
  simp only [State.step, stepCode, if_neg hne, hq, if_true]

theorem step_code_of_other {c : Char} (hc : isSpecial c = false) (d : Nat) :
    State.step ⟨d, .code⟩ c = ⟨d, .code⟩ := by
  simp only [isSpecial, Bool.or_eq_false_iff, decide_eq_false_iff_not] at hc
  obtain ⟨⟨⟨⟨⟨⟨⟨hescape, hquote⟩, hslash⟩, hround⟩, hsquare⟩, hround'⟩, hsquare'⟩, -⟩ := hc
  simp [State.step, stepCode, hescape, hquote, hslash, hround, hsquare, hround', hsquare']

theorem stopsAt_code (d : Nat) (c : Char) :
    State.stopsAt ⟨d, .code⟩ c = (decide (d = 0) && isTerminator c) := rfl

theorem statementFrom_code_of_isTerminator {c : Char} (hc : isTerminator c = true)
    (opening t : Text) :
    statementFrom ⟨0, .code⟩ opening (c :: t) = .ok ([], c :: t) := by
  rw [statementFrom, stopsAt_code, hc]
  rfl

theorem stopsAt_code_eq_false {c : Char} (hc : isTerminator c = false) (d : Nat) :
    State.stopsAt ⟨d, .code⟩ c = false := by
  rw [stopsAt_code, hc, Bool.and_false]

theorem statementFrom_code_string {q : Char} (hq : isQuote q = true) (d : Nat) (opening t : Text) :
    statementFrom ⟨d, .code⟩ opening (q :: t) =
      match string? q t with
      | none => .error ⟨.unclosedString, q :: t⟩
      | some (x, rest) => prepend (q :: x) (statementFrom ⟨d, .code⟩ (q :: t) rest) := by
  have hterminator : isTerminator q = false := by
    simp only [isQuote, Bool.or_eq_true, decide_eq_true_eq] at hq
    rcases hq with rfl | rfl <;> rfl
  have hopens : State.opensAt ⟨d, .code⟩ q = true := by
    rw [opensAt, hq]
    rfl
  rw [statementFrom_cons (stopsAt_code_eq_false hterminator d), step_code_of_isQuote hq, hopens,
    if_pos rfl, statementFrom_quoted hq]
  cases string? q t with
  | none => rfl
  | some p => exact prepend_prepend ..

theorem statementFrom_code_slash (d : Nat) (opening t : Text) :
    statementFrom ⟨d, .code⟩ opening ('/' :: t) =
      prepend ['/'] (statementFrom ⟨d, .slash⟩ ('/' :: t) t) :=
  statementFrom_cons (stopsAt_code_eq_false rfl d) ..

theorem statementFrom_code_comment (d : Nat) (opening t : Text) :
    statementFrom ⟨d, .code⟩ opening ('/' :: '*' :: t) =
      match comment? t with
      | none => .error ⟨.unclosedComment, '/' :: '*' :: t⟩
      | some (x, rest) =>
        prepend ('/' :: '*' :: x ++ ['*', '/'])
          (statementFrom ⟨d, .code⟩ ('/' :: '*' :: t) rest) := by
  have hstar : State.stopsAt ⟨d, .slash⟩ '*' = false := stopsAt_code_eq_false rfl d
  rw [statementFrom_code_slash, statementFrom_cons hstar]
  change prepend _ (prepend _ (statementFrom ⟨d, .comment⟩ _ t)) = _
  rw [statementFrom_comment, prepend_prepend]
  cases comment? t with
  | none => rfl
  | some p => exact prepend_prepend ..

/-- The scan goes through the tokens of a statement. -/
theorem tokenwise_statementFrom (d : Nat) (opening t : Text) :
    Tokenwise d t (statementFrom ⟨d, .code⟩ opening t) := by
  induction hn : t.length using Nat.strong_induction_on generalizing d opening t with
  | _ n ih =>
    cases t with
    | nil => exact .finish d
    | cons c t =>
      subst hn
      have hrest : ∀ {u : Text}, u.length ≤ t.length → ∀ d opening,
          Tokenwise d u (statementFrom ⟨d, .code⟩ opening u) := by
        intro u hu d opening
        exact ih u.length (Nat.lt_succ_of_le hu) d opening u rfl
      by_cases hterminator : isTerminator c = true
      · cases d with
        | zero =>
          rw [statementFrom_code_of_isTerminator hterminator]
          exact .stop hterminator
        | succ d =>
          rw [statementFrom_cons rfl, step_code_of_isTerminator hterminator]
          exact .pass hterminator (hrest (Nat.le_refl _) ..)
      have hstops := stopsAt_code_eq_false (Bool.eq_false_iff.mpr hterminator) d
      by_cases hescape : c = '\\'
      · subst hescape
        rw [statementFrom_cons hstops]
        cases t with
        | nil => exact .openEscape d
        | cons e t =>
          change Tokenwise d _ (prepend _ (statementFrom ⟨d, .escape⟩ opening (e :: t)))
          rw [statementFrom_cons rfl, prepend_prepend]
          exact .escape (hrest (Nat.le_succ _) ..)
      by_cases hquote : isQuote c = true
      · rw [statementFrom_code_string hquote]
        cases hstring : string? c t with
        | none => exact .openString hquote hstring
        | some p =>
          have hlength := congrArg List.length (eq_append_of_string? hstring)
          rw [List.length_append] at hlength
          exact .string hquote hstring (hrest (by omega) ..)
      by_cases hslash : c = '/'
      · subst hslash
        by_cases hstar : t.head? = some '*'
        · obtain ⟨u, rfl⟩ := List.head?_eq_some_iff.mp hstar
          rw [statementFrom_code_comment]
          cases hcomment : comment? u with
          | none => exact .openComment hcomment
          | some p =>
            have hlength := length_lt_of_comment? hcomment
            exact .comment hcomment (hrest (Nat.le_succ_of_le hlength.le) ..)
        · rw [statementFrom_code_slash, statementFrom_slash hstar]
          exact .slash hstar (hrest (Nat.le_refl _) ..)
      rw [statementFrom_cons hstops]
      by_cases hopening : c = '(' ∨ c = '['
      · have hstep : State.step ⟨d, .code⟩ c = ⟨d + 1, .code⟩ := by
          rcases hopening with rfl | rfl <;> rfl
        rw [hstep]
        exact .opening hopening (hrest (Nat.le_refl _) ..)
      by_cases hclosing : c = ')' ∨ c = ']'
      · have hstep : State.step ⟨d, .code⟩ c = ⟨d - 1, .code⟩ := by
          rcases hclosing with rfl | rfl <;> rfl
        rw [hstep]
        exact .closing hclosing (hrest (Nat.le_refl _) ..)
      · rw [not_or] at hopening hclosing
        have hother : isSpecial c = false := by
          simp [isSpecial, hescape, hquote, hslash, hopening, hclosing, hterminator]
        rw [step_code_of_other hother]
        exact .other hother (hrest (Nat.le_refl _) ..)

end Scan
end UtilityCss
