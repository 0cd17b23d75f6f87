import UtilityCss.Stylesheet.Fault

/-!
# The end of a statement

A statement runs to the first semicolon or brace that stands outside strings, comments, escapes and
brackets. The scan reads one character at a time; its state is the number of open brackets and the
token that the last character was part of.
-/
namespace UtilityCss.Scan

inductive Mode
  | code
  /-- Just after a slash, where a star opens a comment. -/
  | slash
  | escape
  | quoted (quote : Char)
  | quotedEscape (quote : Char)
  | comment
  /-- Just after a star, where a slash closes the comment. -/
  | commentStar
  deriving DecidableEq, Repr

structure State where
  depth : Nat
  mode : Mode
  deriving DecidableEq, Repr

def State.start : State := ⟨0, .code⟩

/-- Whether `c` separates statements where no bracket is open. -/
def isTerminator (c : Char) : Bool := c = ';' || c = '\x7b' || c = '\x7d'

namespace State

/-- The state after a character that is not part of a string, a comment or an escape. -/
def stepCode (s : State) (c : Char) : State :=
  if c = '\\' then ⟨s.depth, .escape⟩
  else if Text.isQuote c then ⟨s.depth, .quoted c⟩
  else if c = '/' then ⟨s.depth, .slash⟩
  else if c = '(' || c = '[' then ⟨s.depth + 1, .code⟩
  else if c = ')' || c = ']' then ⟨s.depth - 1, .code⟩
  else ⟨s.depth, .code⟩

def step (s : State) (c : Char) : State :=
  match s.mode with
  | .code => s.stepCode c
  | .slash => if c = '*' then ⟨s.depth, .comment⟩ else s.stepCode c
  | .escape => ⟨s.depth, .code⟩
  | .quoted q =>
    if c = '\\' then ⟨s.depth, .quotedEscape q⟩
    else if c = q then ⟨s.depth, .code⟩
    else s
  | .quotedEscape q => ⟨s.depth, .quoted q⟩
  | .comment => if c = '*' then ⟨s.depth, .commentStar⟩ else s
  | .commentStar =>
    if c = '/' then ⟨s.depth, .code⟩ else if c = '*' then s else ⟨s.depth, .comment⟩

def inCode (s : State) : Bool := s.mode = .code || s.mode = .slash

def stopsAt (s : State) (c : Char) : Bool := s.inCode && s.depth = 0 && isTerminator c

def opensAt (s : State) (c : Char) : Bool := s.inCode && (Text.isQuote c || c = '/')

/-- What is left open if the text ends here. -/
def fault? (s : State) : Option Fault :=
  match s.mode with
  | .quoted _ | .quotedEscape _ => some .unclosedString
  | .comment | .commentStar => some .unclosedComment
  | _ => none

end State

/-- The rest of a statement and what follows it. The last string or comment may have begun at
`opening`. -/
def statementFrom (s : State) (opening : Text) : Text → Except LocatedFault (Text × Text)
  | [] =>
    match s.fault? with
    | some fault => .error ⟨fault, opening⟩
    | none => .ok ([], [])
  | c :: cs =>
    if s.stopsAt c then .ok ([], c :: cs)
    else
      match statementFrom (s.step c) (if s.opensAt c then c :: cs else opening) cs with
      | .error fault => .error fault
      | .ok (text, rest) => .ok (c :: text, rest)

/-- The statement at the beginning of a text, up to its terminator, and the rest from there on. -/
def statement (t : Text) : Except LocatedFault (Text × Text) := statementFrom .start t t

/-- The text of a comment and what follows it, for a text that begins just past the opening. -/
def comment? : Text → Option (Text × Text)
  | [] => none
  | c :: cs =>
    if c = '*' ∧ cs.head? = some '/' then some ([], cs.tail)
    else (comment? cs).map fun p => (c :: p.1, p.2)

theorem eq_append_of_statementFrom {s : State} {opening t text rest : Text}
    (h : statementFrom s opening t = .ok (text, rest)) : t = text ++ rest := by
  induction t generalizing s opening text with
  | nil =>
    simp only [statementFrom] at h
    split at h <;> cases h
    rfl
  | cons c cs ih =>
    simp only [statementFrom] at h
    split at h
    · cases h
      rfl
    · split at h
      · cases h
      · rename_i heq
        cases h
        simp [ih heq]

theorem eq_append_of_statement {t text rest : Text} (h : statement t = .ok (text, rest)) :
    t = text ++ rest :=
  eq_append_of_statementFrom h

theorem length_lt_of_comment? {t text rest : Text} (h : comment? t = some (text, rest)) :
    rest.length < t.length := by
  induction t generalizing text with
  | nil => simp [comment?] at h
  | cons c cs ih =>
    simp only [comment?] at h
    split at h
    · cases h
      simp only [List.length_tail, List.length_cons]
      omega
    · obtain ⟨p, hp, he⟩ := Option.map_eq_some_iff.1 h
      cases he
      exact Nat.lt_succ_of_lt (ih hp)

end UtilityCss.Scan
