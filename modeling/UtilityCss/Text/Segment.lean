import UtilityCss.Text.Basic

/-!
# Segments

A text is cut at a separator wherever the separator stands outside brackets, quotes and escapes.
The state of the scan is what is still open: the closing brackets waited for, innermost first, and
whether a quote or an escape is pending. A closing bracket that is not the one waited for is an
ordinary character.
-/
namespace UtilityCss.Segment

inductive Mode
  | plain
  | escaped
  | quoted (quote : Char)
  | quotedEscaped (quote : Char)
  deriving DecidableEq, Repr

structure State where
  closing : List Char
  mode : Mode
  deriving DecidableEq, Repr

def State.start : State := ⟨[], .plain⟩

def closer? : Char → Option Char
  | '(' => some ')'
  | '[' => some ']'
  | '\x7b' => some '\x7d'
  | _ => none

def State.step (s : State) (c : Char) : State :=
  match s.mode with
  | .escaped => { s with mode := .plain }
  | .quotedEscaped q => { s with mode := .quoted q }
  | .quoted q =>
    if c = '\\' then { s with mode := .quotedEscaped q }
    else if c = q then { s with mode := .plain }
    else s
  | .plain =>
    if c = '\\' then { s with mode := .escaped }
    else if Text.isQuote c then { s with mode := .quoted c }
    else match closer? c with
      | some close => { s with closing := close :: s.closing }
      | none => if s.closing.head? = some c then { s with closing := s.closing.tail } else s

def State.run (s : State) (t : Text) : State := t.foldl State.step s

/-- A separator is looked for before anything else, so it may itself be a quote, a bracket or a
backslash; but only where nothing is open. -/
def State.cutsAt (s : State) (sep c : Char) : Bool := s = .start && c = sep

/-- The pieces of the rest of a text, the first of them being the rest of the current one. -/
def splitFrom (sep : Char) : State → Text → List Text
  | _, [] => [[]]
  | s, c :: cs =>
    if s.cutsAt sep c then [] :: splitFrom sep s cs
    else (splitFrom sep (s.step c) cs).modifyHead (c :: ·)

def split (sep : Char) (t : Text) : List Text := splitFrom sep .start t

def join (sep : Char) (pieces : List Text) : Text := [sep].intercalate pieces

theorem splitFrom_ne_nil (sep : Char) (s : State) (t : Text) : splitFrom sep s t ≠ [] := by
  induction t generalizing s with
  | nil => simp [splitFrom]
  | cons c cs ih =>
    simp only [splitFrom]
    split
    · simp
    · intro h
      exact ih (s.step c) (by simpa [List.modifyHead_eq_nil_iff] using h)

theorem split_ne_nil (sep : Char) (t : Text) : split sep t ≠ [] := splitFrom_ne_nil sep _ t

theorem length_le_of_mem_splitFrom {sep : Char} {s : State} {t p : Text}
    (h : p ∈ splitFrom sep s t) : p.length ≤ t.length := by
  induction t generalizing s p with
  | nil => simp_all [splitFrom]
  | cons c cs ih =>
    simp only [splitFrom] at h
    split at h
    · rcases List.mem_cons.1 h with rfl | h
      · simp
      · exact Nat.le_succ_of_le (ih h)
    · obtain ⟨q, qs, hq⟩ := List.exists_cons_of_ne_nil (splitFrom_ne_nil sep (s.step c) cs)
      have hle : ∀ x ∈ q :: qs, x.length ≤ cs.length := fun x hx => ih (hq ▸ hx)
      rw [hq, List.modifyHead_cons] at h
      rcases List.mem_cons.1 h with rfl | h
      · simpa using hle q (List.mem_cons_self ..)
      · exact Nat.le_succ_of_le (hle p (List.mem_cons_of_mem _ h))

theorem length_le_of_mem_split {sep : Char} {t p : Text} (h : p ∈ split sep t) :
    p.length ≤ t.length :=
  length_le_of_mem_splitFrom h

end UtilityCss.Segment
