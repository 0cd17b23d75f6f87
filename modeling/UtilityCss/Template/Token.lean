import UtilityCss.Text.Blank

/-!
# Tokens of a template

A template is cut into tokens at blanks and at the punctuation of markup. Inside parentheses and
square brackets only blanks cut, and a cut forgets whatever was open, so that an unbalanced bracket
reaches no further than the next blank.
-/
namespace UtilityCss

/-- A piece of a template and the byte offset of its first character. -/
structure Token where
  start : Nat
  text : Text
  deriving DecidableEq, Repr

namespace Token

def stop (t : Token) : Nat := t.start + t.text.byteLength

def delimiters : Text := "\x22\x27\x60<>=\x7b\x7d,;".toList

def cuts (depth : Nat) (c : Char) : Bool :=
  Text.isBlank c || (depth = 0 && decide (c ∈ delimiters))

/-- The number of open brackets after `c`; a bracket that closes nothing is ignored. -/
def adjust (depth : Nat) (c : Char) : Nat :=
  if c = '[' || c = '(' then depth + 1
  else if c = ']' || c = ')' then depth - 1
  else depth

/-- The pieces between cuts, empty ones included; the first piece begins at `offset`, where `depth`
brackets are open. -/
def pieces (offset depth : Nat) : Text → List Token
  | [] => [⟨offset, []⟩]
  | c :: cs =>
    if cuts depth c then ⟨offset, []⟩ :: pieces (offset + c.utf8Size) 0 cs
    else (pieces (offset + c.utf8Size) (adjust depth c) cs).modifyHead
      fun t => ⟨offset, c :: t.text⟩

def all (content : Text) : List Token := (pieces 0 0 content).filter (·.text ≠ [])

end Token
end UtilityCss
