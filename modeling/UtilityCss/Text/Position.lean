import UtilityCss.Text.Basic

/-!
# Positions

Lines and columns count from one. A line ends at a line feed, and columns count characters.
-/
namespace UtilityCss

structure Position where
  line : Nat
  column : Nat
  deriving DecidableEq, Repr

namespace Position

def start : Position := ⟨1, 1⟩

def advance (p : Position) (c : Char) : Position :=
  if c = '\n' then ⟨p.line + 1, 1⟩ else ⟨p.line, p.column + 1⟩

def after (t : Text) : Position := t.foldl advance start

/-- The position of a byte offset; offsets past the end count as the end, and an offset inside a
character has no position. -/
def ofByteOffset? (source : Text) (offset : Nat) : Option Position :=
  (source.takeBytes? offset).map after

def write (p : Position) : Text :=
  (toString p.line).toList ++ ':' :: (toString p.column).toList

theorem after_append (a b : Text) : after (a ++ b) = b.foldl advance (after a) := by
  simp [after]

end Position
end UtilityCss
