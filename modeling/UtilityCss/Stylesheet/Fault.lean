import UtilityCss.Text.Position

/-!
# Faults of a stylesheet

What can be wrong with the text of a stylesheet, and where. While reading, a place is the part of
the text from there on; a report gives the line and the column instead.
-/
namespace UtilityCss

inductive Fault
  | unclosedBlock
  | unclosedComment
  | unclosedString
  | unexpectedCloseBrace
  /-- A statement that is neither an at-rule, a rule nor a declaration. -/
  | unknownWord (word : Text)
  deriving DecidableEq, Repr

/-- A fault at the beginning of `remaining`. -/
structure LocatedFault where
  fault : Fault
  remaining : Text
  deriving DecidableEq, Repr

structure ParseError where
  fault : Fault
  position : Position
  deriving DecidableEq, Repr

namespace Fault

def description : Fault → Text
  | unclosedBlock => "Unclosed block opened".toList
  | unclosedComment => "Unclosed comment starting".toList
  | unclosedString => "Unclosed string starting".toList
  | unexpectedCloseBrace => "Unexpected '\x7d'".toList
  | unknownWord word => "Unknown word '".toList ++ word ++ ['\x27']

end Fault

def LocatedFault.report (source : Text) (f : LocatedFault) : ParseError :=
  ⟨f.fault, Position.after (source.take (source.length - f.remaining.length))⟩

def ParseError.message (e : ParseError) : Text :=
  e.fault.description ++ " at ".toList ++ e.position.write

end UtilityCss
