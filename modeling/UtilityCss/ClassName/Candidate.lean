import UtilityCss.ClassName.Variant

/-!
# Candidates

A candidate is one meaning of a class name: a utility under some variants, important or not. Its
canonical text puts the outermost variant first and an exclamation mark last.
-/
namespace UtilityCss

inductive UtilityValue
  /-- A bracketed value may name its type before a colon, as in `[length:10px]`. -/
  | arbitrary (dataType : Option Text) (value : Text)
  /-- With a named modifier the value may also be one side of a fraction, as in `1/2`. -/
  | named (value : Text) (fraction : Option Text)
  deriving DecidableEq, Repr

inductive Utility
  /-- Any property with any value, as in `[color:red]`. -/
  | property (name value : Text) (modifier : Option Modifier)
  | static (root : Text) (negative : Bool)
  | functional (root : Text) (value : Option UtilityValue) (modifier : Option Modifier)
      (negative : Bool)
  deriving DecidableEq, Repr

structure Candidate where
  utility : Utility
  /-- The variants, innermost first: the reverse of the order in which they are written. -/
  variants : List Variant
  important : Bool
  /-- The class name that was read. -/
  raw : Text
  deriving DecidableEq, Repr

namespace UtilityValue

def write : UtilityValue → Text
  | .arbitrary none value => '-' :: writeArbitrary value
  | .arbitrary (some dataType) value =>
    '-' :: '[' :: dataType ++ ':' :: Underscore.encode value ++ [']']
  | .named value _ => '-' :: value

def writeOptional : Option UtilityValue → Text
  | none => []
  | some v => v.write

end UtilityValue

namespace Utility

def writeSign (negative : Bool) : Text := if negative then ['-'] else []

def write : Utility → Text
  | .property name value modifier =>
    '[' :: name ++ ':' :: Underscore.encode value ++ ']' :: Modifier.writeOptional modifier
  | .static root negative => writeSign negative ++ root
  | .functional root value modifier negative =>
    writeSign negative ++ root ++ UtilityValue.writeOptional value ++
      Modifier.writeOptional modifier

end Utility

namespace Candidate

/-- The utility with its exclamation mark. -/
def writeBase (c : Candidate) : Text := c.utility.write ++ if c.important then ['!'] else []

def write (c : Candidate) : Text :=
  Segment.join ':' (c.variants.reverse.map Variant.write ++ [c.writeBase])

end Candidate
end UtilityCss
