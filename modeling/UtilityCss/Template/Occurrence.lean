import UtilityCss.Template.Token
import UtilityCss.ClassName.Reading

/-!
# Occurrences of class names

Every token of a template is read as a class name; a token with several meanings that are written
alike is reported once.
-/
namespace UtilityCss

structure Occurrence where
  candidate : Candidate
  start : Nat
  stop : Nat
  deriving DecidableEq, Repr

namespace Occurrence

def ofToken (r : Registry) (token : Token) : List Occurrence :=
  (Candidate.readDistinct r token.text).map (⟨·, token.start, token.stop⟩)

def all (r : Registry) (content : Text) : List Occurrence :=
  (Token.all content).flatMap (ofToken r)

end Occurrence
end UtilityCss
