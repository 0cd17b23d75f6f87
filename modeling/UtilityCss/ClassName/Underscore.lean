import UtilityCss.Text.Basic

/-!
# Underscores for spaces

A class name holds no space, so its arbitrary parts write a space as an underscore and an
underscore as a backslash and an underscore. From `url(` to the next closing parenthesis, or to the
end, a text is copied as it stands.
-/
namespace UtilityCss.Underscore

def verbatimOpening : Text := "url(".toList

def staysVerbatim (c : Char) : Bool := c ≠ ')'

def decodeFrom : (verbatim : Bool) → Text → Text
  | _, [] => []
  | true, c :: cs => c :: decodeFrom (staysVerbatim c) cs
  | false, c :: cs =>
    if verbatimOpening.isPrefixOf (c :: cs) then c :: decodeFrom true cs
    else match c, cs with
      | '\\', '_' :: rest => '_' :: decodeFrom false rest
      | '_', cs => ' ' :: decodeFrom false cs
      | c, cs => c :: decodeFrom false cs

/-- The text that an arbitrary part of a class name stands for. -/
def decode (t : Text) : Text := decodeFrom false t

def encodeFrom : (verbatim : Bool) → Text → Text
  | _, [] => []
  | true, c :: cs => c :: encodeFrom (staysVerbatim c) cs
  | false, c :: cs =>
    if verbatimOpening.isPrefixOf (c :: cs) then c :: encodeFrom true cs
    else if c = ' ' then '_' :: encodeFrom false cs
    else if c = '_' then '\\' :: '_' :: encodeFrom false cs
    else c :: encodeFrom false cs

/-- The form of a text inside a class name. -/
def encode (t : Text) : Text := encodeFrom false t

end UtilityCss.Underscore
