import UtilityCss.Text.Blank
import UtilityCss.Stylesheet.Content

/-!
# The parts of a statement

How the text of a statement divides into a node's contents. Nothing of the text is lost: what is not
part of a name, a selector, a property, a value or the parameters goes into the raw texts.
-/
namespace UtilityCss.Statement

def endsName (c : Char) : Bool := Text.isBlank c || decide (c ∈ "(\x22\x27\x7b;".toList)

def atRule (raws : Raws) (hasBlock : Bool) (t : Text) : Content :=
  let name : Text := t.takeWhile (!endsName ·)
  let rest : Text := t.dropWhile (!endsName ·)
  ⟨.atRule ⟨name, rest.trimLeft, hasBlock⟩, { raws with afterName := rest.leadingBlanks }⟩

def prelude (before t : Text) : Content :=
  let raws : Raws := { before := before, between := t.trailingBlanks }
  match t.trimRight with
  | '@' :: rest => atRule raws true rest
  | selector => ⟨.rule selector, raws⟩

def isImportant (t : Text) : Bool := t.trim.map Char.toLower = "important".toList

/-- A value without its mark of importance, and that mark with the blanks before it. The mark is
empty if there is none. -/
def splitImportant (value : Text) : Text × Text :=
  match value.splitLast? '!' with
  | some (head, mark) =>
    if isImportant mark then (head.trimRight, head.trailingBlanks ++ '!' :: mark) else (value, [])
  | none => (value, [])

def declaration (raws : Raws) (property rest : Text) : Content :=
  let parts := splitImportant rest.trimLeft
  { kind := .declaration property.trimRight parts.1 (!parts.2.isEmpty)
    raws :=
      { raws with
        between := property.trailingBlanks ++ ':' :: rest.leadingBlanks
        important := parts.2 } }

/-- A declaration has to have something before its first colon. -/
def declaration? (raws : Raws) (t : Text) : Option Content :=
  match t.splitFirst? ':' with
  | none => none
  | some (property, rest) =>
    if property.isBlankText then none else some (declaration raws property rest)

def body? (raws : Raws) (t : Text) : Option Content :=
  match t with
  | '@' :: rest => some (atRule raws false rest)
  | _ => declaration? raws t

theorem body?_nil (raws : Raws) : body? raws [] = none := rfl

end UtilityCss.Statement
