import UtilityCss.Text.Basic

/-!
# Contents of a node

What a node of a stylesheet says, apart from where it stands: its kind, and the raw texts around its
parts, which keep the layout of the source.
-/
namespace UtilityCss

structure Raws where
  /-- Blanks before the node inside its parent. -/
  before : Text := []
  /-- Blanks between the name of an at-rule and its parameters. -/
  afterName : Text := []
  /-- What stands before the opening brace, or from a property to its value, the colon included. -/
  between : Text := []
  /-- Blanks before the closing brace, before the semicolon, or at the end of the root. -/
  after : Text := []
  /-- The mark of an important declaration with the blanks before it. -/
  important : Text := []
  /-- Whether the last child ends with a semicolon. -/
  semicolon : Bool := false
  /-- Print the children one per line and indented, whatever stands before them. -/
  pretty : Bool := false
  deriving DecidableEq, Repr

/-- An at-rule, with a block as in `@media print { }` or without one as in `@charset x;`. -/
structure AtRule where
  name : Text
  params : Text
  hasBlock : Bool
  deriving DecidableEq, Repr

inductive Kind
  | root
  | atRule (rule : AtRule)
  | rule (selector : Text)
  | declaration (property value : Text) (important : Bool)
  | comment (text : Text)
  deriving DecidableEq, Repr

namespace Kind

def hasBlock : Kind → Bool
  | rule _ => true
  | atRule r => r.hasBlock
  | _ => false

/-- Whether a semicolon separates a node of this kind from the next one. -/
def needsSemicolon : Kind → Bool
  | declaration .. => true
  | atRule r => !r.hasBlock
  | _ => false

def atRule? : Kind → Option AtRule
  | atRule r => some r
  | _ => none

def mapParams (f : Text → Text) : Kind → Kind
  | atRule r => atRule { r with params := f r.params }
  | k => k

end Kind

structure Content where
  kind : Kind
  raws : Raws
  deriving DecidableEq, Repr

end UtilityCss
