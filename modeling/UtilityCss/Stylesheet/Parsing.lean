import UtilityCss.Stylesheet.Basic
import UtilityCss.Stylesheet.Block

/-!
# Parsing

A stylesheet is read as the block of its root. The nodes are numbered in the order in which they
begin in the source.
-/
namespace UtilityCss.Stylesheet

def ofBlock (b : Block) : Stylesheet :=
  let opened := empty.modifyRaws root fun raws =>
    { raws with after := b.after, semicolon := b.semicolon }
  opened.addForest root b.forest

def parse (source : Text) : Except ParseError Stylesheet :=
  match Block.ofText source with
  | .ok b => .ok (ofBlock b)
  | .error f => .error (f.report source)

end UtilityCss.Stylesheet
