import UtilityCss.Forest
import UtilityCss.Stylesheet.Event

/-!
# Blocks

Events are nested from the last to the first. From any event on, the text first goes on with the
block that is open there, then, past each brace that closes one, with the block around it, and ends
inside the last of these blocks.
-/
namespace UtilityCss

/-- What stands between two braces: the trees of its nodes, the blanks before the closing brace, and
whether a semicolon ends the last node. -/
structure Block where
  forest : Forest Content
  after : Text
  semicolon : Bool
  deriving DecidableEq, Repr

/-- The blocks that close before the end of the text, the one open now first, each with the place of
its closing brace; and the block in which the text ends. -/
structure Nesting where
  closed : List (Block × Text)
  last : Except LocatedFault Block

namespace Block

def blank (after : Text) : Block := ⟨.nil, after, false⟩

/-- Put a tree first. Only of the last tree it matters whether a semicolon ends it. -/
def push (content : Content) (children : Forest Content) (terminated : Bool) (b : Block) : Block :=
  { b with
    forest := .cons content children b.forest
    semicolon := if b.forest.isEmpty then terminated else b.semicolon }

end Block

namespace Nesting

def push (content : Content) (children : Forest Content) (terminated : Bool) (n : Nesting) :
    Nesting :=
  match n.closed with
  | (b, place) :: outer => { n with closed := (b.push content children terminated, place) :: outer }
  | [] => { n with last := n.last.map (Block.push content children terminated) }

/-- Open the block of a node before what is nested so far. If it never closes, a fault further on
comes first. -/
def enclose (content : Content) (place : Text) (n : Nesting) : Nesting :=
  match n.closed with
  | (b, _) :: outer =>
    let raws := { content.raws with after := b.after, semicolon := b.semicolon }
    push { content with raws := raws } b.forest false { n with closed := outer }
  | [] =>
    match n.last with
    | .error f => ⟨[], .error f⟩
    | .ok _ => ⟨[], .error ⟨.unclosedBlock, place⟩⟩

def before (e : Event) (n : Nesting) : Nesting :=
  match e with
  | .comment content => n.push content .nil false
  | .statement content terminated => n.push content .nil terminated
  | .opening content place => n.enclose content place
  | .closing before place => { n with closed := (Block.blank before, place) :: n.closed }
  | .stray _ => n

def ofEvents : EventStream → Nesting
  | .finish after => ⟨[], .ok (Block.blank after)⟩
  | .fault f => ⟨[], .error f⟩
  | .next e rest => (ofEvents rest).before e

def toBlock (n : Nesting) : Except LocatedFault Block :=
  match n.closed with
  | (_, place) :: _ => .error ⟨.unexpectedCloseBrace, place⟩
  | [] => n.last

end Nesting

def Block.ofText (source : Text) : Except LocatedFault Block :=
  (Nesting.ofEvents (EventStream.ofText source)).toBlock

end UtilityCss
