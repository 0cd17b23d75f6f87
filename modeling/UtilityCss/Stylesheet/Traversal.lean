import UtilityCss.Stylesheet.Basic

/-!
# Traversal

The nodes below a node, listed by means of a stack of the nodes that are still to be visited. The
loop goes on until the stack is empty, which it never is where the links below the node run in a
circle. Here it is cut off after a number of rounds, and there is a result only if it has ended.
-/
namespace UtilityCss.Stylesheet

/-- List the first node of the stack and put its children in its place, until the stack is empty. -/
def visit? (s : Stylesheet) : Nat → List NodeId → List NodeId → Option (List NodeId)
  | _, [], listed => some listed
  | 0, _ :: _, _ => none
  | rounds + 1, id :: rest, listed => s.visit? rounds (s.children id ++ rest) (listed ++ [id])

def walk? (s : Stylesheet) (rounds : Nat) (id : NodeId) : Option (List NodeId) :=
  s.visit? rounds (s.children id) []

end UtilityCss.Stylesheet
