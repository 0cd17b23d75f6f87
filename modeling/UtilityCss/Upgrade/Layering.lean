import UtilityCss.Stylesheet.Basic
import UtilityCss.Upgrade.Role

/-!
# Explicit layers

What stands between the beginning of a layer and the next node that is not content belongs to that
layer. Layering wraps each such run in a rule that says so, and tells plain imports which layer is
current. Only the children of the root are looked at. Content before the first layer, or with
nothing but content after it, stays where it is.
-/
namespace UtilityCss

/-- What becomes of the children of the root, in their order. -/
inductive Change
  | keep (id : NodeId)
  /-- Name the current layer, if any, in the parameters of an import. -/
  | tag (id : NodeId) (layer : Option Layer)
  /-- Wrap a run of nodes. -/
  | wrap (layer : Layer) (first : NodeId) (more : List NodeId)
  deriving DecidableEq, Repr

namespace Change

def wrapper (layer : Layer) : Content :=
  Stylesheet.blockAtRule "layer".toList layer.name { pretty := true }

/-- The text that names the layer of an import; it is there even if no layer is current. -/
def tagText (layer : Option Layer) : Text :=
  " layer(".toList ++ (layer.map Layer.name).getD [] ++ [')']

def isUntagged (k : Kind) : Bool := k.atRule?.any fun r => !r.params.hasInfix "layer(".toList

end Change

namespace Stylesheet

def role (s : Stylesheet) (id : NodeId) : Role := Role.ofKind (s.kind id)

def changeAlone (s : Stylesheet) (current : Option Layer) (id : NodeId) : Change :=
  if s.role id = .importing && Change.isUntagged (s.kind id) then .tag id current else .keep id

/-- The end of a run. Without a layer there is no run to end. -/
def closeRun : Option Layer → List NodeId → List Change
  | some layer, first :: more => [.wrap layer first more]
  | _, _ => []

/-- The changes from one child of the root on, where `current` is the layer that is current and
`run` holds the nodes of the run so far. -/
def changesFrom (s : Stylesheet) (current : Option Layer) (run : List NodeId) :
    List NodeId → List Change
  | [] => run.map .keep
  | id :: rest =>
    match s.role id, current with
    | .content, none => .keep id :: s.changesFrom current [] rest
    | .content, some _ => s.changesFrom current (run ++ [id]) rest
    | role, _ =>
      closeRun current run ++
        s.changeAlone current id :: s.changesFrom (role.layerAfter current) [] rest

def changes (s : Stylesheet) : List Change := s.changesFrom none [] (s.children root)

/-- Put a new at-rule where `first` stands and move the whole run below it. -/
def wrapRun (s : Stylesheet) (layer : Layer) (first : NodeId) (more : List NodeId) : Stylesheet :=
  let alone := more.foldl detach s
  let id := alone.nextId
  let placed := (alone.create (Change.wrapper layer)).replaceWith first id
  (first :: more).foldl (·.append id ·) placed

def applyTag (s : Stylesheet) : Change → Stylesheet
  | .tag id layer => s.appendParams id (Change.tagText layer)
  | _ => s

def applyWrap (s : Stylesheet) : Change → Stylesheet
  | .wrap layer first more => s.wrapRun layer first more
  | _ => s

def layered (s : Stylesheet) : Stylesheet :=
  s.changes.foldl applyWrap (s.changes.foldl applyTag s)

end Stylesheet
end UtilityCss
