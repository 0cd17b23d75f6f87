import UtilityCss.Forest
import UtilityCss.Stylesheet.Content

/-!
# Stylesheets

A stylesheet keeps its nodes in the order of their creation and never forgets one; the links between
parents and children make a tree of some of them and leave the others detached. Node zero is the
root. A number that names no node has no content to change and no links to follow.
-/
namespace UtilityCss

/-- The number of a node in the order of creation. -/
@[ext] structure NodeId where
  index : Nat
  deriving DecidableEq, Repr

def NodeId.write (id : NodeId) : Text := '#' :: (toString id.index).toList

structure Node where
  content : Content
  parent : Option NodeId
  children : List NodeId
  deriving DecidableEq, Repr

structure Stylesheet where
  nodes : Array Node
  deriving DecidableEq, Repr

namespace Stylesheet

def detachedNode (c : Content) : Node := ⟨c, none, []⟩

def empty : Stylesheet := ⟨#[detachedNode ⟨.root, {}⟩]⟩

def root : NodeId := ⟨0⟩

def size (s : Stylesheet) : Nat := s.nodes.size

def hasNode (s : Stylesheet) (id : NodeId) : Bool := id.index < s.size

def nextId (s : Stylesheet) : NodeId := ⟨s.size⟩

/-- All nodes in the order of their creation, detached ones included. -/
def ids (s : Stylesheet) : List NodeId := (List.range s.size).map NodeId.mk

def node (s : Stylesheet) (id : NodeId) : Node := s.nodes.getD id.index (detachedNode ⟨.root, {}⟩)

def content (s : Stylesheet) (id : NodeId) : Content := (s.node id).content

def kind (s : Stylesheet) (id : NodeId) : Kind := (s.content id).kind

def raws (s : Stylesheet) (id : NodeId) : Raws := (s.content id).raws

def parent (s : Stylesheet) (id : NodeId) : Option NodeId := (s.node id).parent

def children (s : Stylesheet) (id : NodeId) : List NodeId := (s.node id).children

def isEmpty (s : Stylesheet) : Bool := (s.children root).isEmpty

def modify (s : Stylesheet) (id : NodeId) (f : Node → Node) : Stylesheet :=
  ⟨s.nodes.modify id.index f⟩

def setParent (s : Stylesheet) (id : NodeId) (parent : Option NodeId) : Stylesheet :=
  s.modify id fun n => { n with parent := parent }

def modifyChildren (s : Stylesheet) (id : NodeId) (f : List NodeId → List NodeId) : Stylesheet :=
  s.modify id fun n => { n with children := f n.children }

def modifyContent (s : Stylesheet) (id : NodeId) (f : Content → Content) : Stylesheet :=
  s.modify id fun n => { n with content := f n.content }

def setKind (s : Stylesheet) (id : NodeId) (kind : Kind) : Stylesheet :=
  s.modifyContent id fun c => { c with kind := kind }

def modifyRaws (s : Stylesheet) (id : NodeId) (f : Raws → Raws) : Stylesheet :=
  s.modifyContent id fun c => { c with raws := f c.raws }

def setRaws (s : Stylesheet) (id : NodeId) (raws : Raws) : Stylesheet :=
  s.modifyRaws id fun _ => raws

def appendParams (s : Stylesheet) (id : NodeId) (text : Text) : Stylesheet :=
  s.modifyContent id fun c => { c with kind := c.kind.mapParams (· ++ text) }

/-- Add a detached node, whose number is the next one. -/
def create (s : Stylesheet) (c : Content) : Stylesheet := ⟨s.nodes.push (detachedNode c)⟩

/-- An at-rule with a block, a space standing where its raws have nothing to separate its parts. -/
def blockAtRule (name params : Text) (raws : Raws) : Content where
  kind := .atRule ⟨name, params, true⟩
  raws :=
    { raws with
      afterName := if raws.afterName = [] then [' '] else raws.afterName
      between := if raws.between = [] then [' '] else raws.between }

def createAtRule (s : Stylesheet) (name params : Text) (raws : Raws) : Stylesheet :=
  s.create (blockAtRule name params raws)

def indexOf? (s : Stylesheet) (parent child : NodeId) : Option Nat :=
  (s.children parent).findIdx? (· = child)

/-- Take a node out of its parent; a detached node stays as it is. -/
def detach (s : Stylesheet) (id : NodeId) : Stylesheet :=
  match s.parent id with
  | none => s
  | some p => (s.setParent id none).modifyChildren p (·.filter (· ≠ id))

/-- Link a detached node below `parent`, whose children `place` arranges. -/
def attach (s : Stylesheet) (parent child : NodeId) (place : List NodeId → List NodeId) :
    Stylesheet :=
  (s.modifyChildren parent place).setParent child (some parent)

def append (s : Stylesheet) (parent child : NodeId) : Stylesheet :=
  (s.detach child).attach parent child (· ++ [child])

/-- Move `child` to a place among the children of `parent`, counted without `child`; a place past
the end means the end. -/
def insert (s : Stylesheet) (parent : NodeId) (index : Nat) (child : NodeId) : Stylesheet :=
  (s.detach child).attach parent child fun l => l.insertIdx (min index l.length) child

/-- Put `replacement` where `target` stands and detach `target`. A replacement with nothing before
it takes over what stood before the target. A detached target is not replaced. -/
def replaceWith (s : Stylesheet) (target replacement : NodeId) : Stylesheet :=
  if target = replacement then s
  else match s.parent target with
    | none => s
    | some p =>
      let detached := s.detach replacement
      match detached.indexOf? p target with
      | none => detached
      | some index =>
        let linked := (detached.attach p replacement (·.set index replacement))
          |>.setParent target none
        linked.modifyRaws replacement fun raws =>
          if raws.before = [] then { raws with before := (s.raws target).before } else raws

/-- The trees whose roots are `ids`, cut off below `depth` levels. -/
def unfold (s : Stylesheet) : Nat → List NodeId → Forest NodeId
  | 0, _ => .nil
  | depth + 1, ids =>
    ids.foldr (fun id rest => .cons id (s.unfold depth (s.children id)) rest) .nil

/-- The trees below a node. No branch is longer than the number of nodes, so nothing is cut off
where the links do not run in a circle. -/
def below (s : Stylesheet) (id : NodeId) : Forest NodeId := s.unfold s.size (s.children id)

def descendants (s : Stylesheet) (id : NodeId) : List NodeId := (s.below id).preorder

/-- The contents below a node, which is all that printing and comparing look at. -/
def contents (s : Stylesheet) (id : NodeId) : Forest Content := (s.below id).map s.content

/-- Create the nodes of a forest in the order of their appearance, the trees last below
`parent`. -/
def addForest (s : Stylesheet) (parent : NodeId) : Forest Content → Stylesheet
  | .nil => s
  | .cons c below rest =>
    let id := s.nextId
    let filled := ((s.create c).append parent id).addForest id below
    filled.addForest parent rest

theorem size_modify (s : Stylesheet) (id : NodeId) (f : Node → Node) :
    (s.modify id f).size = s.size := by
  simp [modify, size]

theorem size_create (s : Stylesheet) (c : Content) : (s.create c).size = s.size + 1 := by
  simp [create, size]

theorem node_modify (s : Stylesheet) (id j : NodeId) (f : Node → Node) :
    (s.modify id f).node j = if id = j ∧ j.index < s.size then f (s.node j) else s.node j := by
  have hid : id.index = j.index ↔ id = j := NodeId.ext_iff.symm
  unfold modify node size
  by_cases hj : j.index < s.nodes.size <;> by_cases h : id = j <;>
    simp [Array.getD, Array.getElem_modify, hid, hj, h]

theorem node_create (s : Stylesheet) (c : Content) (j : NodeId) :
    (s.create c).node j = if j = s.nextId then detachedNode c else s.node j := by
  have hnext : j = s.nextId ↔ j.index = s.nodes.size := NodeId.ext_iff
  unfold create node
  rw [Array.getD_eq_getD_getElem?, Array.getD_eq_getD_getElem?, Array.getElem?_push]
  by_cases h : j.index = s.nodes.size <;> simp [hnext, h]

end Stylesheet
end UtilityCss
