import UtilityCss.Stylesheet.Basic

/-!
# Edits

The elementary changes of a stylesheet as data. An edit is carried out only if every node it names
exists.
-/
namespace UtilityCss

inductive Edit
  | create (content : Content)
  | createAtRule (name params : Text) (raws : Raws)
  | detach (id : NodeId)
  | append (parent child : NodeId)
  | insert (parent : NodeId) (index : Nat) (child : NodeId)
  | replaceWith (target replacement : NodeId)
  | appendParams (id : NodeId) (text : Text)
  | setKind (id : NodeId) (kind : Kind)
  | setRaws (id : NodeId) (raws : Raws)
  deriving DecidableEq, Repr

namespace Edit

def targets : Edit → List NodeId
  | create _ | createAtRule .. => []
  | detach id | appendParams id _ | setKind id _ | setRaws id _ => [id]
  | append parent child | insert parent _ child => [parent, child]
  | replaceWith target replacement => [target, replacement]

def run (s : Stylesheet) : Edit → Stylesheet
  | create content => s.create content
  | createAtRule name params raws => s.createAtRule name params raws
  | detach id => s.detach id
  | append parent child => s.append parent child
  | insert parent index child => s.insert parent index child
  | replaceWith target replacement => s.replaceWith target replacement
  | appendParams id text => s.appendParams id text
  | setKind id kind => s.setKind id kind
  | setRaws id raws => s.setRaws id raws

def run? (s : Stylesheet) (e : Edit) : Option Stylesheet :=
  if e.targets.all s.hasNode then some (e.run s) else none

end Edit
end UtilityCss
