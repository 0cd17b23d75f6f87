import UtilityCss.Stylesheet.Content

/-!
# Layers and roles

A stylesheet may mark where one of three layers begins, by a directive or by an import. Every node
below the root has a role in deciding what belongs to which layer.
-/
namespace UtilityCss

inductive Layer
  | base
  | components
  | utilities
  deriving DecidableEq, Repr

namespace Layer

def name : Layer → Text
  | base => "base".toList
  | components => "components".toList
  | utilities => "utilities".toList

def all : List Layer := [base, components, utilities]

def ofName? (t : Text) : Option Layer := all.find? fun layer => layer.name = t

def quotes : List Char := ['\x22', '\x27']

/-- Whether the parameters of an import begin with the quoted path of the layer. The two quotes need
not be alike. -/
def isImportedBy (layer : Layer) (params : Text) : Bool :=
  quotes.any fun before => quotes.any fun after =>
    (before :: "tailwindcss/".toList ++ layer.name ++ [after]).isPrefixOf params

def ofImport? (params : Text) : Option Layer := all.find? (·.isImportedBy params)

end Layer

inductive Role
  /-- Stays outside any layer. -/
  | exempt
  /-- Here a layer begins. -/
  | boundary (layer : Layer)
  /-- Names its layer itself. -/
  | explicit
  /-- An import of anything but a layer. -/
  | importing
  | content
  deriving DecidableEq, Repr

namespace Role

def ofAtRule (r : AtRule) : Role :=
  if r.name = "theme".toList || r.name = "utility".toList then exempt
  else if r.name = "tailwind".toList then
    match Layer.ofName? r.params with
    | some layer => boundary layer
    | none => content
  else if r.name = "layer".toList then explicit
  else if r.name = "import".toList then
    match Layer.ofImport? r.params with
    | some layer => boundary layer
    | none => importing
  else content

/-- Anything that is not an at-rule is content. -/
def ofKind (k : Kind) : Role :=
  match k.atRule? with
  | some r => ofAtRule r
  | none => content

def layerAfter (current : Option Layer) : Role → Option Layer
  | boundary layer => some layer
  | _ => current

end Role
end UtilityCss
