import UtilityCss.Toml.Document

/-!
# Fields of a TOML document

How the statements of a document fill the fields of a structure. The pairs below a header belong to
its table; a table cannot be opened again, neither by a header nor by a dotted key.

Part of the outer layer, a stand-in for a TOML library: see the settings files.
-/
namespace UtilityCss.Toml

def Value.texts? : Value → Option (List Text)
  | .array items => items.mapM fun item =>
    match item with
    | .text t => some t
    | _ => none
  | _ => none

def Value.boolean? : Value → Option Bool
  | .boolean b => some b
  | _ => none

/-- Read a table into a structure, one field after the other. An array gives the first of the
fields their values by order; what goes beyond the fields is ignored. -/
def Value.fill? {α : Type} (fields : List Text) (set? : α → Text → Value → Option α) (start : α) :
    Value → Option α
  | .table pairs => pairs.foldlM (fun a pair =>
      match pair.1 with
      | [key] => set? a key pair.2
      | _ => none) start
  | .array items => (fields.zip items).foldlM (fun a field => set? a field.1 field.2) start
  | _ => none

/-- The pairs of a document with their full paths; there are none in arrays of tables. -/
def pairsOf? : (table : List Text) → List Statement → Option (List (List Text × Value))
  | _, [] => some []
  | table, .pair path value :: rest =>
    (pairsOf? table rest).map ((table ++ path, value) :: ·)
  | _, .header path :: rest => pairsOf? path rest
  | _, .arrayHeader _ :: _ => none

def headersOf (statements : List Statement) : List (List Text) :=
  statements.filterMap fun
    | .header path => some path
    | _ => none

def leadingPaths : List Statement → List (List Text)
  | .pair path _ :: rest => path :: leadingPaths rest
  | _ => []

/-- Whether no table and no value is defined twice, where headers do not nest. -/
def isConsistent (statements : List Statement) (pairs : List (List Text × Value)) : Bool :=
  let headers := headersOf statements
  areIndependent (pairs.map Prod.fst) && areIndependent headers &&
    headers.all fun header => (leadingPaths statements).all (!conflicts header ·)

end UtilityCss.Toml
