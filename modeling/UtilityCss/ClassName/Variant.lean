import UtilityCss.ClassName.Registry
import UtilityCss.ClassName.RootSplit
import UtilityCss.ClassName.Modifier

/-!
# Variants

A variant says when a utility applies: any selector in brackets, a static name, a name with a value,
or a name that wraps another variant. `read?` and `write` take a variant from its text and back.
-/
namespace UtilityCss

inductive VariantValue
  | arbitrary (value : Text)
  | named (value : Text)
  deriving DecidableEq, Repr

inductive Variant
  /-- A selector is relative when it starts with a combinator. -/
  | arbitrary (selector : Text) (relative compounds : Bool)
  | static (root : Text) (compounds : Bool)
  | functional (root : Text) (value : Option VariantValue) (modifier : Option Modifier)
      (compounds : Bool)
  | compound (root : Text) (modifier : Option Modifier) (inner : Variant) (compounds : Bool)
  deriving DecidableEq, Repr

namespace VariantValue

/-- A value that ends with a closing bracket has to be one bracketed text. -/
def read? (t : Text) : Option VariantValue :=
  if t.getLast? = some ']' then (t.bracketed?.bind readArbitrary?).map .arbitrary
  else some (.named t)

def readOptional? : Option Text → Option (Option VariantValue)
  | none => some none
  | some t => (read? t).map some

def write : VariantValue → Text
  | .arbitrary value => '-' :: writeArbitrary value
  | .named value => '-' :: value

def writeOptional : Option VariantValue → Text
  | none => []
  | some v => v.write

end VariantValue

namespace Variant

def compounds : Variant → Bool
  | .arbitrary _ _ c => c
  | .static _ c => c
  | .functional _ _ _ c => c
  | .compound _ _ _ c => c

def write : Variant → Text
  | .arbitrary selector _ _ => writeArbitrary selector
  | .static root _ => root
  | .functional root value modifier _ =>
    root ++ VariantValue.writeOptional value ++ Modifier.writeOptional modifier
  | .compound root modifier inner _ =>
    root ++ '-' :: inner.write ++ Modifier.writeOptional modifier

def isCombinator (c : Char) : Bool := c = '>' || c = '+' || c = '~'

/-- The selector in brackets. An at-rule cannot also refer to the selector it applies to. -/
def readSelector? (inner : Text) : Option Variant :=
  if inner.head? = some '@' ∧ '&' ∈ inner then none
  else (readArbitrary? inner).map fun selector =>
    .arbitrary selector (selector.head?.any isCombinator) true

/-- A functional variant does not take a value that merely ends with a bracket. -/
def passesOver (r : Registry) : Text × Option Text → Bool
  | (root, some value) =>
    r.variantKind? root = some .functional && value.getLast? = some ']' && value.head? ≠ some '['
  | (_, none) => false

/-- The first split of a name that is not passed over decides how the variant is read. -/
def rootSplit? (r : Registry) (name : Text) : Option (Text × Option Text) :=
  (rootSplits r.hasVariant name).find? fun split => !passesOver r split

theorem length_lt_of_rootSplit? {r : Registry} {name root value : Text}
    (h : rootSplit? r name = some (root, some value)) : value.length < name.length :=
  length_lt_of_mem_rootSplits (List.mem_of_find?_eq_some h)

def readStatic? (r : Registry) (root : Text) (value modifier : Option Text) : Option Variant :=
  if value.isSome || modifier.isSome then none
  else some (.static root (r.variantCompounds root))

def readFunctional? (r : Registry) (root : Text) (value modifier : Option Text) :
    Option Variant :=
  match Modifier.readOptional? modifier, VariantValue.readOptional? value with
  | some modifier, some value => some (.functional root value modifier (r.variantCompounds root))
  | _, _ => none

def wrap? (r : Registry) (root : Text) (modifier : Option Text) (inner : Variant) :
    Option Variant :=
  if inner.compounds then
    (Modifier.readOptional? modifier).map fun modifier =>
      .compound root modifier inner (r.variantCompounds root)
  else none

def read? (r : Registry) (t : Text) : Option Variant :=
  match t.bracketed? with
  | some inner => readSelector? inner
  | none =>
    match _hm : Modifier.split? t with
    | none => none
    | some (name, modifier) =>
      match _hr : rootSplit? r name with
      | none => none
      | some (root, value) =>
        match r.variantKind? root, value with
        | none, _ => none
        | some .static, value => readStatic? r root value modifier
        | some .functional, value => readFunctional? r root value modifier
        | some .compound, none => none
        | some .compound, some value =>
          match read? r value with
          | none => none
          | some inner => wrap? r root modifier inner
termination_by t.length
decreasing_by
  exact Nat.lt_of_lt_of_le (length_lt_of_rootSplit? _hr) (Modifier.length_le_of_split? _hm)

end Variant
end UtilityCss
