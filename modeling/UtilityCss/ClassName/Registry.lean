import UtilityCss.Text.Basic

/-!
# The registry of utilities and variants

A registry says which roots a class name may be built from. Registering a variant again replaces
what was known of it; an unknown variant does not compound.
-/
namespace UtilityCss

/-- A static utility is the whole class name; a functional one is followed by a value. -/
inductive UtilityKind
  | static
  | functional
  deriving DecidableEq, Repr

/-- A static variant stands alone, a functional one takes a value, and a compound one wraps
another variant. -/
inductive VariantKind
  | static
  | functional
  | compound
  deriving DecidableEq, Repr

structure VariantEntry where
  kind : VariantKind
  /-- Whether a compound variant may wrap this one. -/
  compounds : Bool
  deriving DecidableEq, Repr

structure Registry where
  staticUtilities : List Text
  functionalUtilities : List Text
  /-- Of several entries of one name the first one counts. -/
  variants : List (Text × VariantEntry)

namespace Registry

def empty : Registry := ⟨[], [], []⟩

def utilities (r : Registry) : UtilityKind → List Text
  | .static => r.staticUtilities
  | .functional => r.functionalUtilities

def registerUtility (r : Registry) (kind : UtilityKind) (name : Text) : Registry :=
  match kind with
  | .static => { r with staticUtilities := name :: r.staticUtilities }
  | .functional => { r with functionalUtilities := name :: r.functionalUtilities }

def registerVariant (r : Registry) (name : Text) (kind : VariantKind) (compounds : Bool) :
    Registry :=
  { r with variants := (name, ⟨kind, compounds⟩) :: r.variants }

def hasUtility (r : Registry) (kind : UtilityKind) (name : Text) : Bool :=
  (r.utilities kind).contains name

def variant? (r : Registry) (name : Text) : Option VariantEntry := r.variants.lookup name

def hasVariant (r : Registry) (name : Text) : Bool := (r.variant? name).isSome

def variantKind? (r : Registry) (name : Text) : Option VariantKind :=
  (r.variant? name).map VariantEntry.kind

def variantCompounds (r : Registry) (name : Text) : Bool :=
  (r.variant? name).any VariantEntry.compounds

/-- No variant of these names may be wrapped any more. -/
def forbidCompounding (r : Registry) (names : List Text) : Registry :=
  { r with
    variants := r.variants.map fun entry =>
      if names.contains entry.1 then (entry.1, { entry.2 with compounds := false }) else entry }

end Registry
end UtilityCss
