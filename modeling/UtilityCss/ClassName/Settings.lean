import UtilityCss.Text.Blank
import UtilityCss.ClassName.Defaults

/-!
# Registries from settings

Settings list the names to register, on top of the built-in registry or of the empty one. They are
refused when a listed name is blank or when a variant is listed under two kinds; the fault reported
is that of the first offending entry in the order in which the lists are read. Names that do not
compound are not checked, and they silence built-in variants too.
-/
namespace UtilityCss

structure UtilityNames where
  static : List Text := []
  functional : List Text := []
  deriving Repr

structure VariantNames where
  static : List Text := []
  functional : List Text := []
  compound : List Text := []
  nonCompounding : List Text := []
  deriving Repr

structure Settings where
  includeDefaults : Bool := false
  utilities : UtilityNames := {}
  variants : VariantNames := {}
  deriving Repr

inductive SettingsSection
  | utilities
  | variants
  deriving DecidableEq, Repr

inductive SettingsError
  | emptyName (place : SettingsSection)
  | conflictingVariant (name : Text)
  deriving DecidableEq, Repr

def SettingsSection.name : SettingsSection → Text
  | .utilities => "utilities".toList
  | .variants => "variants".toList

def SettingsError.message : SettingsError → Text
  | .emptyName place => "Empty name in [".toList ++ place.name ++ "]".toList
  | .conflictingVariant name =>
    "Variant '".toList ++ name ++ "' is listed under more than one kind".toList

/-- The listed variants with their kinds, in the order in which they are read. -/
def VariantNames.listed (names : VariantNames) : List (Text × VariantKind) :=
  names.static.map (·, .static) ++ names.functional.map (·, .functional) ++
    names.compound.map (·, .compound)

namespace Settings

def utilityFault? (names : List Text) : Option SettingsError :=
  (names.find? Text.isBlankText).map fun _ => .emptyName .utilities

/-- The first fault among listed variants, given those listed before them. -/
def variantFault? (seen : List (Text × VariantKind)) :
    List (Text × VariantKind) → Option SettingsError
  | [] => none
  | (name, kind) :: rest =>
    if Text.isBlankText name then some (.emptyName .variants)
    else if seen.any fun earlier => earlier.1 = name && earlier.2 ≠ kind then
      some (.conflictingVariant name)
    else variantFault? ((name, kind) :: seen) rest

def fault? (s : Settings) : Option SettingsError :=
  (utilityFault? (s.utilities.static ++ s.utilities.functional)).or
    (variantFault? [] s.variants.listed)

def base (s : Settings) : Registry := if s.includeDefaults then .builtIn else .empty

def registry (s : Settings) : Registry :=
  let listed : Registry :=
    { staticUtilities := s.utilities.static ++ s.base.staticUtilities
      functionalUtilities := s.utilities.functional ++ s.base.functionalUtilities
      variants :=
        s.variants.listed.map (fun entry => (entry.1, ⟨entry.2, true⟩)) ++ s.base.variants }
  listed.forbidCompounding s.variants.nonCompounding

end Settings

def Registry.ofSettings (s : Settings) : Except SettingsError Registry :=
  match s.fault? with
  | some fault => .error fault
  | none => .ok s.registry

end UtilityCss
