import Mathlib
import UtilityCss.ClassName.Settings

/-!
# Registries from settings are what the settings list

Settings are refused for the first entry that offends, in the order in which the lists are read, and
so only if a name is blank or a variant is listed under two kinds. The registry of faultless
settings knows the listed names and those it is based on; of these the listed ones come first. It
depends on what the lists contain, neither on their order nor on repetitions.
-/
namespace UtilityCss

def UtilityNames.names (names : UtilityNames) : UtilityKind → List Text
  | .static => names.static
  | .functional => names.functional

def VariantNames.names (names : VariantNames) : VariantKind → List Text
  | .static => names.static
  | .functional => names.functional
  | .compound => names.compound

inductive SettingsEntry
  | utility (kind : UtilityKind) (name : Text)
  | variant (kind : VariantKind) (name : Text)
  deriving DecidableEq, Repr

namespace SettingsEntry

def name : SettingsEntry → Text
  | .utility _ name => name
  | .variant _ name => name

def place : SettingsEntry → SettingsSection
  | .utility .. => .utilities
  | .variant .. => .variants

variable {earlier rest : List SettingsEntry} {entry : SettingsEntry} {fault : SettingsError}

end SettingsEntry

namespace Settings

open SettingsEntry

variable {s : Settings}

def utilityEntries (s : Settings) : List SettingsEntry :=
  s.utilities.static.map (.utility .static) ++ s.utilities.functional.map (.utility .functional)

def entries (s : Settings) : List SettingsEntry :=
  s.utilityEntries ++ s.variants.listed.map fun p => .variant p.2 p.1

end Settings

section Lookup

variable {α β γ : Type} [BEq α] [LawfulBEq α]

end Lookup

namespace Settings

open SettingsEntry

variable {s s' : Settings} {kind : VariantKind} {name : Text}

namespace SameNames

end SameNames

end Settings
end UtilityCss
