import UtilityCss.ClassName.Settings
import UtilityCss.Toml.Fields

/-!
# Settings files

Settings are written as a TOML document with a flag and two tables of name lists. A table may be
given by a header, by dotted keys or on one line, and on one line also as the bare list of its
values in order. Anything else in the document makes it malformed.

This is the outer layer. The TOML reader below it stands in for a library and nothing is proved
about it; no module but this one uses it, and what is proved begins with settings that have been
read.
-/
namespace UtilityCss

open Toml (Value)

def UtilityNames.fields : List Text := ["static", "functional"].map String.toList

def UtilityNames.set? (names : UtilityNames) (key : Text) (value : Value) : Option UtilityNames :=
  if key = "static".toList then value.texts?.map ({ names with static := · })
  else if key = "functional".toList then value.texts?.map ({ names with functional := · })
  else none

def VariantNames.fields : List Text :=
  ["static", "functional", "compound", "non_compounding"].map String.toList

def VariantNames.set? (names : VariantNames) (key : Text) (value : Value) : Option VariantNames :=
  if key = "static".toList then value.texts?.map ({ names with static := · })
  else if key = "functional".toList then value.texts?.map ({ names with functional := · })
  else if key = "compound".toList then value.texts?.map ({ names with compound := · })
  else if key = "non_compounding".toList then value.texts?.map ({ names with nonCompounding := · })
  else none

namespace Settings

def isTable (path : List Text) : Bool :=
  path = ["utilities".toList] || path = ["variants".toList]

def set? (s : Settings) (path : List Text) (value : Value) : Option Settings :=
  match path with
  | [key] =>
    if key = "include_defaults".toList then
      value.boolean?.map ({ s with includeDefaults := · })
    else if key = "utilities".toList then
      (value.fill? UtilityNames.fields UtilityNames.set? {}).map ({ s with utilities := · })
    else if key = "variants".toList then
      (value.fill? VariantNames.fields VariantNames.set? {}).map ({ s with variants := · })
    else none
  | [table, key] =>
    if table = "utilities".toList then
      (s.utilities.set? key value).map ({ s with utilities := · })
    else if table = "variants".toList then
      (s.variants.set? key value).map ({ s with variants := · })
    else none
  | _ => none

def ofToml? (source : Text) : Option Settings := do
  let statements ← Toml.statements? source
  let pairs ← Toml.pairsOf? [] statements
  if (Toml.headersOf statements).all isTable && Toml.isConsistent statements pairs then
    pairs.foldlM (fun s pair => s.set? pair.1 pair.2) {}
  else none

end Settings

inductive SettingsFileError
  | malformed
  | refused (error : SettingsError)
  deriving DecidableEq, Repr

def Registry.ofToml (source : Text) : Except SettingsFileError Registry :=
  match Settings.ofToml? source with
  | none => .error .malformed
  | some s =>
    match Registry.ofSettings s with
    | .error e => .error (.refused e)
    | .ok r => .ok r

end UtilityCss
