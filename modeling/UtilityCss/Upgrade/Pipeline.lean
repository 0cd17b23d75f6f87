import UtilityCss.Stylesheet.Parsing
import UtilityCss.Stylesheet.Printing
import UtilityCss.Upgrade.Layering

/-!
# Migrations

A migration changes a stylesheet or gives up on it. A pipeline runs migrations in order and stops at
the first one that gives up; what the earlier ones did stays done.
-/
namespace UtilityCss

inductive UpgradeError
  | parse (error : ParseError)
  | migration (name message : Text)
  deriving DecidableEq, Repr

def UpgradeError.message : UpgradeError → Text
  | .parse error => "Failed to parse stylesheet: ".toList ++ error.message
  | .migration name message => "Migration '".toList ++ name ++ "' failed: ".toList ++ message

structure Migration where
  name : Text
  apply : Stylesheet → Except UpgradeError Stylesheet

def Migration.explicitLayers : Migration :=
  ⟨"migrate-missing-layers".toList, fun s => .ok s.layered⟩

abbrev Pipeline := List Migration

namespace Pipeline

def standard : Pipeline := [Migration.explicitLayers]

def names (p : Pipeline) : List Text := p.map Migration.name

/-- The stylesheet after a run, the names of the migrations that were started, and the error of the
one that gave up. -/
structure Outcome where
  sheet : Stylesheet
  started : List Text
  error : Option UpgradeError

def execute : Pipeline → Stylesheet → Outcome
  | [], s => ⟨s, [], none⟩
  | m :: rest, s =>
    match m.apply s with
    | .error e => ⟨s, [m.name], some e⟩
    | .ok s =>
      let outcome := execute rest s
      { outcome with started := m.name :: outcome.started }

end Pipeline

def upgrade (source : Text) : Except UpgradeError Text :=
  match Stylesheet.parse source with
  | .error e => .error (.parse e)
  | .ok s =>
    let outcome := Pipeline.standard.execute s
    match outcome.error with
    | some e => .error e
    | none => .ok outcome.sheet.toCss

end UtilityCss
