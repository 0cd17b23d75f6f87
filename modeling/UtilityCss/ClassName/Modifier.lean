import UtilityCss.Text.Blank
import UtilityCss.Text.Segment
import UtilityCss.ClassName.Underscore

/-!
# Modifiers

A modifier follows a slash: a name as in `bg-red-500/50`, or any text in brackets as in
`bg-red-500/[0.5]`.
-/
namespace UtilityCss

inductive Modifier
  | arbitrary (value : Text)
  | named (value : Text)
  deriving DecidableEq, Repr

/-- The text between brackets, decoded; nothing stands for a blank text. -/
def readArbitrary? (inner : Text) : Option Text :=
  let value := Underscore.decode inner
  if value.isBlankText then none else some value

def writeArbitrary (value : Text) : Text := '[' :: Underscore.encode value ++ [']']

namespace Modifier

def read? (t : Text) : Option Modifier :=
  if t = [] then none
  else match t.bracketed? with
    | some inner => (readArbitrary? inner).map .arbitrary
    | none => some (.named t)

/-- A missing modifier is read as none; one that cannot be read is a failure. -/
def readOptional? : Option Text → Option (Option Modifier)
  | none => some none
  | some t => (read? t).map some

def write : Modifier → Text
  | .arbitrary value => '/' :: writeArbitrary value
  | .named value => '/' :: value

def writeOptional : Option Modifier → Text
  | none => []
  | some m => m.write

/-- The part before the slash and the modifier after it; a text with two slashes has no such
parts. -/
def split? (t : Text) : Option (Text × Option Text) :=
  match Segment.split '/' t with
  | [name] => some (name, none)
  | [name, modifier] => some (name, some modifier)
  | _ => none

theorem length_le_of_split? {t name : Text} {modifier : Option Text}
    (h : split? t = some (name, modifier)) : name.length ≤ t.length := by
  have hle : ∀ p ∈ Segment.split '/' t, p.length ≤ t.length :=
    fun _ hp => Segment.length_le_of_mem_split hp
  simp only [split?] at h
  split at h
  · rename_i heq
    cases h
    exact hle _ (heq ▸ List.mem_cons_self ..)
  · rename_i heq
    cases h
    exact hle _ (heq ▸ List.mem_cons_self ..)
  · cases h

end Modifier
end UtilityCss
