import UtilityCss.ClassName.Candidate

/-!
# Reading class names

A class name is cut at its colons; the last piece is the utility and the pieces before it are its
variants. One utility text can be read in several ways, so reading gives a list: a static utility
first, then either an arbitrary property or every functional utility, longest root first. A text
that no rule fits has no reading.
-/
namespace UtilityCss

def isNameLetter (c : Char) : Bool := c = '-' || ('a' ≤ c && c ≤ 'z')

/-- The contents of a bracketed value, with the data type before a colon split off. -/
def UtilityValue.readArbitrary? (inner : Text) : Option UtilityValue :=
  let decoded := Underscore.decode inner
  let dataType := decoded.takeWhile isNameLetter
  let typed : Option Text × Text :=
    match decoded.dropWhile isNameLetter with
    | ':' :: value => (if dataType = [] then none else some dataType, value)
    | _ => (none, decoded)
  if typed.2.isBlankText then none else some (.arbitrary typed.1 typed.2)

/-- A named value; before a named modifier it is also read as a fraction. -/
def UtilityValue.ofName (value : Text) (modifier : Option Modifier) : UtilityValue :=
  .named value <| match modifier with
    | some (.named m) => some (value ++ '/' :: m)
    | _ => none

namespace Utility

def readProperty? (t : Text) : Option (Text × Text) :=
  match t.bracketed? with
  | none => none
  | some inner =>
    if inner.head?.any isNameLetter then
      match inner.splitFirst? ':' with
      | none => none
      | some (name, value) => if value = [] then none else some (name, Underscore.decode value)
    else none

/-- The parts before the first dash that a bracket follows and from that bracket on. -/
def splitBracket? : Text → Option (Text × Text)
  | [] => none
  | c :: cs =>
    if c = '-' ∧ cs.head? = some '[' then some ([], cs)
    else (splitBracket? cs).map fun p => (c :: p.1, p.2)

/-- A functional utility with a bracketed value: only the first bracket can begin it. -/
def readBracketed? (r : Registry) (t : Text) : Option (Text × Option UtilityValue) :=
  match splitBracket? t with
  | none => none
  | some (root, value) =>
    if r.hasUtility .functional root then
      (value.bracketed?.bind UtilityValue.readArbitrary?).map fun value => (root, some value)
    else none

/-- A functional utility with a named value, in which no bracket can stand. -/
def readNamed? (modifier : Option Modifier) :
    Text × Option Text → Option (Text × Option UtilityValue)
  | (root, none) => some (root, none)
  | (root, some value) =>
    if '[' ∈ value then none else some (root, some (.ofName value modifier))

def readFunctional (r : Registry) (modifier : Option Modifier) (t : Text) :
    List (Text × Option UtilityValue) :=
  if t.getLast? = some ']' then (readBracketed? r t).toList
  else (rootSplits (r.hasUtility .functional) t).filterMap (readNamed? modifier)

def readStatic (r : Registry) (t : Text) : List Utility :=
  if r.hasUtility .static t && !t.contains '[' then [.static t false] else []

def readModified (r : Registry) (modifier : Option Modifier) (t : Text) : List Utility :=
  match t with
  | '[' :: _ => ((readProperty? t).map fun p => .property p.1 p.2 modifier).toList
  | '-' :: rest => (readFunctional r modifier rest).map fun p => .functional p.1 p.2 modifier true
  | _ => (readFunctional r modifier t).map fun p => .functional p.1 p.2 modifier false

/-- Every reading of a utility text, the static one first. A text with two slashes, or with a
modifier that cannot be read, has at most the static one. -/
def readAll (r : Registry) (t : Text) : List Utility :=
  readStatic r t ++
    match Modifier.split? t with
    | none => []
    | some (name, modifierText) =>
      match Modifier.readOptional? modifierText with
      | none => []
      | some modifier => readModified r modifier name

end Utility

namespace Candidate

/-- A text without its exclamation mark, which may stand at either end, and whether it had one. -/
def splitImportant (t : Text) : Text × Bool :=
  if t.getLast? = some '!' then (t.dropLast, true)
  else match t with
    | '!' :: rest => (rest, true)
    | _ => (t, false)

def readVariants? (r : Registry) (pieces : List Text) : Option (List Variant) :=
  pieces.reverse.mapM (Variant.read? r)

def readAll (r : Registry) (raw : Text) : List Candidate :=
  let pieces := Segment.split ':' raw
  match readVariants? r pieces.dropLast with
  | none => []
  | some variants =>
    let base := splitImportant (pieces.getLast?.getD [])
    (Utility.readAll r base.1).map fun utility => ⟨utility, variants, base.2, raw⟩

/-- The meanings of a class name with distinct canonical texts, in the order of reading. -/
def readDistinct (r : Registry) (raw : Text) : List Candidate :=
  Text.distinctOn write (readAll r raw)

/-- The texts of candidates one by one: a text that is there already is not added again. -/
def addText (printed : List Text) (c : Candidate) : List Text :=
  if printed.contains c.write then printed else printed ++ [c.write]

def canonicalTexts (r : Registry) (raw : Text) : List Text :=
  (readAll r raw).foldl addText []

end Candidate
end UtilityCss
