import UtilityCss.Toml.Scalar

/-!
# TOML documents

A document is a list of statements, one a line: headers that name a table, and pairs of a key and a
value. Keys may be dotted, so a key is a path. Two pairs of one table conflict when the path of one
begins with the path of the other. Neither paths nor nested values go deeper than a fixed number of
levels.

Part of the outer layer, a stand-in for a TOML library: see the settings files.
-/
namespace UtilityCss.Toml

inductive Value
  | text (t : Text)
  | boolean (b : Bool)
  | array (items : List Value)
  | table (pairs : List (List Text × Value))
  /-- A number or a date. -/
  | other

inductive Statement
  | header (path : List Text)
  | arrayHeader (path : List Text)
  | pair (path : List Text) (value : Value)

/-- How many parts a key may have, and how many arrays and tables may stand inside one another. -/
def maxLevels : Nat := 79

def isKeyLetter (c : Char) : Bool := c.isAlphanum || c = '_' || c = '-'

def key? (t : Text) : Option (Text × Text) :=
  if t.head?.any isKeyLetter then some (t.takeWhile isKeyLetter, t.dropWhile isKeyLetter)
  else lineString? t

def dropSpaces (t : Text) : Text := t.dropWhile isSpace

/-- A dotted key with spaces around its parts, of which it has at most `levels`. -/
def pathFrom? : (levels : Nat) → Text → Option (List Text × Text)
  | 0, _ => none
  | levels + 1, t => do
    let (key, rest) ← key? (dropSpaces t)
    match dropSpaces rest with
    | '.' :: rest =>
      let (path, rest) ← pathFrom? levels rest
      some (key :: path, rest)
    | rest => some ([key], rest)

def path? (t : Text) : Option (List Text × Text) := pathFrom? maxLevels t

def skipLines? : (comment : Bool) → Text → Option Text
  | _, [] => some []
  | comment, c :: cs =>
    if c = '\n' then skipLines? false cs
    else if c = '\r' then
      match cs with
      | '\n' :: rest => skipLines? false rest
      | _ => none
    else if comment then if isPlain c then skipLines? true cs else none
    else if c = '#' then skipLines? true cs
    else if isSpace c then skipLines? false cs
    else some (c :: cs)

def endLine? (t : Text) : Option Text :=
  let rest :=
    match dropSpaces t with
    | '#' :: comment => comment.dropWhile isPlain
    | rest => rest
  if rest = [] then some [] else dropLineBreak? rest

def conflicts (a b : List Text) : Bool := a.isPrefixOf b || b.isPrefixOf a

def areIndependent : List (List Text) → Bool
  | [] => true
  | path :: rest => rest.all (!conflicts path ·) && areIndependent rest

def word? (t : Text) : Option (Value × Text) :=
  let (word, rest) := splitWord t
  if word = "true".toList then some (.boolean true, rest)
  else if word = "false".toList then some (.boolean false, rest)
  else if isNumberOrDate word then some (.other, rest)
  else none

mutual

/-- A value in which at most `levels` arrays and tables stand inside one another. -/
def valueFrom? : (levels fuel : Nat) → Text → Option (Value × Text)
  | _, 0, _ => none
  | levels + 1, fuel + 1, '[' :: rest =>
    (itemsFrom? levels fuel rest).map fun p => (.array p.1, p.2)
  | levels + 1, fuel + 1, '\x7b' :: rest =>
    match dropSpaces rest with
    | '\x7d' :: rest => some (.table [], rest)
    | rest => do
      let (pairs, rest) ← pairsFrom? levels fuel rest
      if areIndependent (pairs.map Prod.fst) then some (.table pairs, rest) else none
  | _, _ + 1, c :: rest =>
    if c = quote || c = apostrophe then (string? (c :: rest)).map fun p => (.text p.1, p.2)
    else word? (c :: rest)
  | _, _, [] => none

def itemsFrom? : (levels fuel : Nat) → Text → Option (List Value × Text)
  | _, 0, _ => none
  | levels, fuel + 1, t =>
    match skipLines? false t with
    | some (']' :: rest) => some ([], rest)
    | some t => do
      let (item, rest) ← valueFrom? levels fuel t
      match ← skipLines? false rest with
      | ',' :: rest =>
        let (items, rest) ← itemsFrom? levels fuel rest
        some (item :: items, rest)
      | ']' :: rest => some ([item], rest)
      | _ => none
    | none => none

def pairsFrom? : (levels fuel : Nat) → Text → Option (List (List Text × Value) × Text)
  | _, 0, _ => none
  | levels, fuel + 1, t => do
    let (path, rest) ← path? t
    let (value, rest) ← valueFrom? levels fuel (dropSpaces (← dropChar? '=' rest))
    match dropSpaces rest with
    | ',' :: rest =>
      let (pairs, rest) ← pairsFrom? levels fuel rest
      some ((path, value) :: pairs, rest)
    | '\x7d' :: rest => some ([(path, value)], rest)
    | _ => none

end

/-- A value and what follows it. Each level of nesting and each item takes a letter at least, which
bounds the depth of the reading. -/
def value? (t : Text) : Option (Value × Text) := valueFrom? maxLevels (2 * t.length + 2) t

def statement? (t : Text) : Option (Statement × Text) :=
  match t with
  | '[' :: '[' :: rest => do
    let (path, rest) ← path? rest
    some (.arrayHeader path, ← dropChar? ']' (← dropChar? ']' rest))
  | '[' :: rest => do
    let (path, rest) ← path? rest
    some (.header path, ← dropChar? ']' rest)
  | _ => do
    let (path, rest) ← path? t
    let (value, rest) ← value? (dropSpaces (← dropChar? '=' rest))
    some (.pair path value, rest)

def statementsFrom? : Nat → Text → Option (List Statement)
  | 0, _ => none
  | fuel + 1, t =>
    match skipLines? false t with
    | none => none
    | some [] => some []
    | some t => do
      let (statement, rest) ← statement? t
      let statements ← statementsFrom? fuel (← endLine? rest)
      some (statement :: statements)

def statements? (source : Text) : Option (List Statement) :=
  let t :=
    match source with
    | '\ufeff' :: rest => rest
    | t => t
  statementsFrom? (t.length + 1) t

end UtilityCss.Toml
