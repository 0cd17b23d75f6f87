import UtilityCss.Toml.Quoted

/-!
# Numbers and dates of a TOML document

Whether a word is a number, a date or a time. Their values matter only as far as they can be out of
range: nothing here is configured by them.

Part of the outer layer, a stand-in for a TOML library: see the settings files.
-/
namespace UtilityCss.Toml

/-- Digits with single underscores between them. -/
def isDigits (isDigit : Char → Bool) (t : Text) : Bool :=
  (t.splitOn '_').all fun part => !part.isEmpty && part.all isDigit

def unsigned : Text → Text
  | '+' :: t => t
  | '-' :: t => t
  | t => t

def numeral (base : Nat) (t : Text) : Nat :=
  (t.filterMap hexDigit?).foldl (fun n d => base * n + d) 0

def fits (negative : Bool) (base : Nat) (t : Text) : Bool :=
  let n := numeral base t
  if negative then n ≤ 0x8000000000000000 else n < 0x8000000000000000

def isDecimal (t : Text) : Bool := isDigits Char.isDigit t && (t.head? ≠ some '0' || t = ['0'])

def isInteger : Text → Bool
  | '0' :: 'x' :: t => isDigits (fun c => (hexDigit? c).isSome) t && fits false 16 t
  | '0' :: 'o' :: t => isDigits (fun c => '0' ≤ c && c ≤ '7') t && fits false 8 t
  | '0' :: 'b' :: t => isDigits (fun c => c = '0' || c = '1') t && fits false 2 t
  | t => isDecimal (unsigned t) && fits (t.head? = some '-') 10 (unsigned t)

/-- A number with a fraction or an exponent or both, without its sign. -/
structure Decimal where
  whole : Text
  fraction : Option Text
  exponent : Option Text

namespace Decimal

/-- The parts of a number: the exponent stands after a letter, the fraction after a point. -/
def ofText (t : Text) : Decimal :=
  let (number, exponent) :=
    match (t.splitFirst? 'e').or (t.splitFirst? 'E') with
    | some (number, exponent) => (number, some exponent)
    | none => (t, none)
  match number.splitFirst? '.' with
  | some (whole, fraction) => ⟨whole, some fraction, exponent⟩
  | none => ⟨number, none, exponent⟩

def isWellFormed (d : Decimal) : Bool :=
  isDecimal d.whole && d.fraction.all (isDigits Char.isDigit) &&
    d.exponent.all (fun t => isDigits Char.isDigit (unsigned t)) &&
    (d.fraction.isSome || d.exponent.isSome)

def shift (d : Decimal) : Int :=
  match d.exponent with
  | some ('-' :: t) => -(numeral 10 t : Int)
  | some t => numeral 10 t
  | none => 0

/-- Half a unit above the largest double. What is not below it is rounded to infinity, for a tie
goes to the even neighbour. -/
def overflowBound : Nat := Nat.pow 2 1024 - Nat.pow 2 970

/-- Whether the number is rounded to infinity. The bound is a whole number of 309 digits, so the
digits before the point decide, once the exponent has moved it and leading zeros are gone. -/
def overflows (d : Decimal) : Bool :=
  let whole := d.whole.filter Char.isDigit
  let digits := whole ++ (d.fraction.getD []).filter Char.isDigit
  let significant := digits.dropWhile (· = '0')
  let places := d.shift + whole.length + significant.length - digits.length
  !significant.isEmpty && (decide (309 < places) ||
    (decide (places = 309) &&
      decide (overflowBound ≤ numeral 10 ((significant ++ List.replicate 309 '0').take 309))))

end Decimal

/-- A float. A positive one must not be rounded to infinity; a negative one may. -/
def isFloat (t : Text) : Bool :=
  let magnitude := unsigned t
  if magnitude = "inf".toList || magnitude = "nan".toList then true
  else
    let number := Decimal.ofText magnitude
    number.isWellFormed && (t.head? = some '-' || !number.overflows)

def number? (n : Nat) (t : Text) : Option (Nat × Text) :=
  let digits := t.take n
  if digits.length = n ∧ digits.all Char.isDigit then
    some (numeral 10 digits, t.drop n)
  else none

def dropChar? (c : Char) : Text → Option Text
  | d :: t => if d = c then some t else none
  | [] => none

def daysIn (year month : Nat) : Nat :=
  if month = 2 then
    if year % 4 = 0 ∧ (year % 100 ≠ 0 ∨ year % 400 = 0) then 29 else 28
  else if month = 4 ∨ month = 6 ∨ month = 9 ∨ month = 11 then 30
  else 31

def date? (t : Text) : Option Text := do
  let (year, t) ← number? 4 t
  let (month, t) ← number? 2 (← dropChar? '-' t)
  let (day, t) ← number? 2 (← dropChar? '-' t)
  if 1 ≤ month ∧ month ≤ 12 ∧ 1 ≤ day ∧ day ≤ daysIn year month then some t else none

def time? (t : Text) : Option Text := do
  let (hour, t) ← number? 2 t
  let (minute, t) ← number? 2 (← dropChar? ':' t)
  let (second, t) ← number? 2 (← dropChar? ':' t)
  if hour ≤ 23 ∧ minute ≤ 59 ∧ second ≤ 60 then
    match t with
    | '.' :: digits =>
      if digits.head?.any Char.isDigit then some (digits.dropWhile Char.isDigit) else none
    | t => some t
  else none

def isOffset (t : Text) : Bool :=
  if t = [] || t = ['Z'] || t = ['z'] then true
  else if t.head? = some '+' || t.head? = some '-' then
    match number? 2 (unsigned t) with
    | some (hour, ':' :: rest) =>
      match number? 2 rest with
      | some (minute, []) => hour ≤ 23 && minute ≤ 59
      | _ => false
    | _ => false
  else false

def isDateTime (t : Text) : Bool :=
  match date? t with
  | some [] => true
  | some (c :: rest) =>
    (c = 'T' || c = 't' || c = ' ') && (time? rest).any isOffset
  | none => time? t = some []

def isWordLetter (c : Char) : Bool := c.isAlphanum || decide (c ∈ "+-._:".toList)

/-- The word at the beginning of a text. One space may stand between a date and a time. -/
def splitWord (t : Text) : Text × Text :=
  let word := t.takeWhile isWordLetter
  let rest := t.dropWhile isWordLetter
  match rest with
  | ' ' :: later =>
    if date? word = some [] && later.head?.any Char.isDigit then
      (word ++ ' ' :: later.takeWhile isWordLetter, later.dropWhile isWordLetter)
    else (word, rest)
  | _ => (word, rest)

def isNumberOrDate (t : Text) : Bool := isInteger t || isFloat t || isDateTime t

end UtilityCss.Toml
