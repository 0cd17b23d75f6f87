import UtilityCss.Text.Basic

/-!
# Strings of a TOML document

Basic strings know escapes and literal strings do not; both may run over several lines when three
quotes enclose them. No string holds a control character other than a tab. The readers below start
just past the opening quotes and give the text and what follows the closing quotes.

Part of the outer layer, a stand-in for a TOML library: see the settings files.
-/
namespace UtilityCss.Toml

def quote : Char := '\x22'

def apostrophe : Char := '\x27'

def isSpace (c : Char) : Bool := c = ' ' || c = '\t'

def isPlain (c : Char) : Bool := c = '\t' || (' ' ≤ c && c ≠ '\x7f')

def hexDigit? (c : Char) : Option Nat :=
  if '0' ≤ c ∧ c ≤ '9' then some (c.toNat - '0'.toNat)
  else if 'a' ≤ c ∧ c ≤ 'f' then some (c.toNat - 'a'.toNat + 10)
  else if 'A' ≤ c ∧ c ≤ 'F' then some (c.toNat - 'A'.toNat + 10)
  else none

def hexValue? (digits : Text) : Option Nat :=
  digits.foldlM (fun n c => (hexDigit? c).map (16 * n + ·)) 0

def charOfHex? (digits : Text) : Option Char := do
  let n ← hexValue? digits
  if n < 0xD800 ∨ (0xDFFF < n ∧ n < 0x110000) then some (Char.ofNat n) else none

def escaped? (c : Char) : Option Char :=
  if c = 'b' then some '\x08'
  else if c = 't' then some '\t'
  else if c = 'n' then some '\n'
  else if c = 'f' then some '\x0c'
  else if c = 'r' then some '\r'
  else if c = quote || c = '\\' then some c
  else none

def dropLineBreak? : Text → Option Text
  | '\n' :: rest => some rest
  | '\r' :: '\n' :: rest => some rest
  | _ => none

def dropLineBreak (t : Text) : Text := (dropLineBreak? t).getD t

def endsLine (t : Text) : Bool := (dropLineBreak? (t.dropWhile isSpace)).isSome

def put (c : Option Char) (read : Option (Text × Text)) : Option (Text × Text) := do
  let c ← c
  let (t, rest) ← read
  return (c :: t, rest)

/-- The end of a string of several lines, after one of its quotes `q`: two more close it, and up to
two before those belong to the text. -/
def closing? (q : Char) (t : Text) : Option (Text × Text) :=
  if t.take 2 ≠ [q, q] then none
  else if t.take 4 = [q, q, q, q] then some ([q, q], t.drop 4)
  else if t.take 3 = [q, q, q] then some ([q], t.drop 3)
  else some ([], t.drop 2)

/-- Read a basic string. A backslash at the end of a line of several makes the reader skip blanks
until the next visible character. -/
def basicFrom (lines : Bool) : (skipping : Bool) → Text → Option (Text × Text)
  | _, [] => none
  | skipping, c :: cs =>
    if c = '\\' then
      match cs with
      | 'u' :: c1 :: c2 :: c3 :: c4 :: rest =>
        put (charOfHex? [c1, c2, c3, c4]) (basicFrom lines false rest)
      | 'U' :: c1 :: c2 :: c3 :: c4 :: c5 :: c6 :: c7 :: c8 :: rest =>
        put (charOfHex? [c1, c2, c3, c4, c5, c6, c7, c8]) (basicFrom lines false rest)
      | e :: rest =>
        match escaped? e with
        | some x => put (some x) (basicFrom lines false rest)
        | none => if lines && endsLine (e :: rest) then basicFrom lines true (e :: rest) else none
      | [] => none
    else if skipping && (isSpace c || c = '\n') then basicFrom lines true cs
    else if c = '\r' then
      match cs with
      | '\n' :: rest =>
        if !lines then none
        else if skipping then basicFrom lines true rest
        else put (some '\n') (basicFrom lines false rest)
      | _ => none
    else if c = quote then
      if lines then (closing? quote cs).or (put (some c) (basicFrom lines false cs))
      else some ([], cs)
    else if isPlain c || (lines && c = '\n') then put (some c) (basicFrom lines false cs)
    else none

def literalFrom (lines : Bool) : Text → Option (Text × Text)
  | [] => none
  | c :: cs =>
    if c = '\r' then
      match cs with
      | '\n' :: rest => if lines then put (some '\n') (literalFrom lines rest) else none
      | _ => none
    else if c = apostrophe then
      if lines then (closing? apostrophe cs).or (put (some c) (literalFrom lines cs))
      else some ([], cs)
    else if isPlain c || (lines && c = '\n') then put (some c) (literalFrom lines cs)
    else none

def lineString? : Text → Option (Text × Text)
  | '\x22' :: rest => basicFrom false false rest
  | '\x27' :: rest => literalFrom false rest
  | _ => none

def string? : Text → Option (Text × Text)
  | '\x22' :: '\x22' :: '\x22' :: rest => basicFrom true false (dropLineBreak rest)
  | '\x27' :: '\x27' :: '\x27' :: rest => literalFrom true (dropLineBreak rest)
  | t => lineString? t

end UtilityCss.Toml
