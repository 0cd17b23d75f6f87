/-!
# Text

A text is a list of characters. Offsets into a text count the bytes of its UTF-8 form, and the
searches below are the few that class names and stylesheets need.
-/
namespace UtilityCss

abbrev Text := List Char

namespace Text

def isQuote (c : Char) : Bool := c = '\x22' || c = '\x27'

def byteLength : Text → Nat
  | [] => 0
  | c :: cs => c.utf8Size + byteLength cs

/-- The beginning of `t` that takes up `n` bytes, or all of `t` if it is shorter. There is none
when the cut falls inside a character. -/
def takeBytes? : Nat → Text → Option Text
  | 0, _ => some []
  | _ + 1, [] => some []
  | n + 1, c :: cs =>
    if c.utf8Size ≤ n + 1 then (takeBytes? (n + 1 - c.utf8Size) cs).map (c :: ·) else none

def hasInfix : (t word : Text) → Bool
  | [], word => word.isEmpty
  | c :: cs, word => word.isPrefixOf (c :: cs) || hasInfix cs word

def splitFirst? (mark : Char) : Text → Option (Text × Text)
  | [] => none
  | c :: cs =>
    if c = mark then some ([], cs) else (splitFirst? mark cs).map fun p => (c :: p.1, p.2)

def splitLast? (mark : Char) : Text → Option (Text × Text)
  | [] => none
  | c :: cs =>
    match splitLast? mark cs with
    | some p => some (c :: p.1, p.2)
    | none => if c = mark then some ([], cs) else none

/-- What stands between an opening `[` at the start and a closing `]` at the end. -/
def bracketed? : Text → Option Text
  | '[' :: cs => if cs.getLast? = some ']' then some cs.dropLast else none
  | _ => none

/-- The elements of a list whose keys did not occur earlier in it. -/
def distinctOn {α : Type} (key : α → Text) (items : List α) : List α :=
  go [] items
where
  go (seen : List Text) : List α → List α
    | [] => []
    | a :: rest =>
      if seen.contains (key a) then go seen rest else a :: go (key a :: seen) rest

theorem byteLength_append (a b : Text) : byteLength (a ++ b) = byteLength a + byteLength b := by
  induction a with
  | nil => simp [byteLength]
  | cons c cs ih => simp [byteLength, ih, Nat.add_assoc]

theorem eq_append_of_splitFirst? {mark : Char} {t a b : Text}
    (h : splitFirst? mark t = some (a, b)) : t = a ++ mark :: b := by
  induction t generalizing a with
  | nil => simp [splitFirst?] at h
  | cons c cs ih =>
    by_cases hc : c = mark
    · simp only [splitFirst?, hc, if_true, Option.some.injEq, Prod.mk.injEq] at h
      simp [← h.1, ← h.2, hc]
    · simp only [splitFirst?, hc, if_false, Option.map_eq_some_iff] at h
      obtain ⟨p, hp, he⟩ := h
      cases he
      simp [ih hp]

end Text
end UtilityCss
