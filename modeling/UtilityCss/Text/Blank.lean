import UtilityCss.Text.Basic

/-!
# Blank characters

Two classes of blanks. `isBlank` is the White_Space property of Unicode and decides what trimming
removes; `isAsciiSpace` is what separates statements of a stylesheet.
-/
namespace UtilityCss.Text

/-- The characters with the White_Space property. -/
def isBlank (c : Char) : Bool :=
  let n := c.toNat
  (0x09 ≤ n && n ≤ 0x0D) || n == 0x20 || n == 0x85 || n == 0xA0 || n == 0x1680 ||
    (0x2000 ≤ n && n ≤ 0x200A) || n == 0x2028 || n == 0x2029 || n == 0x202F || n == 0x205F ||
    n == 0x3000

/-- Tab, line feed, form feed, carriage return and space; the vertical tab is not among them. -/
def isAsciiSpace (c : Char) : Bool :=
  let n := c.toNat
  n == 0x09 || n == 0x0A || n == 0x0C || n == 0x0D || n == 0x20

def isBlankText (t : Text) : Bool := t.all isBlank

def trimLeft (t : Text) : Text := t.dropWhile isBlank

def leadingBlanks (t : Text) : Text := t.takeWhile isBlank

def trimRight (t : Text) : Text := (t.reverse.dropWhile isBlank).reverse

def trailingBlanks (t : Text) : Text := (t.reverse.takeWhile isBlank).reverse

def trim (t : Text) : Text := trimLeft (trimRight t)

theorem isBlank_of_isAsciiSpace {c : Char} (h : isAsciiSpace c = true) : isBlank c = true := by
  simp only [isAsciiSpace, isBlank, Bool.or_eq_true, beq_iff_eq, Bool.and_eq_true,
    decide_eq_true_eq] at h ⊢
  omega

theorem leadingBlanks_append_trimLeft (t : Text) : leadingBlanks t ++ trimLeft t = t :=
  List.takeWhile_append_dropWhile

theorem trimRight_append_trailingBlanks (t : Text) : trimRight t ++ trailingBlanks t = t := by
  unfold trimRight trailingBlanks
  rw [← List.reverse_append, List.takeWhile_append_dropWhile, List.reverse_reverse]

end UtilityCss.Text
