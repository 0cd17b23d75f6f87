import Mathlib
import UtilityCss.Text.Blank

/-!
# Trimming

A text falls into what trimming keeps and the blanks that it removes, in only one way.
-/
namespace UtilityCss.Text

theorem ne_of_isBlank {c d : Char} (hc : isBlank c = true) (hd : isBlank d = false) : c ≠ d := by
  rintro rfl
  rw [hc] at hd
  cases hd

theorem splitFirst?_eq_none_iff {mark : Char} {t : Text} :
    splitFirst? mark t = none ↔ mark ∉ t := by
  induction t with
  | nil => simp [splitFirst?]
  | cons c t ih =>
    rw [splitFirst?, List.mem_cons, not_or]
    split_ifs with hc
    · simp [hc]
    · rw [Option.map_eq_none_iff, ih]
      exact (and_iff_right fun heq => hc heq.symm).symm

theorem isBlankText_append (a b : Text) :
    isBlankText (a ++ b) = (isBlankText a && isBlankText b) :=
  List.all_append

theorem isBlankText_trailingBlanks (t : Text) : isBlankText (trailingBlanks t) = true := by
  unfold isBlankText trailingBlanks
  rw [List.all_reverse]
  exact List.all_takeWhile

theorem trimRight_append_of_isBlankText (a : Text) {b : Text} (hb : b.isBlankText = true) :
    trimRight (a ++ b) = trimRight a := by
  have hb' : ∀ c ∈ b.reverse, isBlank c = true := fun c hc =>
    List.all_eq_true.mp hb c (List.mem_reverse.mp hc)
  unfold trimRight
  rw [List.reverse_append, List.dropWhile_append_of_pos hb']

theorem trailingBlanks_append_of_isBlankText (a : Text) {b : Text} (hb : b.isBlankText = true) :
    trailingBlanks (a ++ b) = trailingBlanks a ++ b := by
  have hb' : ∀ c ∈ b.reverse, isBlank c = true := fun c hc =>
    List.all_eq_true.mp hb c (List.mem_reverse.mp hc)
  unfold trailingBlanks
  rw [List.reverse_append, List.takeWhile_append_of_pos hb', List.reverse_append,
    List.reverse_reverse]

theorem trimRight_trimRight (t : Text) : trimRight (trimRight t) = trimRight t := by
  conv_rhs => rw [← trimRight_append_trailingBlanks t]
  rw [trimRight_append_of_isBlankText _ (isBlankText_trailingBlanks t)]

theorem trailingBlanks_of_trimRight_eq {t : Text} (h : trimRight t = t) :
    trailingBlanks t = [] := by
  have happ := trimRight_append_trailingBlanks t
  rw [h] at happ
  exact List.append_right_eq_self.mp happ

theorem trimRight_of_isBlankText {t : Text} (h : t.isBlankText = true) : trimRight t = [] := by
  have := trimRight_append_of_isBlankText [] h
  rwa [List.nil_append] at this

theorem eq_nil_of_trimRight_append {a b : Text} (h : trimRight (a ++ b) = a ++ b)
    (hb : b.isBlankText = true) : b = [] := by
  have hnil := trailingBlanks_of_trimRight_eq h
  rw [trailingBlanks_append_of_isBlankText a hb] at hnil
  exact (List.append_eq_nil_iff.mp hnil).2

theorem trimLeft_eq_nil_iff {t : Text} : trimLeft t = [] ↔ t.isBlankText = true := by
  unfold trimLeft isBlankText
  rw [List.dropWhile_eq_nil_iff, List.all_eq_true]

theorem takeWhile_asciiSpace_append {before t : Text} (hb : before.all isAsciiSpace = true)
    (ht : ∀ c ∈ t.head?, isAsciiSpace c = false) :
    (before ++ t).takeWhile isAsciiSpace = before := by
  rw [List.takeWhile_append_of_pos (List.all_eq_true.mp hb)]
  cases t with
  | nil => simp
  | cons c cs =>
    have hc := ht c rfl
    simp [hc]

theorem dropWhile_asciiSpace_append {before t : Text} (hb : before.all isAsciiSpace = true)
    (ht : ∀ c ∈ t.head?, isAsciiSpace c = false) : (before ++ t).dropWhile isAsciiSpace = t := by
  rw [List.dropWhile_append_of_pos (List.all_eq_true.mp hb)]
  cases t with
  | nil => rfl
  | cons c cs =>
    have hc := ht c rfl
    simp [hc]

theorem trimRight_cons {c : Char} (hc : isBlank c = false) (t : Text) :
    trimRight (c :: t) = c :: trimRight t := by
  unfold trimRight
  rw [List.reverse_cons, List.dropWhile_append]
  split_ifs with hnil
  · rw [List.isEmpty_iff] at hnil
    rw [hnil]
    simp [hc]
  · rw [List.reverse_append, List.reverse_singleton, List.singleton_append]

theorem trimRight_append_singleton {c : Char} (hc : isBlank c = false) (t : Text) :
    trimRight (t ++ [c]) = t ++ [c] := by
  unfold trimRight
  rw [List.reverse_append, List.reverse_singleton, List.singleton_append, List.dropWhile_cons, hc,
    if_neg Bool.false_ne_true, List.reverse_cons, List.reverse_reverse]

theorem trimLeft_append (a b : Text) :
    trimLeft (a ++ b) = if a.isBlankText then trimLeft b else trimLeft a ++ b := by
  unfold trimLeft
  rw [List.dropWhile_append]
  by_cases hblank : a.isBlankText = true
  · have hnil : a.dropWhile isBlank = [] := trimLeft_eq_nil_iff.mpr hblank
    rw [hnil, if_pos hblank]
    rfl
  · have hne : a.dropWhile isBlank ≠ [] := fun hnil => hblank (trimLeft_eq_nil_iff.mp hnil)
    rw [if_neg hblank, if_neg (by simpa using hne)]

theorem isBlankText_leadingBlanks (t : Text) : isBlankText (leadingBlanks t) = true :=
  List.all_takeWhile

theorem isBlank_of_trimLeft_eq_cons {t q : Text} {c : Char} (h : trimLeft t = c :: q) :
    isBlank c = false := by
  have hhead := List.head?_dropWhile_not isBlank t
  change (t.dropWhile isBlank) = c :: q at h
  rw [h] at hhead
  simpa using hhead

theorem leadingBlanks_append_cons {a : Text} (ha : a.isBlankText = true) {c : Char}
    (hc : isBlank c = false) (b : Text) : leadingBlanks (a ++ c :: b) = a := by
  unfold leadingBlanks
  rw [List.takeWhile_append_of_pos (List.all_eq_true.mp ha)]
  simp [hc]

theorem leadingBlanks_append {a : Text} (ha : a.isBlankText = false) (b : Text) :
    leadingBlanks (a ++ b) = leadingBlanks a := by
  cases hrest : trimLeft a with
  | nil =>
    rw [trimLeft_eq_nil_iff.mp hrest] at ha
    cases ha
  | cons c q =>
    have happ := leadingBlanks_append_trimLeft a
    rw [hrest] at happ
    conv_lhs => rw [← happ, List.append_assoc, List.cons_append]
    exact leadingBlanks_append_cons (isBlankText_leadingBlanks a)
      (isBlank_of_trimLeft_eq_cons hrest) _

theorem leadingBlanks_newline (t : Text) : leadingBlanks ('\n' :: t) = '\n' :: leadingBlanks t :=
  List.takeWhile_cons_of_pos rfl

theorem trimLeft_append_cons {a : Text} (ha : a.isBlankText = true) {c : Char}
    (hc : isBlank c = false) (b : Text) : trimLeft (a ++ c :: b) = c :: b := by
  unfold trimLeft
  rw [List.dropWhile_append_of_pos (List.all_eq_true.mp ha)]
  simp [hc]

theorem leadingBlanks_of_isBlankText {t : Text} (h : t.isBlankText = true) :
    leadingBlanks t = t := by
  have happ := leadingBlanks_append_trimLeft t
  rwa [trimLeft_eq_nil_iff.mpr h, List.append_nil] at happ

theorem trailingBlanks_of_isBlankText {t : Text} (h : t.isBlankText = true) :
    trailingBlanks t = t := by
  have happ := trimRight_append_trailingBlanks t
  rwa [trimRight_of_isBlankText h, List.nil_append] at happ

theorem trimRight_append_cons {b : Text} (hb : b.isBlankText = true) {c : Char}
    (hc : isBlank c = false) (a : Text) : trimRight (a ++ c :: b) = a ++ [c] := by
  rw [List.append_cons, trimRight_append_of_isBlankText _ hb, trimRight_append_singleton hc]

theorem trailingBlanks_append_cons {b : Text} (hb : b.isBlankText = true) {c : Char}
    (hc : isBlank c = false) (a : Text) : trailingBlanks (a ++ c :: b) = b := by
  rw [List.append_cons, trailingBlanks_append_of_isBlankText _ hb,
    trailingBlanks_of_trimRight_eq (trimRight_append_singleton hc a), List.nil_append]

theorem isBlankText_or_eq_append_cons (t : Text) :
    t.isBlankText = true ∨
      ∃ (a : Text) (c : Char) (b : Text),
        t = a ++ c :: b ∧ isBlank c = false ∧ b.isBlankText = true := by
  induction t with
  | nil => exact .inl rfl
  | cons d t ih =>
    rcases ih with hblank | ⟨a, c, b, rfl, hc, hb⟩
    · cases hd : isBlank d with
      | true => exact .inl (by rw [isBlankText, List.all_cons, hd]; exact hblank)
      | false => exact .inr ⟨[], d, t, rfl, hd, hblank⟩
    · exact .inr ⟨d :: a, c, b, rfl, hc, hb⟩

theorem trailingBlanks_append_of_trimRight_ne_nil (a : Text) {b : Text}
    (h : b.trimRight ≠ []) : trailingBlanks (a ++ b) = trailingBlanks b := by
  rcases isBlankText_or_eq_append_cons b with hblank | ⟨x, c, y, rfl, hc, hy⟩
  · exact absurd (trimRight_of_isBlankText hblank) h
  · rw [← List.append_assoc, trailingBlanks_append_cons hy hc, trailingBlanks_append_cons hy hc]

theorem mem_of_mem_trailingBlanks {t : Text} {c : Char} (h : c ∈ t.trailingBlanks) : c ∈ t := by
  rw [← trimRight_append_trailingBlanks t]
  exact List.mem_append_right _ h

theorem trailing_newline {t : Text} (h : t.isBlankText = false) :
    trimRight ('\n' :: t) = '\n' :: trimRight t ∧
      trailingBlanks ('\n' :: t) = trailingBlanks t := by
  rcases isBlankText_or_eq_append_cons t with hblank | ⟨a, c, b, rfl, hc, hb⟩
  · rw [hblank] at h
    cases h
  · rw [← List.cons_append, trimRight_append_cons hb hc, trimRight_append_cons hb hc,
      trailingBlanks_append_cons hb hc, trailingBlanks_append_cons hb hc]
    exact ⟨rfl, rfl⟩

def AsciiBlanks (t : Text) : Prop := ∀ c ∈ t, isBlank c = true → isAsciiSpace c = true

instance (t : Text) : Decidable (AsciiBlanks t) :=
  decidable_of_iff ((t.all fun c => !isBlank c || isAsciiSpace c) = true) <| by
    simp only [AsciiBlanks, List.all_eq_true, Bool.or_eq_true, Bool.not_eq_true', imp_iff_not_or,
      Bool.not_eq_true]

theorem asciiBlanks_append {a b : Text} :
    AsciiBlanks (a ++ b) ↔ AsciiBlanks a ∧ AsciiBlanks b :=
  List.forall_mem_append

theorem asciiBlanks_cons {c : Char} {t : Text} :
    AsciiBlanks (c :: t) ↔ (isBlank c = true → isAsciiSpace c = true) ∧ AsciiBlanks t :=
  List.forall_mem_cons

theorem AsciiBlanks.all_isAsciiSpace {t : Text} (h : AsciiBlanks t) (ht : t.isBlankText = true) :
    t.all isAsciiSpace = true := by
  apply List.all_eq_true.mpr
  intro c hc
  exact h c hc (List.all_eq_true.mp ht c hc)

end UtilityCss.Text
