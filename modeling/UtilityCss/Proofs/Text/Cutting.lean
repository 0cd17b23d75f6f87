import Mathlib
import UtilityCss.Text.Basic

/-!
# Cutting at a character

What is taken off the front of a text, searched for in it or matched against it depends on no more
than the part before a character that ends the matter.
-/
namespace UtilityCss

theorem eq_append_of_append_eq_append_cons {α : Type} {l r pre post : List α} {a : α}
    (h : l ++ r = pre ++ a :: post) :
    (∃ pre', pre = l ++ pre' ∧ r = pre' ++ a :: post) ∨ ∃ q, l = pre ++ a :: q ∧ post = q ++ r := by
  rcases List.append_eq_append_iff.mp h with ⟨pre', hpre, hr⟩ | ⟨q, hl, hpost⟩
  · exact .inl ⟨pre', hpre, hr⟩
  · cases q with
    | nil => exact .inl ⟨[], by simpa using hl.symm, by simpa using hpost.symm⟩
    | cons b q =>
      obtain ⟨rfl, hrest⟩ := List.cons.inj hpost
      exact .inr ⟨q, hl, hrest⟩

namespace Text

theorem takeWhile_append_cons {p : Char → Bool} {a : Text} {c : Char} (hc : p c = false)
    (b : Text) : (a ++ c :: b).takeWhile p = a.takeWhile p := by
  induction a with
  | nil => simp [hc]
  | cons d a ih =>
    rw [List.cons_append, List.takeWhile_cons, List.takeWhile_cons, ih]

theorem dropWhile_append_cons {p : Char → Bool} {a : Text} {c : Char} (hc : p c = false)
    (b : Text) : (a ++ c :: b).dropWhile p = a.dropWhile p ++ c :: b := by
  induction a with
  | nil => simp [hc]
  | cons d a ih =>
    rw [List.cons_append, List.dropWhile_cons, List.dropWhile_cons, ih]
    split_ifs <;> rfl

theorem isPrefix_of_append_cons {w a b : Text} {c : Char} (h : w <+: a ++ c :: b) (hc : c ∉ w) :
    w <+: a := by
  rcases List.prefix_or_prefix_of_prefix h (List.prefix_append a (c :: b)) with hwa | ⟨u, rfl⟩
  · exact hwa
  · rw [List.prefix_append_right_inj] at h
    cases u with
    | nil => rw [List.append_nil]
    | cons d u =>
      obtain ⟨rfl, -⟩ := List.cons_prefix_cons.mp h
      simp at hc

theorem hasInfix_append {t w : Text} (h : t.hasInfix w = true) (a : Text) :
    hasInfix (a ++ t) w = true := by
  induction a with
  | nil => exact h
  | cons c a ih => rw [List.cons_append, hasInfix, ih, Bool.or_true]

theorem splitFirst?_append_cons {mark : Char} {a : Text} (ha : mark ∉ a) (b : Text) :
    splitFirst? mark (a ++ mark :: b) = some (a, b) := by
  induction a with
  | nil => simp [splitFirst?]
  | cons c a ih =>
    rw [List.mem_cons, not_or] at ha
    simp [splitFirst?, Ne.symm ha.1, ih ha.2]

theorem notMem_of_splitFirst? {mark : Char} {t a b : Text}
    (h : splitFirst? mark t = some (a, b)) : mark ∉ a := by
  induction t generalizing a with
  | nil => cases h
  | cons c t ih =>
    rw [splitFirst?] at h
    split_ifs at h with hc
    · cases h
      exact List.not_mem_nil
    · obtain ⟨p, hp, heq⟩ := Option.map_eq_some_iff.mp h
      cases heq
      rw [List.mem_cons, not_or]
      exact ⟨Ne.symm hc, ih hp⟩

theorem splitLast?_eq_none_iff {mark : Char} {t : Text} :
    splitLast? mark t = none ↔ mark ∉ t := by
  induction t with
  | nil => simp [splitLast?]
  | cons c t ih =>
    rw [splitLast?, List.mem_cons, not_or, ← ih]
    cases splitLast? mark t with
    | some p => simp
    | none => simp [eq_comm]

theorem splitLast?_append_cons {mark : Char} (a : Text) {b : Text} (hb : mark ∉ b) :
    splitLast? mark (a ++ mark :: b) = some (a, b) := by
  induction a with
  | nil => simp [splitLast?, splitLast?_eq_none_iff.mpr hb]
  | cons c a ih => simp [splitLast?, ih]

theorem eq_append_of_splitLast? {mark : Char} {t a b : Text}
    (h : splitLast? mark t = some (a, b)) : t = a ++ mark :: b := by
  induction t generalizing a with
  | nil => simp [splitLast?] at h
  | cons c cs ih =>
    simp only [splitLast?] at h
    split at h
    · rename_i p hp
      cases h
      simp [ih hp]
    · split at h
      · rename_i hc
        cases h
        rw [hc, List.nil_append]
      · cases h

theorem notMem_of_splitLast? {mark : Char} {t a b : Text}
    (h : splitLast? mark t = some (a, b)) : mark ∉ b := by
  induction t generalizing a with
  | nil => cases h
  | cons c t ih =>
    rw [splitLast?] at h
    split at h
    · rename_i p hp
      cases h
      exact ih hp
    · rename_i hnone
      split_ifs at h
      cases h
      exact splitLast?_eq_none_iff.mp hnone

end Text
end UtilityCss
