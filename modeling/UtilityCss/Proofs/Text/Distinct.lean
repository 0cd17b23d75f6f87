import Mathlib
import UtilityCss.Text.Basic

/-!
# Elements with distinct keys

Of the elements with one key the first is kept. So the keys that are left are those of the list,
each at its first place.
-/
namespace UtilityCss.Text

variable {α : Type} {key : α → Text}

theorem nodup_eraseDups (l : List Text) : l.eraseDups.Nodup := by
  induction hlen : l.length using Nat.strong_induction_on generalizing l with
  | _ n ih =>
    cases l with
    | nil => simp
    | cons a l =>
      rw [List.eraseDups_cons, List.nodup_cons, List.mem_eraseDups]
      have hlt : (l.filter fun b => !b == a).length < n :=
        hlen ▸ Nat.lt_succ_of_le (List.length_filter_le ..)
      exact ⟨by simp, ih _ hlt _ rfl⟩

namespace distinctOn

theorem go_sublist (key : α → Text) (seen : List Text) (items : List α) :
    (go key seen items).Sublist items := by
  induction items generalizing seen with
  | nil => exact .slnil
  | cons a items ih =>
    rw [go]
    split_ifs
    · exact (ih seen).cons a
    · exact (ih _).cons_cons a

theorem map_go (key : α → Text) (seen : List Text) (items : List α) :
    (go key seen items).map key =
      ((items.map key).filter fun t => !seen.contains t).eraseDups := by
  induction items generalizing seen with
  | nil => rfl
  | cons a items ih =>
    rw [go, List.map_cons, List.filter_cons]
    by_cases hseen : seen.contains (key a) = true
    · simp only [hseen, if_true, Bool.not_true, Bool.false_eq_true, if_false, ih]
    · rw [Bool.not_eq_true] at hseen
      have hfilter : (fun t => !(key a :: seen).contains t) =
          fun t => !t == key a && !seen.contains t := by
        funext t
        rw [List.contains_cons, Bool.not_or]
      simp only [hseen, Bool.false_eq_true, if_false, Bool.not_false, if_true, List.map_cons, ih,
        List.eraseDups_cons, List.filter_filter, hfilter]

theorem find?_of_mem_go {seen : List Text} {items : List α} {a : α}
    (h : a ∈ go key seen items) :
    key a ∉ seen ∧ items.find? (fun b => key b = key a) = some a := by
  induction items generalizing seen with
  | nil => cases h
  | cons b items ih =>
    rw [go] at h
    split_ifs at h with hseen
    · obtain ⟨hnot, hfind⟩ := ih h
      have hne : key b ≠ key a := by
        intro heq
        rw [heq, List.contains_iff_mem] at hseen
        exact hnot hseen
      exact ⟨hnot, by rw [List.find?_cons_of_neg (by simpa using hne), hfind]⟩
    · rw [List.contains_iff_mem] at hseen
      rcases List.mem_cons.mp h with rfl | h
      · exact ⟨hseen, List.find?_cons_of_pos (by simp)⟩
      · obtain ⟨hnot, hfind⟩ := ih h
        rw [List.mem_cons, not_or] at hnot
        exact ⟨hnot.2, by rw [List.find?_cons_of_neg (by simpa using Ne.symm hnot.1), hfind]⟩

end distinctOn

theorem distinctOn_sublist (key : α → Text) (items : List α) :
    (distinctOn key items).Sublist items :=
  distinctOn.go_sublist key [] items

theorem map_distinctOn (key : α → Text) (items : List α) :
    (distinctOn key items).map key = (items.map key).eraseDups := by
  rw [distinctOn, distinctOn.map_go]
  simp

theorem find?_of_mem_distinctOn {items : List α} {a : α} (h : a ∈ distinctOn key items) :
    items.find? (fun b => key b = key a) = some a :=
  (distinctOn.find?_of_mem_go h).2

end UtilityCss.Text
