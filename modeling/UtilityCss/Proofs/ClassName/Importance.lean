import UtilityCss.Proofs.ClassName.CanonicalText

/-!
# Both places of the exclamation mark

The exclamation mark of a class name stands before or behind its last piece. It opens, closes and
escapes nothing, so the name is cut as it is without the mark, and once the mark is taken off the
same text is left to be read. So both places have the meanings of the name without the mark, made
important.
-/
namespace UtilityCss

namespace Segment

theorem State.uncut_cons_mark {t : Text} (h : start.uncut ':' t = true) :
    start.uncut ':' ('!' :: t) = true := by
  have hstep : start.step '!' = start := by decide
  simp [uncut, cutsAt, hstep, h]

theorem State.uncut_append_mark {s : State} {t : Text} (h : s.uncut ':' t = true) :
    s.uncut ':' (t ++ ['!']) = true := by
  simp [uncut_append, uncut, cutsAt, h]

theorem exists_split_append {sep : Char} {p b : Text}
    (h : (split sep (p ++ b)).getLast? = some b) :
    State.start.uncut sep b = true ∧ ∃ front, ∀ t, State.start.uncut sep t = true →
      split sep (p ++ t) = front ++ [t] := by
  obtain ⟨front, hsplit⟩ := List.getLast?_eq_some_iff.mp h
  obtain ⟨hseparated, hjoin⟩ := separated_split sep (p ++ b)
  rw [hsplit] at hseparated hjoin
  have hlast : ∀ t, join sep (front ++ [t]) = join sep (front ++ [[]]) ++ t :=
    join_append_last sep front []
  have hp : join sep (front ++ [[]]) = p := by
    rw [hlast] at hjoin
    exact List.append_cancel_right hjoin
  refine ⟨hseparated.uncut_last, front, fun t ht => ?_⟩
  rw [← hp, ← hlast]
  exact (hseparated.replace_last ht).split_join

end Segment

namespace Candidate

theorem splitImportant_cons_mark {t : Text} (hlast : t.getLast? ≠ some '!') :
    splitImportant ('!' :: t) = (t, true) := by
  cases t with
  | nil => rfl
  | cons c t => simp [splitImportant, List.getLast?_cons_cons, hlast]

def unnamed (c : Candidate) : Candidate := { c with raw := [] }

theorem write_unnamed (c : Candidate) : c.unnamed.write = c.write := rfl

/-- A mark on the last piece of a class name makes the readings of the name important. -/
theorem map_unnamed_readAll_of_mark {r : Registry} {raw marked base piece : Text}
    {front : List Text} (hraw : Segment.split ':' raw = front ++ [base])
    (hbase : splitImportant base = (base, false))
    (hmarked : Segment.split ':' marked = front ++ [piece])
    (hpiece : splitImportant piece = (base, true)) :
    (readAll r marked).map unnamed =
      (readAll r raw).map fun c => { c.unnamed with important := true } := by
  simp only [readAll, hraw, hmarked, List.dropLast_concat, List.getLast?_concat, Option.getD_some,
    hbase, hpiece]
  cases readVariants? r front with
  | none => rfl
  | some variants => simp [unnamed]

theorem canonicalTexts_congr {r : Registry} {raw raw' : Text}
    (h : (readAll r raw).map unnamed = (readAll r raw').map unnamed) :
    canonicalTexts r raw = canonicalTexts r raw' := by
  have htexts : ∀ raw, (readAll r raw).map write = ((readAll r raw).map unnamed).map write := by
    intro raw
    rw [List.map_map]
    exact List.map_congr_left fun c _ => (write_unnamed c).symm
  rw [canonicalTexts_eq_eraseDups, canonicalTexts_eq_eraseDups, htexts, htexts, h]

theorem important_of_map_unnamed {l l' : List Candidate}
    (h : l.map unnamed = l'.map fun c => { c.unnamed with important := true }) :
    ∀ c ∈ l, c.important = true := by
  intro c hc
  have hmem : c.unnamed ∈ l'.map fun c => { c.unnamed with important := true } :=
    h ▸ List.mem_map_of_mem hc
  obtain ⟨c', -, heq⟩ := List.mem_map.mp hmem
  exact (congrArg important heq).symm

/-- An exclamation mark before the last piece `b` of a class name and one behind it give the same
readings and the same canonical texts. They are the readings of the name without the mark, made
important. The text `p` before the last piece is empty or ends with a colon. -/
theorem readAll_mark_at_both_ends (r : Registry) {p b : Text}
    (hpiece : (Segment.split ':' (p ++ b)).getLast? = some b) (hhead : b.head? ≠ some '!')
    (hlast : b.getLast? ≠ some '!') :
    (readAll r (p ++ '!' :: b)).map unnamed = (readAll r (p ++ b ++ ['!'])).map unnamed ∧
      (∀ c ∈ readAll r (p ++ '!' :: b), c.important = true) ∧
      (∀ c ∈ readAll r (p ++ b ++ ['!']), c.important = true) ∧
      canonicalTexts r (p ++ '!' :: b) = canonicalTexts r (p ++ b ++ ['!']) ∧
      (readAll r (p ++ '!' :: b)).map unnamed =
        (readAll r (p ++ b)).map fun c => { c.unnamed with important := true } := by
  obtain ⟨huncut, front, hsplit⟩ := Segment.exists_split_append hpiece
  have hplain := splitImportant_of_no_mark hlast hhead
  have hbefore := map_unnamed_readAll_of_mark (r := r) (hsplit b huncut) hplain
    (hsplit _ (Segment.State.uncut_cons_mark huncut)) (splitImportant_cons_mark hlast)
  have hbehind := map_unnamed_readAll_of_mark (r := r) (hsplit b huncut) hplain
    (hsplit _ (Segment.State.uncut_append_mark huncut)) (splitImportant_append_mark b)
  rw [← List.append_assoc] at hbehind
  have hsame := hbefore.trans hbehind.symm
  exact ⟨hsame, important_of_map_unnamed hbefore, important_of_map_unnamed hbehind,
    canonicalTexts_congr hsame, hbefore⟩

/-- The last piece has an open bracket with a colon in it and ends with a backslash. -/
theorem readAll_mark_after_backslash :
    (Segment.split ':' ("hover:".toList ++ "w-1/(a:b\\".toList)).getLast? =
        some "w-1/(a:b\\".toList ∧
      canonicalTexts .builtIn ("hover:".toList ++ '!' :: "w-1/(a:b\\".toList) =
        ["hover:w-1/(a:b\\!".toList] ∧
      canonicalTexts .builtIn ("hover:".toList ++ "w-1/(a:b\\".toList ++ ['!']) =
        ["hover:w-1/(a:b\\!".toList] := by
  have hpiece : (Segment.split ':' ("hover:".toList ++ "w-1/(a:b\\".toList)).getLast? =
      some "w-1/(a:b\\".toList := by decide
  obtain ⟨-, -, -, htexts, -⟩ :=
    readAll_mark_at_both_ends .builtIn hpiece (by decide) (by decide)
  have hbehind : canonicalTexts .builtIn ("hover:".toList ++ "w-1/(a:b\\".toList ++ ['!']) =
      ["hover:w-1/(a:b\\!".toList] := by decide +kernel
  exact ⟨hpiece, htexts.trans hbehind, hbehind⟩

end Candidate
end UtilityCss
