import UtilityCss.Proofs.Template.Occurrences

/-!
# Blanks divide a template

A blank cuts whatever is open before it, and what follows it is cut as if it began there. So what is
found in a template is what is found in the parts between its blanks, each moved to its place.
-/
namespace UtilityCss

open Text

namespace Token

variable {offset depth : Nat}

def shift (n : Nat) (t : Token) : Token := { t with start := n + t.start }

@[simp] theorem text_shift (n : Nat) (t : Token) : (t.shift n).text = t.text := rfl

@[simp] theorem start_shift (n : Nat) (t : Token) : (t.shift n).start = n + t.start := rfl

@[simp] theorem stop_shift (n : Nat) (t : Token) : (t.shift n).stop = n + t.stop :=
  Nat.add_assoc ..

theorem pieces_ne_nil (offset depth : Nat) (t : Text) : pieces offset depth t ≠ [] := by
  have hcut := cut_pieces offset depth t
  intro hnil
  rw [hnil] at hcut
  cases hcut

/-- Where a text begins changes nothing but the places of its pieces. -/
theorem pieces_shift (n : Nat) (t : Text) :
    pieces (n + offset) depth t = (pieces offset depth t).map (shift n) := by
  induction t generalizing offset depth with
  | nil => rfl
  | cons c t ih =>
    obtain ⟨piece, rest, hpieces⟩ :=
      List.exists_cons_of_ne_nil (pieces_ne_nil (offset + c.utf8Size) (adjust depth c) t)
    by_cases hc : cuts depth c = true
    · simp [pieces, hc, Nat.add_assoc, ih, shift]
    · simp [pieces, hc, Nat.add_assoc, ih, hpieces, shift]

/-- A blank ends the piece before it at any depth, and behind it nothing is open. -/
theorem pieces_append_blank (a b : Text) {w : Char} (hw : isBlank w = true) :
    pieces offset depth (a ++ w :: b) =
      pieces offset depth a ++ pieces (offset + a.byteLength + w.utf8Size) 0 b := by
  induction a generalizing offset depth with
  | nil => simp [pieces, cuts, hw, byteLength]
  | cons c a ih =>
    have hoffset : offset + c.utf8Size + byteLength a = offset + byteLength (c :: a) :=
      Nat.add_assoc ..
    obtain ⟨piece, rest, hpieces⟩ :=
      List.exists_cons_of_ne_nil (pieces_ne_nil (offset + c.utf8Size) (adjust depth c) a)
    by_cases hc : cuts depth c = true
    · simp [pieces, hc, ih, hoffset]
    · simp [pieces, hc, ih, hoffset, hpieces]

theorem all_append_blank (a b : Text) {w : Char} (hw : isBlank w = true) :
    all (a ++ w :: b) = all a ++ (all b).map (shift (a.byteLength + w.utf8Size)) := by
  have hrest : pieces (0 + a.byteLength + w.utf8Size) 0 b =
      (pieces 0 0 b).map (shift (a.byteLength + w.utf8Size)) := by
    rw [← pieces_shift, Nat.zero_add, Nat.add_zero]
  rw [all, pieces_append_blank a b hw, hrest, List.filter_append, List.filter_map]
  rfl

end Token

namespace Occurrence

def shift (n : Nat) (o : Occurrence) : Occurrence :=
  { o with start := n + o.start, stop := n + o.stop }

theorem ofToken_shift (r : Registry) (n : Nat) (token : Token) :
    ofToken r (token.shift n) = (ofToken r token).map (shift n) := by
  simp [ofToken, shift]

theorem bounds_of_mem_all {r : Registry} {content : Text} {o : Occurrence}
    (h : o ∈ all r content) : o.start < o.stop ∧ o.stop ≤ content.byteLength := by
  obtain ⟨token, htoken, ho⟩ := List.mem_flatMap.mp h
  obtain ⟨hstart, hstop⟩ := place_of_mem_ofToken ho
  rw [hstart, hstop]
  exact Token.bounds_of_mem_all htoken

theorem all_append_blank (r : Registry) (a b : Text) {w : Char} (hw : isBlank w = true) :
    all r (a ++ w :: b) = all r a ++ (all r b).map (shift (a.byteLength + w.utf8Size)) := by
  simp only [all, Token.all_append_blank a b hw, List.flatMap_append, List.flatMap_map,
    List.map_flatMap, ofToken_shift]

/-- A blank divides what is found in a template into what is found in the text before it and, moved
behind it, what is found in the text after it. So what is found beyond a blank is the same whatever
brackets and quotes are open before it. -/
theorem all_divided_by_blank (r : Registry) (a b : Text) {w : Char} (hw : isBlank w = true) :
    all r (a ++ w :: b) = all r a ++ (all r b).map (shift (a.byteLength + w.utf8Size)) ∧
      (all r (a ++ w :: b)).filter (a.byteLength < ·.start) =
        (all r b).map (shift (a.byteLength + w.utf8Size)) := by
  have hall := all_append_blank r a b hw
  have hbefore : (all r a).filter (a.byteLength < ·.start) = [] := by
    rw [List.filter_eq_nil_iff]
    intro o ho
    have := bounds_of_mem_all ho
    simp only [decide_eq_true_eq]
    omega
  have hbehind : ∀ o ∈ (all r b).map (shift (a.byteLength + w.utf8Size)),
      a.byteLength < o.start := by
    intro o ho
    obtain ⟨o', -, rfl⟩ := List.mem_map.mp ho
    have := w.utf8Size_pos
    simp only [shift]
    omega
  refine ⟨hall, ?_⟩
  rw [hall, List.filter_append, hbefore, List.nil_append, List.filter_eq_self]
  simpa using hbehind

/-- A bracket and a quote stay open before a blank of three bytes. -/
theorem all_divided_by_wide_blank :
    isBlank '\u2003' = true ∧
      (all .builtIn ("flex p-[é'1px".toList ++ '\u2003' :: "w-1/2".toList)).map
        (fun o => (o.candidate.raw, o.start, o.stop)) =
        [("flex".toList, 0, 4), ("w-1/2".toList, 17, 22)] := by
  have hblank : isBlank '\u2003' = true := by decide
  have hparts := (all_divided_by_blank .builtIn "flex p-[é'1px".toList "w-1/2".toList hblank).1
  refine ⟨hblank, ?_⟩
  rw [hparts]
  decide +kernel

end Occurrence
end UtilityCss
