import UtilityCss.Proofs.Text.Trimming
import UtilityCss.Stylesheet.Printing

/-!
# Other blanks after line breaks

Indentation changes nothing of a text but the blanks that follow its line breaks. Two such texts
have the same characters other than blanks, and where one falls into parts at such a character, so
does the other.
-/
namespace UtilityCss.Text

/-- Whether only ASCII spaces stand behind the last line break. -/
def endsPlain : Text → Bool
  | [] => true
  | c :: cs => endsPlain cs && (isAsciiSpace c || decide ('\n' ∈ cs))

/-- The second text is the first with other blanks after line breaks. Where the first has only ASCII
spaces, so has the second, and other spaces are left out only of lines that are blank. -/
inductive Respaced : Text → Text → Prop
  | nil : Respaced [] []
  | cons (c : Char) {t t' : Text} (h : Respaced t t') : Respaced (c :: t) (c :: t')
  | line {u u' t t' : Text} (hu : u.isBlankText = true) (hu' : u'.isBlankText = true)
      (hascii : u.all isAsciiSpace = true → u'.all isAsciiSpace = true)
      (hplain : u'.endsPlain = true → u.endsPlain = true ∨ t.head? = some '\n')
      (h : Respaced t t') : Respaced ('\n' :: (u ++ t)) ('\n' :: (u' ++ t'))

def squeeze (t : Text) : Text := t.filter (!isBlank ·)

theorem squeeze_append (a b : Text) : squeeze (a ++ b) = squeeze a ++ squeeze b :=
  List.filter_append ..

theorem squeeze_cons_of_isBlank {c : Char} (hc : isBlank c = true) (t : Text) :
    squeeze (c :: t) = squeeze t := by
  simp [squeeze, hc]

theorem squeeze_eq_nil_iff {t : Text} : squeeze t = [] ↔ t.isBlankText = true := by
  simp [squeeze, isBlankText]

theorem mem_squeeze_iff {c : Char} (hc : isBlank c = false) {t : Text} :
    c ∈ squeeze t ↔ c ∈ t := by
  simp [squeeze, hc]

theorem squeeze_trimRight (t : Text) : squeeze (trimRight t) = squeeze t := by
  have hblank := squeeze_eq_nil_iff.mpr (isBlankText_trailingBlanks t)
  conv_rhs => rw [← trimRight_append_trailingBlanks t, squeeze_append, hblank, List.append_nil]

theorem squeeze_trimLeft (t : Text) : squeeze (trimLeft t) = squeeze t := by
  have hblank := squeeze_eq_nil_iff.mpr (isBlankText_leadingBlanks t)
  conv_rhs => rw [← leadingBlanks_append_trimLeft t, squeeze_append, hblank, List.nil_append]

theorem endsPlain_append (a b : Text) :
    endsPlain (a ++ b) = (endsPlain b && (endsPlain a || decide ('\n' ∈ b))) := by
  induction a with
  | nil => simp [endsPlain]
  | cons c a ih =>
    rw [List.cons_append, endsPlain, ih, endsPlain, Bool.eq_iff_iff]
    simp only [Bool.and_eq_true, Bool.or_eq_true, decide_eq_true_eq, List.mem_append]
    tauto

theorem head?_of_append_cons {p q : Text} {c d : Char} (hd : isBlank d = true)
    (hc : isBlank c = false) (h : (p ++ c :: q).head? = some d) : p.head? = some d := by
  cases p with
  | nil =>
    cases h
    rw [hc] at hd
    cases hd
  | cons => exact h

namespace Respaced

theorem refl (t : Text) : Respaced t t := by
  induction t with
  | nil => exact .nil
  | cons c t ih => exact .cons c ih

theorem append {a a' b b' : Text} (h : Respaced a a') (h' : Respaced b b') :
    Respaced (a ++ b) (a' ++ b') := by
  induction h with
  | nil => exact h'
  | cons c _ ih => exact .cons c ih
  | @line u u' t t' hu hu' hascii hplain _ ih =>
    rw [List.cons_append, List.cons_append, List.append_assoc, List.append_assoc]
    refine .line hu hu' hascii (fun h => (hplain h).imp_right fun hline => ?_) ih
    rw [List.head?_append, hline]
    rfl

variable {t t' : Text}

theorem squeeze_eq (h : Respaced t t') : squeeze t = squeeze t' := by
  induction h with
  | nil => rfl
  | cons c _ ih =>
    rw [← List.singleton_append, squeeze_append, ih, ← squeeze_append]
    rfl
  | line hu hu' _ _ _ ih =>
    rw [squeeze_cons_of_isBlank rfl, squeeze_cons_of_isBlank rfl, squeeze_append, squeeze_append,
      squeeze_eq_nil_iff.mpr hu, squeeze_eq_nil_iff.mpr hu', ih]

theorem mem_iff (h : Respaced t t') {c : Char} (hc : isBlank c = false) : c ∈ t ↔ c ∈ t' := by
  rw [← mem_squeeze_iff hc, h.squeeze_eq, mem_squeeze_iff hc]

theorem isBlankText_iff (h : Respaced t t') : t.isBlankText = true ↔ t'.isBlankText = true := by
  rw [← squeeze_eq_nil_iff, h.squeeze_eq, squeeze_eq_nil_iff]

theorem all_isAsciiSpace (h : Respaced t t') (ht : t.all isAsciiSpace = true) :
    t'.all isAsciiSpace = true := by
  induction h with
  | nil => rfl
  | cons c _ ih =>
    rw [List.all_cons, Bool.and_eq_true] at ht ⊢
    exact ⟨ht.1, ih ht.2⟩
  | line _ _ hascii _ _ ih =>
    rw [List.all_cons, List.all_append, Bool.and_eq_true, Bool.and_eq_true] at ht ⊢
    exact ⟨rfl, hascii ht.2.1, ih ht.2.2⟩

theorem newline_mem_iff (h : Respaced t t') : '\n' ∈ t ↔ '\n' ∈ t' := by
  induction h with
  | nil => exact Iff.rfl
  | cons c _ ih => rw [List.mem_cons, List.mem_cons, ih]
  | line => simp

theorem endsPlain (h : Respaced t t') (ht : t'.endsPlain = true) : t.endsPlain = true := by
  induction h with
  | nil => rfl
  | cons c h ih =>
    rw [Text.endsPlain, Bool.and_eq_true, Bool.or_eq_true, decide_eq_true_eq,
      ← h.newline_mem_iff] at ht
    rw [Text.endsPlain, Bool.and_eq_true, Bool.or_eq_true, decide_eq_true_eq]
    exact ⟨ih ht.1, ht.2⟩
  | @line u u' t t' _ _ _ hplain h ih =>
    have hline : ∀ v : Text, Text.endsPlain ('\n' :: v) = v.endsPlain := fun v => by
      rw [Text.endsPlain]
      exact Bool.and_true _
    simp only [hline, endsPlain_append, Bool.and_eq_true, Bool.or_eq_true, decide_eq_true_eq,
      ← h.newline_mem_iff] at ht ⊢
    refine ⟨ih ht.1, ht.2.elim (fun hu => (hplain hu).imp_right fun hline => ?_) .inr⟩
    exact List.mem_of_mem_head? hline

theorem eq_of_notMem (h : Respaced t t') (hline : '\n' ∉ t) : t' = t := by
  induction h with
  | nil => rfl
  | cons c _ ih =>
    rw [List.mem_cons, not_or] at hline
    rw [ih hline.2]
  | line => simp at hline

/-- A character that is not blank cuts both texts. -/
theorem exists_of_append_cons {p q y : Text} {c : Char} (hc : isBlank c = false)
    (h : Respaced (p ++ c :: q) y) :
    ∃ p' q', y = p' ++ c :: q' ∧ Respaced p p' ∧ Respaced q q' := by
  generalize hx : p ++ c :: q = x at h
  induction h generalizing p with
  | nil => simp at hx
  | @cons d t t' h ih =>
    cases p with
    | nil =>
      cases hx
      exact ⟨[], t', rfl, .nil, h⟩
    | cons e p =>
      cases hx
      obtain ⟨p', q', rfl, hp, hq⟩ := ih rfl
      exact ⟨d :: p', q', rfl, .cons d hp, hq⟩
  | @line u u' t t' hu hu' hascii hplain h ih =>
    cases p with
    | nil =>
      cases hx
      cases hc
    | cons e p =>
      rw [List.cons_append, List.cons.injEq] at hx
      obtain ⟨rfl, hx⟩ := hx
      rcases List.append_eq_append_iff.mp hx with ⟨a, ha, hb⟩ | ⟨a, rfl, ht⟩
      · cases a with
        | nil =>
          rw [List.append_nil] at ha
          subst ha
          obtain ⟨p', q', rfl, hp, hq⟩ := ih (p := []) hb
          have hplain' : u'.endsPlain = true → u.endsPlain = true ∨ ([] : Text).head? = some '\n' :=
            fun hu' => (hplain hu').imp_right fun hline =>
              head?_of_append_cons rfl hc (by rwa [hb])
          refine ⟨'\n' :: (u' ++ p'), q', by simp, ?_, hq⟩
          simpa using hp.line hu hu' hascii hplain'
        | cons f a =>
          rw [List.cons_append, List.cons.injEq] at hb
          rw [ha, ← hb.1, isBlankText_append, Bool.and_eq_true] at hu
          have hblank : isBlank c = true := List.all_eq_true.mp hu.2 c (by simp)
          rw [hc] at hblank
          cases hblank
      · obtain ⟨p', q', rfl, hp, hq⟩ := ih ht.symm
        have hplain' : u'.endsPlain = true → u.endsPlain = true ∨ a.head? = some '\n' :=
          fun hu' => (hplain hu').imp_right fun hline =>
            head?_of_append_cons rfl hc (by rwa [← ht])
        exact ⟨'\n' :: (u' ++ p'), q', by simp, hp.line hu hu' hascii hplain', hq⟩

theorem exists_of_cons {q y : Text} {c : Char} (hc : isBlank c = false)
    (h : Respaced (c :: q) y) : ∃ q', y = c :: q' ∧ Respaced q q' := by
  obtain ⟨p', q', rfl, hp, hq⟩ := exists_of_append_cons (p := []) hc h
  cases hp
  exact ⟨q', rfl, hq⟩

theorem exists_of_append {a b y : Text} (ha : '\n' ∉ a) (h : Respaced (a ++ b) y) :
    ∃ b', y = a ++ b' ∧ Respaced b b' := by
  induction a generalizing y with
  | nil => exact ⟨y, rfl, h⟩
  | cons c a ih =>
    rw [List.mem_cons, not_or] at ha
    generalize hx : c :: a ++ b = x at h
    cases h with
    | nil => cases hx
    | cons _ h =>
      cases hx
      obtain ⟨b', rfl, hb⟩ := ih ha.2 h
      exact ⟨b', rfl, hb⟩
    | line => exact absurd (List.cons.inj hx).1.symm ha.1

theorem exists_of_eq_cons {q' y : Text} {c : Char} (hc : isBlank c = false)
    (h : Respaced y (c :: q')) : ∃ q, y = c :: q ∧ Respaced q q' := by
  cases h with
  | cons _ h => exact ⟨_, rfl, h⟩
  | line => cases hc

theorem leading (h : Respaced t t') :
    Respaced (leadingBlanks t) (leadingBlanks t') ∧ Respaced (trimLeft t) (trimLeft t') := by
  cases hrest : trimLeft t with
  | nil =>
    have hblank := trimLeft_eq_nil_iff.mp hrest
    have hblank' := h.isBlankText_iff.mp hblank
    rw [leadingBlanks_of_isBlankText hblank, leadingBlanks_of_isBlankText hblank',
      trimLeft_eq_nil_iff.mpr hblank']
    exact ⟨h, .nil⟩
  | cons c q =>
    have hc := isBlank_of_trimLeft_eq_cons hrest
    have ht := leadingBlanks_append_trimLeft t
    rw [hrest] at ht
    rw [← ht] at h
    obtain ⟨p', q', rfl, hp, hq⟩ := exists_of_append_cons hc h
    have hblank := hp.isBlankText_iff.mp (isBlankText_leadingBlanks t)
    rw [leadingBlanks_append_cons hblank hc, trimLeft_append_cons hblank hc]
    exact ⟨hp, .cons c hq⟩

theorem trailing (h : Respaced t t') :
    Respaced (trimRight t) (trimRight t') ∧ Respaced (trailingBlanks t) (trailingBlanks t') := by
  rcases isBlankText_or_eq_append_cons t with hblank | ⟨a, c, b, rfl, hc, hb⟩
  · have hblank' := h.isBlankText_iff.mp hblank
    rw [trimRight_of_isBlankText hblank, trimRight_of_isBlankText hblank',
      trailingBlanks_of_isBlankText hblank, trailingBlanks_of_isBlankText hblank']
    exact ⟨.nil, h⟩
  · obtain ⟨a', b', rfl, ha, hb'⟩ := exists_of_append_cons hc h
    have hblank := hb'.isBlankText_iff.mp hb
    rw [trimRight_append_cons hb hc, trimRight_append_cons hblank hc,
      trailingBlanks_append_cons hb hc, trailingBlanks_append_cons hblank hc]
    exact ⟨ha.append (.refl [c]), hb'⟩

theorem trim (h : Respaced t t') : Respaced t.trim t'.trim := h.trailing.1.leading.2

/-- What stops at blanks at the latest takes the same off the front of both texts. -/
theorem takeWhile_dropWhile (h : Respaced t t') {p : Char → Bool}
    (hp : ∀ c, isBlank c = true → p c = false) :
    t'.takeWhile p = t.takeWhile p ∧ Respaced (t.dropWhile p) (t'.dropWhile p) := by
  induction h with
  | nil => exact ⟨rfl, .nil⟩
  | cons c h ih =>
    cases hc : p c with
    | true => simpa [List.takeWhile_cons, List.dropWhile_cons, hc] using ih
    | false => simpa [List.takeWhile_cons, List.dropWhile_cons, hc] using h.cons c
  | line hu hu' hascii hplain h ih =>
    simpa [List.takeWhile_cons, List.dropWhile_cons, hp '\n' rfl] using
      h.line hu hu' hascii hplain

end Respaced

section

variable {t t' : Text} (h : Respaced t t') (hline : t.head? = some '\n')

include h hline

theorem respaced_indentLine (line : Text) :
    Respaced ('\n' :: (line ++ t)) ('\n' :: (indentLine line ++ t')) := by
  unfold indentLine
  split_ifs with hblank
  · exact h.line hblank rfl (fun _ => rfl) fun _ => .inr hline
  · have hindent : isBlankText [' ', ' '] = true := rfl
    have hspaces := ((Respaced.refl line).append h).line (u := []) rfl hindent (fun _ => rfl)
      fun _ => .inl rfl
    exact hspaces

theorem respaced_intercalate_indentLine {lines : List Text} (hlines : lines ≠ []) :
    Respaced ('\n' :: (['\n'].intercalate lines ++ t))
      ('\n' :: (['\n'].intercalate (lines.map indentLine) ++ t')) := by
  induction lines with
  | nil => exact absurd rfl hlines
  | cons line rest ih =>
    cases rest with
    | nil =>
      rw [List.map_singleton, List.intercalate_singleton, List.intercalate_singleton]
      exact respaced_indentLine h hline line
    | cons next rest =>
      rw [List.map_cons, List.map_cons, List.intercalate_cons_cons, List.intercalate_cons_cons,
        List.append_assoc, List.append_assoc, List.append_assoc, List.append_assoc,
        ← List.map_cons]
      exact respaced_indentLine (ih (List.cons_ne_nil next rest)) rfl line

/-- A text on lines of its own, indented. -/
theorem respaced_indent (text : Text) :
    Respaced ('\n' :: (text ++ t)) ('\n' :: (indent text ++ t')) := by
  have hlines := respaced_intercalate_indentLine h hline (List.splitOn_ne_nil '\n' text)
  rwa [List.intercalate_splitOn '\n'] at hlines

end

end UtilityCss.Text
