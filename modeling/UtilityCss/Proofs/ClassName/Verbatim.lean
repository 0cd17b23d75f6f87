import UtilityCss.Proofs.ClassName.Underscore

/-!
# Verbatim stretches

A scan from the left divides a text into stretches that are copied as they stand, each from `url(`
through the next closing parenthesis or to the end, and the single characters outside of them. Both
directions of the codec find the same stretches and work on the characters in between. What stands
there decides whether one direction undoes the other.
-/
namespace UtilityCss.Underscore

open Text

/-- A stretch that is copied, or a character outside of all stretches. -/
inductive Part
  | verbatim (stretch : Text)
  | plain (c : Char)
  deriving DecidableEq, Repr

def Part.text : Part → Text
  | verbatim stretch => stretch
  | plain c => [c]

/-- A text through its first closing parenthesis, or all of it, and what stands behind. -/
def cutStretch : Text → Text × Text
  | [] => ([], [])
  | c :: cs => if c = ')' then ([c], cs) else (c :: (cutStretch cs).1, (cutStretch cs).2)

theorem cutStretch_append (t : Text) : (cutStretch t).1 ++ (cutStretch t).2 = t := by
  induction t with
  | nil => rfl
  | cons c cs ih =>
    rw [cutStretch]
    split_ifs <;> simp [ih]

theorem length_cutStretch_lt (c : Char) (cs : Text) :
    (cutStretch (c :: cs)).2.length < (c :: cs).length := by
  have hlen := congrArg List.length (cutStretch_append cs)
  simp only [List.length_append] at hlen
  rw [cutStretch]
  split_ifs
  · simp
  · simp only [List.length_cons]
    omega

def parts (t : Text) : List Part :=
  match t with
  | [] => []
  | c :: cs =>
    if verbatimOpening.isPrefixOf (c :: cs) then
      .verbatim (cutStretch (c :: cs)).1 :: parts (cutStretch (c :: cs)).2
    else .plain c :: parts cs
termination_by t.length
decreasing_by
  · exact length_cutStretch_lt c cs
  · exact Nat.lt_succ_self cs.length

theorem parts_of_opening {t : Text} (h : verbatimOpening.isPrefixOf t = true) :
    parts t = .verbatim (cutStretch t).1 :: parts (cutStretch t).2 := by
  cases t with
  | nil => cases h
  | cons c cs => rw [parts, if_pos h]

theorem parts_cons {c : Char} {cs : Text} (h : ¬ verbatimOpening.isPrefixOf (c :: cs) = true) :
    parts (c :: cs) = .plain c :: parts cs := by
  rw [parts, if_neg h]

theorem parts_cons_of_ne {c : Char} (hc : c ≠ 'u') (cs : Text) :
    parts (c :: cs) = .plain c :: parts cs :=
  parts_cons (not_isPrefixOf_cons hc cs)

/-- The scan loses nothing. -/
theorem flatMap_text_parts (t : Text) : (parts t).flatMap Part.text = t := by
  fun_induction parts t with
  | case1 => rfl
  | case2 c cs _ ih => simp [Part.text, ih, cutStretch_append]
  | case3 c cs _ ih => simp [Part.text, ih]

theorem parts_injective : Function.Injective parts := by
  intro x y h
  rw [← flatMap_text_parts x, h, flatMap_text_parts]

theorem eq_cons_of_parts {t : Text} {c : Char} {ps : List Part} (h : parts t = .plain c :: ps) :
    ∃ cs, t = c :: cs := by
  fun_cases parts t with
  | case1 => simp [parts] at h
  | case2 d cs hopen =>
    rw [parts_of_opening hopen] at h
    cases h
  | case3 d cs hopen =>
    rw [parts_cons hopen] at h
    cases h
    exact ⟨cs, rfl⟩

/-- A stretch may be followed by something else, if it does not reach to the end. -/
theorem cutStretch_append_of {t rest : Text} (h : (cutStretch t).2 = [] → rest = []) :
    cutStretch ((cutStretch t).1 ++ rest) = ((cutStretch t).1, rest) := by
  induction t with
  | nil =>
    obtain rfl := h rfl
    rfl
  | cons c cs ih =>
    by_cases hc : c = ')'
    · simp [cutStretch, hc]
    · simp only [cutStretch, if_neg hc] at h
      simp [cutStretch, hc, ih h]

theorem isPrefixOf_cutStretch_append {t : Text} (h : verbatimOpening.isPrefixOf t = true)
    (rest : Text) : verbatimOpening.isPrefixOf ((cutStretch t).1 ++ rest) = true := by
  obtain ⟨tail, rfl⟩ := eq_of_isPrefixOf_verbatimOpening h
  rfl

theorem parts_stretch_append {t rest : Text} (ht : verbatimOpening.isPrefixOf t = true)
    (h : (cutStretch t).2 = [] → rest = []) :
    parts ((cutStretch t).1 ++ rest) = .verbatim (cutStretch t).1 :: parts rest := by
  rw [parts_of_opening (isPrefixOf_cutStretch_append ht rest), cutStretch_append_of h]

section Copying

variable {f : Bool → Text → Text}

theorem eq_cutStretch_append (hnil : ∀ v, f v [] = [])
    (hcons : ∀ c cs, f true (c :: cs) = c :: f (staysVerbatim c) cs) (t : Text) :
    f true t = (cutStretch t).1 ++ f false (cutStretch t).2 := by
  induction t with
  | nil => simp [cutStretch, hnil]
  | cons c cs ih =>
    by_cases hc : c = ')'
    · simp [hcons, cutStretch, staysVerbatim, hc]
    · simp [hcons, cutStretch, staysVerbatim, hc, ih]

theorem eq_cutStretch_append_of_opening (hnil : ∀ v, f v [] = [])
    (hcons : ∀ c cs, f true (c :: cs) = c :: f (staysVerbatim c) cs)
    (hopen : ∀ c cs, verbatimOpening.isPrefixOf (c :: cs) = true →
      f false (c :: cs) = c :: f true cs)
    {t : Text} (h : verbatimOpening.isPrefixOf t = true) :
    f false t = (cutStretch t).1 ++ f false (cutStretch t).2 := by
  rw [← eq_cutStretch_append hnil hcons]
  obtain ⟨tail, rfl⟩ := eq_of_isPrefixOf_verbatimOpening h
  rw [hopen _ _ h]
  exact (hcons 'u' _).symm

end Copying

theorem decode_of_opening {t : Text} (h : verbatimOpening.isPrefixOf t = true) :
    decode t = (cutStretch t).1 ++ decode (cutStretch t).2 :=
  eq_cutStretch_append_of_opening (f := decodeFrom) (fun _ => by rw [decodeFrom])
    (fun _ _ => by rw [decodeFrom])
    (fun c cs hopen => (decodeFrom.eq_def false (c :: cs)).trans (if_pos hopen)) h

theorem encode_of_opening {t : Text} (h : verbatimOpening.isPrefixOf t = true) :
    encode t = (cutStretch t).1 ++ encode (cutStretch t).2 :=
  eq_cutStretch_append_of_opening (f := encodeFrom) (fun _ => by rw [encodeFrom])
    (fun _ _ => by rw [encodeFrom])
    (fun c cs hopen => (encodeFrom.eq_def false (c :: cs)).trans (if_pos hopen)) h

def Part.escape : Part → List Part
  | plain c =>
    if c = ' ' then [plain '_'] else if c = '_' then [plain '\\', plain '_'] else [plain c]
  | p => [p]

def unescape : List Part → List Part
  | .plain '\\' :: .plain '_' :: ps => .plain '_' :: unescape ps
  | .plain '_' :: ps => .plain ' ' :: unescape ps
  | p :: ps => p :: unescape ps
  | [] => []

/-- Encoding keeps the stretches and escapes what is outside of them. -/
theorem parts_encode (t : Text) : parts (encode t) = (parts t).flatMap Part.escape := by
  fun_induction parts t with
  | case1 => simp [encode, encodeFrom, parts]
  | case2 c cs hopen ih =>
    have hend : (cutStretch (c :: cs)).2 = [] → encode (cutStretch (c :: cs)).2 = [] := by
      intro hnil
      rw [hnil]
      rfl
    rw [encode_of_opening hopen, parts_stretch_append hopen hend, ih]
    rfl
  | case3 c cs hopen ih =>
    by_cases hspace : c = ' '
    · subst hspace
      rw [encode_space, parts_cons_of_ne (by decide), ih]
      rfl
    · by_cases hmark : c = '_'
      · subst hmark
        rw [encode_underscore, parts_cons_of_ne (by decide), parts_cons_of_ne (by decide), ih]
        rfl
      · rw [encode_cons hopen hspace hmark, parts_cons fun h => hopen (isPrefixOf_of_encode h), ih]
        simp [Part.escape, hspace, hmark]

theorem unescape_plain {c : Char} {ps : List Part} (hmark : c ≠ '_')
    (hescape : c = '\\' → ps.head? ≠ some (.plain '_')) :
    unescape (.plain c :: ps) = .plain c :: unescape ps := by
  rw [unescape]
  · rintro rest hc rfl
    exact hescape (Part.plain.inj hc) rfl
  · exact fun hc => hmark (Part.plain.inj hc)

/-- Decoding keeps the stretches and undoes escapes outside of them. -/
theorem parts_decode (t : Text) : parts (decode t) = unescape (parts t) := by
  fun_induction parts t with
  | case1 => simp [decode, decodeFrom, parts, unescape]
  | case2 c cs hopen ih =>
    have hend : (cutStretch (c :: cs)).2 = [] → decode (cutStretch (c :: cs)).2 = [] := by
      intro hnil
      rw [hnil]
      rfl
    rw [decode_of_opening hopen, parts_stretch_append hopen hend, ih]
    rfl
  | case3 c cs hopen ih =>
    by_cases hmark : c = '_'
    · subst hmark
      rw [decode_underscore, parts_cons_of_ne (by decide), ih]
      rfl
    · by_cases hescape : c = '\\' ∧ cs.head? = some '_'
      · -- An escaped underscore is two characters, so the induction has gone one too far.
        obtain ⟨rfl, hhead⟩ := hescape
        obtain ⟨rest, rfl⟩ := List.head?_eq_some_iff.mp hhead
        rw [decode_underscore, parts_cons_of_ne (by decide), parts_cons_of_ne (by decide)] at ih
        obtain ⟨-, hrest⟩ := List.cons.inj ih
        rw [decode_escaped, parts_cons_of_ne (by decide), parts_cons_of_ne (by decide), hrest]
        rfl
      · rw [not_and] at hescape
        have hparts : c = '\\' → (parts cs).head? ≠ some (.plain '_') := by
          intro hc hhead
          obtain ⟨ps, hps⟩ := List.head?_eq_some_iff.mp hhead
          obtain ⟨rest, rfl⟩ := eq_cons_of_parts hps
          exact hescape hc rfl
        have hclosed : ¬ verbatimOpening.isPrefixOf (c :: decode cs) = true :=
          fun h => hopen (isPrefixOf_of_decode h)
        rw [decode_cons hopen hmark hescape, parts_cons hclosed, ih, unescape_plain hmark hparts]

theorem head?_flatMap_escape (ps : List Part) :
    (ps.flatMap Part.escape).head? = some (.plain '_') ↔ ps.head? = some (.plain ' ') := by
  cases ps with
  | nil => simp
  | cons p ps =>
    cases p with
    | verbatim t => simp [Part.escape]
    | plain c =>
      by_cases hspace : c = ' '
      · simp [Part.escape, hspace]
      · by_cases hmark : c = '_' <;> simp [Part.escape, hspace, hmark]

theorem unescape_escape_iff (ps : List Part) :
    unescape (ps.flatMap Part.escape) = ps ↔ ¬ [.plain '\\', .plain ' '] <:+: ps := by
  induction ps with
  | nil => simp [unescape]
  | cons p ps ih =>
    rw [List.flatMap_cons, List.infix_cons_iff, not_or, ← ih]
    cases p with
    | verbatim t => simp [Part.escape, unescape]
    | plain c =>
      by_cases hspace : c = ' '
      · simp [Part.escape, hspace, unescape]
      · by_cases hmark : c = '_'
        · simp [Part.escape, hmark, unescape]
        · by_cases hescape : c = '\\' ∧ ps.head? = some (.plain ' ')
          · obtain ⟨rfl, hhead⟩ := hescape
            obtain ⟨rest, rfl⟩ := List.head?_eq_some_iff.mp hhead
            simp [Part.escape, unescape]
          · -- Encoding leaves `c` and makes no underscore behind it that was not a blank.
            have hnext : c = '\\' → (ps.flatMap Part.escape).head? ≠ some (.plain '_') :=
              fun hc hhead => hescape ⟨hc, (head?_flatMap_escape ps).mp hhead⟩
            have hprefix : ¬ [.plain '\\', .plain ' '] <+: Part.plain c :: ps := by
              rintro ⟨rest, heq⟩
              obtain ⟨hc, rfl⟩ := List.cons.inj heq
              exact hescape ⟨(Part.plain.inj hc).symm, rfl⟩
            simp [Part.escape, hspace, hmark, unescape_plain hmark hnext, hprefix]

theorem escape_unescape_iff (ps : List Part) :
    (unescape ps).flatMap Part.escape = ps ↔ .plain ' ' ∉ ps := by
  fun_induction unescape ps with
  | case1 ps ih => simp [Part.escape, ih]
  | case2 ps ih => simp [Part.escape, ih]
  | case3 p ps hescape hmark ih =>
    cases p with
    | verbatim t => simp [Part.escape, ih]
    | plain c =>
      have hc : c ≠ '_' := by
        rintro rfl
        exact hmark rfl
      by_cases hspace : c = ' '
      · simp [Part.escape, hspace]
      · simp [Part.escape, hspace, hc, ih, Ne.symm hspace]
  | case4 => simp

theorem encode_decode_iff (t : Text) : encode (decode t) = t ↔ .plain ' ' ∉ parts t := by
  rw [← parts_injective.eq_iff, parts_encode, parts_decode]
  exact escape_unescape_iff _

/-- A text without spaces is encoded again as it was. -/
theorem encode_decode {t : Text} (h : ' ' ∉ t) : encode (decode t) = t := by
  rw [encode_decode_iff]
  intro hmem
  have hspace : ' ' ∈ (parts t).flatMap Part.text :=
    List.mem_flatMap.mpr ⟨_, hmem, List.mem_singleton_self _⟩
  rw [flatMap_text_parts] at hspace
  exact h hspace

/-- Decoding undoes encoding unless a blank outside of the stretches stands behind a backslash, and
encoding undoes decoding unless there is a blank outside of the stretches. -/
theorem codec_domain :
    (∀ x, decode (encode x) = x ↔ ¬ [.plain '\\', .plain ' '] <:+: parts x) ∧
      ∀ y, encode (decode y) = y ↔ .plain ' ' ∉ parts y := by
  refine ⟨fun x => ?_, encode_decode_iff⟩
  rw [← parts_injective.eq_iff, parts_decode, parts_encode]
  exact unescape_escape_iff _

end UtilityCss.Underscore
