import UtilityCss.Proofs.Text.Cutting
import UtilityCss.ClassName.Reading

/-!
# Underscores and back

What encoding and decoding make of the characters outside verbatim stretches. Neither opens a new
stretch, because what they write is no letter of an opening.
-/
namespace UtilityCss.Underscore

open Text

theorem eq_of_isPrefixOf_verbatimOpening {t : Text} (h : verbatimOpening.isPrefixOf t = true) :
    ∃ rest, t = 'u' :: 'r' :: 'l' :: '(' :: rest := by
  obtain ⟨rest, rfl⟩ := List.isPrefixOf_iff_prefix.mp h
  exact ⟨rest, rfl⟩

theorem not_isPrefixOf_cons {c : Char} (hc : c ≠ 'u') (t : Text) :
    ¬ verbatimOpening.isPrefixOf (c :: t) = true := by
  intro h
  obtain ⟨rest, heq⟩ := eq_of_isPrefixOf_verbatimOpening h
  exact hc (List.cons.inj heq).1

theorem encode_cons {c : Char} {t : Text} (h : ¬ verbatimOpening.isPrefixOf (c :: t) = true)
    (hspace : c ≠ ' ') (hmark : c ≠ '_') : encode (c :: t) = c :: encode t := by
  rw [encode, encodeFrom, if_neg h, if_neg hspace, if_neg hmark]
  rfl

theorem encode_space (t : Text) : encode (' ' :: t) = '_' :: encode t := by
  rw [encode, encodeFrom, if_neg (not_isPrefixOf_cons (by decide) t), if_pos rfl]
  rfl

theorem encode_underscore (t : Text) : encode ('_' :: t) = '\\' :: '_' :: encode t := by
  rw [encode, encodeFrom, if_neg (not_isPrefixOf_cons (by decide) t), if_neg (by decide),
    if_pos rfl]
  rfl

theorem encode_opening (t : Text) :
    ∃ u, encode ('u' :: 'r' :: 'l' :: '(' :: t) = 'u' :: u := by
  rw [encode, encodeFrom.eq_def]
  exact ⟨_, rfl⟩

theorem decode_cons {c : Char} {t : Text} (h : ¬ verbatimOpening.isPrefixOf (c :: t) = true)
    (hmark : c ≠ '_') (hescape : c = '\\' → t.head? ≠ some '_') :
    decode (c :: t) = c :: decode t := by
  rw [decode, decodeFrom, if_neg h]
  · rfl
  · exact hmark
  · rintro rest rfl rfl
    exact hescape rfl rfl

theorem decode_underscore (t : Text) : decode ('_' :: t) = ' ' :: decode t := by
  have hopen := not_isPrefixOf_cons (c := '_') (by decide) t
  exact (decodeFrom.eq_def false ('_' :: t)).trans (if_neg hopen)

theorem decode_escaped (t : Text) : decode ('\\' :: '_' :: t) = '_' :: decode t := by
  have hopen := not_isPrefixOf_cons (c := '\\') (by decide) ('_' :: t)
  exact (decodeFrom.eq_def false ('\\' :: '_' :: t)).trans (if_neg hopen)

theorem decode_opening (t : Text) :
    ∃ u, decode ('u' :: 'r' :: 'l' :: '(' :: t) = 'u' :: u := by
  rw [decode, decodeFrom.eq_def]
  exact ⟨_, rfl⟩

theorem exists_of_encode_eq_cons {t u : Text} {a : Char} (h : encode t = a :: u)
    (ha : a ∉ ['u', '_', '\\', ' ']) : ∃ t', t = a :: t' ∧ u = encode t' := by
  cases t with
  | nil => cases h
  | cons c t =>
    by_cases hopen : verbatimOpening.isPrefixOf (c :: t) = true
    · obtain ⟨rest, heq⟩ := eq_of_isPrefixOf_verbatimOpening hopen
      obtain ⟨v, hv⟩ := encode_opening rest
      rw [heq, hv] at h
      cases h
      simp at ha
    · by_cases hspace : c = ' '
      · rw [hspace, encode_space] at h
        cases h
        simp at ha
      · by_cases hmark : c = '_'
        · rw [hmark, encode_underscore] at h
          cases h
          simp at ha
        · rw [encode_cons hopen hspace hmark] at h
          cases h
          exact ⟨t, rfl, rfl⟩

theorem exists_of_decode_eq_cons {t u : Text} {a : Char} (h : decode t = a :: u)
    (ha : a ∉ ['u', '_', '\\', ' ']) : ∃ t', t = a :: t' ∧ u = decode t' := by
  cases t with
  | nil => cases h
  | cons c t =>
    by_cases hopen : verbatimOpening.isPrefixOf (c :: t) = true
    · obtain ⟨rest, heq⟩ := eq_of_isPrefixOf_verbatimOpening hopen
      obtain ⟨v, hv⟩ := decode_opening rest
      rw [heq, hv] at h
      cases h
      simp at ha
    · by_cases hmark : c = '_'
      · rw [hmark, decode_underscore] at h
        cases h
        simp at ha
      · by_cases hescape : c = '\\' ∧ t.head? = some '_'
        · obtain ⟨rfl, hhead⟩ := hescape
          obtain ⟨rest, rfl⟩ := List.head?_eq_some_iff.mp hhead
          rw [decode_escaped] at h
          cases h
          simp at ha
        · rw [decode_cons hopen hmark (not_and.mp hescape)] at h
          cases h
          exact ⟨t, rfl, rfl⟩

theorem isPrefixOf_of_kept {f : Text → Text}
    (hf : ∀ {t u : Text} {a : Char}, f t = a :: u → a ∉ ['u', '_', '\\', ' '] →
      ∃ t', t = a :: t' ∧ u = f t')
    {c : Char} {t : Text} (h : verbatimOpening.isPrefixOf (c :: f t) = true) :
    verbatimOpening.isPrefixOf (c :: t) = true := by
  obtain ⟨rest, heq⟩ := eq_of_isPrefixOf_verbatimOpening h
  obtain ⟨rfl, hr⟩ := List.cons.inj heq
  obtain ⟨t₁, rfl, hl⟩ := hf hr (by decide)
  obtain ⟨t₂, rfl, hopen⟩ := hf hl.symm (by decide)
  obtain ⟨t₃, rfl, -⟩ := hf hopen.symm (by decide)
  rfl

theorem isPrefixOf_of_encode {c : Char} {t : Text}
    (h : verbatimOpening.isPrefixOf (c :: encode t) = true) :
    verbatimOpening.isPrefixOf (c :: t) = true :=
  isPrefixOf_of_kept exists_of_encode_eq_cons h

theorem isPrefixOf_of_decode {c : Char} {t : Text}
    (h : verbatimOpening.isPrefixOf (c :: decode t) = true) :
    verbatimOpening.isPrefixOf (c :: t) = true :=
  isPrefixOf_of_kept exists_of_decode_eq_cons h

theorem not_isPrefixOf_name {a : Text} (ha : a.all isNameLetter = true) (b : Text) :
    ¬ verbatimOpening.isPrefixOf (a ++ ':' :: b) = true := by
  intro h
  have hprefix := isPrefix_of_append_cons (List.isPrefixOf_iff_prefix.mp h) (by decide)
  have hmem : '(' ∈ a := hprefix.subset (by decide)
  have hletter := List.all_eq_true.mp ha '(' hmem
  revert hletter
  decide

theorem encode_append_colon {a : Text} (ha : a.all isNameLetter = true) (b : Text) :
    encode (a ++ ':' :: b) = a ++ ':' :: encode b := by
  induction a with
  | nil => exact encode_cons (not_isPrefixOf_name ha b) (by decide) (by decide)
  | cons c a ih =>
    have hnone := not_isPrefixOf_name ha b
    rw [List.all_cons, Bool.and_eq_true] at ha
    have hspace : c ≠ ' ' := by
      rintro rfl
      cases ha.1
    have hmark : c ≠ '_' := by
      rintro rfl
      cases ha.1
    rw [List.cons_append] at hnone ⊢
    rw [encode_cons hnone hspace hmark, ih ha.2, List.cons_append]

end UtilityCss.Underscore
