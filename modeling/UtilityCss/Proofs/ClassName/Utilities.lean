import UtilityCss.Proofs.ClassName.Variants

/-!
# Utilities are written as they were read

A utility is written as it stood, except that a colon with no type before it at the beginning of a
bracketed value is left out. Read again, the text gives the utility back unless another colon in the
value now follows what looks like a type.
-/
namespace UtilityCss

open Text

namespace UtilityValue

/-- Whether a text begins with the name of a type, possibly empty, and a colon. -/
def looksTyped (t : Text) : Bool := (t.dropWhile isNameLetter).head? = some ':'

theorem exists_of_looksTyped {t : Text} (h : looksTyped t = true) :
    ∃ dataType value, dataType.all isNameLetter = true ∧ t = dataType ++ ':' :: value := by
  rw [looksTyped, decide_eq_true_eq] at h
  obtain ⟨value, hvalue⟩ := List.head?_eq_some_iff.mp h
  refine ⟨t.takeWhile isNameLetter, value, List.all_takeWhile, ?_⟩
  rw [← hvalue, List.takeWhile_append_dropWhile]

theorem readArbitrary?_of_looksTyped {t dataType value : Text}
    (hletters : dataType.all isNameLetter = true)
    (h : Underscore.decode t = dataType ++ ':' :: value) :
    readArbitrary? t =
      if value.isBlankText then none
      else some (.arbitrary (if dataType = [] then none else some dataType) value) := by
  have htake : (Underscore.decode t).takeWhile isNameLetter = dataType := by
    rw [h, takeWhile_append_cons rfl, List.takeWhile_eq_self_iff]
    exact List.all_eq_true.mp hletters
  have hdrop : (Underscore.decode t).dropWhile isNameLetter = ':' :: value := by
    rw [h, dropWhile_append_cons rfl, List.dropWhile_eq_nil_iff.mpr (List.all_eq_true.mp hletters),
      List.nil_append]
  simp only [readArbitrary?, htake, hdrop]

theorem readArbitrary?_of_not_looksTyped {t : Text}
    (h : looksTyped (Underscore.decode t) = false) :
    readArbitrary? t =
      if (Underscore.decode t).isBlankText then none
      else some (.arbitrary none (Underscore.decode t)) := by
  rw [looksTyped, decide_eq_false_iff_not] at h
  rw [readArbitrary?]
  split
  · rename_i heq
    rw [heq] at h
    exact absurd rfl h
  · rfl

/-- A bracketed value has a type before a colon, a colon alone, or neither. -/
theorem readArbitrary?_cases {inner : Text} {v : UtilityValue} (h : readArbitrary? inner = some v) :
    (∃ dataType value, dataType.all isNameLetter = true ∧
      Underscore.decode inner = dataType ++ ':' :: value ∧ v = .arbitrary (some dataType) value) ∨
    (∃ rest, inner = ':' :: rest ∧ (Underscore.decode rest).isBlankText = false ∧
      v = .arbitrary none (Underscore.decode rest)) ∨
    (looksTyped (Underscore.decode inner) = false ∧
      v = .arbitrary none (Underscore.decode inner)) := by
  cases htyped : looksTyped (Underscore.decode inner) with
  | false =>
    rw [readArbitrary?_of_not_looksTyped htyped] at h
    split_ifs at h
    cases h
    exact .inr (.inr ⟨rfl, rfl⟩)
  | true =>
    obtain ⟨dataType, value, hletters, heq⟩ := exists_of_looksTyped htyped
    rw [readArbitrary?_of_looksTyped hletters heq] at h
    split_ifs at h with hblank htype
    · cases h
      subst htype
      obtain ⟨rest, rfl, rfl⟩ := Underscore.exists_of_decode_eq_cons heq (by decide)
      exact .inr (.inl ⟨rest, rfl, Bool.eq_false_iff.mpr hblank, rfl⟩)
    · cases h
      exact .inl ⟨dataType, value, hletters, heq, rfl⟩

theorem readArbitrary?_eq_untyped_iff {t : Text}
    (hblank : (Underscore.decode t).isBlankText = false) :
    readArbitrary? t = some (.arbitrary none (Underscore.decode t)) ↔
      looksTyped (Underscore.decode t) = false := by
  cases htyped : looksTyped (Underscore.decode t) with
  | false => simp [readArbitrary?_of_not_looksTyped htyped, hblank]
  | true =>
    obtain ⟨dataType, value, hletters, heq⟩ := exists_of_looksTyped htyped
    rw [readArbitrary?_of_looksTyped hletters heq, heq]
    have hne : value ≠ dataType ++ ':' :: value := by
      intro h
      have hlength := congrArg List.length h
      simp only [List.length_append, List.length_cons] at hlength
      omega
    simp [hne]

def isAmbiguous : UtilityValue → Bool
  | .arbitrary none value => looksTyped value
  | _ => false

/-- A bracketed value is written as it stood unless it began with a colon. -/
theorem write_of_readArbitrary? {inner : Text} {v : UtilityValue} (hspace : ' ' ∉ inner)
    (h : readArbitrary? inner = some v) :
    (v.write = '-' :: '[' :: inner ++ [']'] ∧ v.isAmbiguous = false) ∨
      ∃ rest, inner = ':' :: rest ∧ (Underscore.decode rest).isBlankText = false ∧
        v = .arbitrary none (Underscore.decode rest) := by
  have hencode := Underscore.encode_decode hspace
  rcases readArbitrary?_cases h with ⟨dataType, value, hletters, heq, rfl⟩ | hcolon | ⟨htyped, rfl⟩
  · rw [heq, Underscore.encode_append_colon hletters] at hencode
    refine .inl ⟨?_, rfl⟩
    rw [write, ← hencode]
    simp
  · exact .inr hcolon
  · refine .inl ⟨?_, htyped⟩
    rw [write, writeArbitrary, hencode]
    rfl

theorem write_map_ofName (text : Option Text) (m : Option Modifier) :
    writeOptional (text.map (ofName · m)) = setOff '-' text := by
  cases text <;> rfl

end UtilityValue

namespace Utility

theorem write_of_readProperty? {t name value : Text} (hspace : ' ' ∉ t)
    (h : readProperty? t = some (name, value)) (m : Option Modifier) :
    write (.property name value m) = t ++ Modifier.writeOptional m := by
  unfold readProperty? at h
  split at h
  · cases h
  · rename_i inner hinner
    have ht := eq_of_bracketed? hinner
    split_ifs at h
    split at h
    · cases h
    · rename_i name' value' hsplit
      split_ifs at h
      cases h
      have hinner := eq_append_of_splitFirst? hsplit
      have hspace' : ' ' ∉ value' := fun hmem => hspace (by simp [ht, hinner, hmem])
      rw [write, Underscore.encode_decode hspace', ht, hinner]
      simp

theorem eq_append_of_splitBracket? {t root value : Text}
    (h : splitBracket? t = some (root, value)) : t = root ++ '-' :: value := by
  induction t generalizing root with
  | nil => cases h
  | cons c t ih =>
    rw [splitBracket?] at h
    split_ifs at h with hc
    · cases h
      rw [hc.1, List.nil_append]
    · obtain ⟨p, hp, heq⟩ := Option.map_eq_some_iff.mp h
      cases heq
      rw [List.cons_append, ← ih hp]

theorem splitBracket?_congr {root x : Text}
    (h : splitBracket? (root ++ '-' :: '[' :: x) = some (root, '[' :: x)) (y : Text) :
    splitBracket? (root ++ '-' :: '[' :: y) = some (root, '[' :: y) := by
  induction root with
  | nil => rfl
  | cons c root ih =>
    rw [List.cons_append, splitBracket?] at h ⊢
    have hhead : (root ++ '-' :: '[' :: y).head? = (root ++ '-' :: '[' :: x).head? := by
      cases root <;> rfl
    split_ifs at h with hc
    · cases h
    · obtain ⟨⟨root', value⟩, hp, heq⟩ := Option.map_eq_some_iff.mp h
      cases heq
      rw [hhead, if_neg hc, ih hp]
      rfl

structure Opens (r : Registry) (root : Text) : Prop where
  known : r.hasUtility .functional root = true
  split : ∀ x, splitBracket? (root ++ '-' :: '[' :: x) = some (root, '[' :: x)

theorem Opens.readFunctional {r : Registry} {root : Text} (h : Opens r root)
    (m : Option Modifier) (inner : Text) :
    readFunctional r m (root ++ '-' :: '[' :: inner ++ [']']) =
      ((UtilityValue.readArbitrary? inner).map fun v => (root, some v)).toList := by
  have happ : root ++ '-' :: '[' :: inner ++ [']'] = root ++ '-' :: '[' :: (inner ++ [']']) := by
    simp
  have hbracket : bracketed? ('[' :: (inner ++ [']'])) = some inner := by
    simp [bracketed?]
  rw [Utility.readFunctional, if_pos List.getLast?_concat, readBracketed?, happ, h.split]
  simp [h.known, hbracket]

/-- A functional utility has a bracketed value or is one of the splits of its text. -/
theorem readFunctional_cases {r : Registry} {m : Option Modifier} {t root : Text}
    {value : Option UtilityValue} (h : (root, value) ∈ readFunctional r m t) :
    (∃ inner v, Opens r root ∧ t = root ++ '-' :: '[' :: inner ++ [']'] ∧
      UtilityValue.readArbitrary? inner = some v ∧ value = some v) ∨
    ∃ text, (root, text) ∈ rootSplits (r.hasUtility .functional) t ∧
      value = text.map (UtilityValue.ofName · m) := by
  unfold readFunctional at h
  split_ifs at h
  · left
    rw [Option.mem_toList] at h
    unfold readBracketed? at h
    split at h
    · cases h
    · rename_i root' bracket hsplit
      split_ifs at h with hknown
      obtain ⟨v, hv, heq⟩ := Option.map_eq_some_iff.mp h
      obtain ⟨inner, hinner, hread⟩ := Option.bind_eq_some_iff.mp hv
      cases heq
      have ht := eq_append_of_splitBracket? hsplit
      have hbracket := eq_of_bracketed? hinner
      subst hbracket
      subst ht
      refine ⟨inner, v, ⟨hknown, splitBracket?_congr hsplit⟩, by simp, hread, rfl⟩
  · right
    obtain ⟨⟨root', text⟩, hmem, hread⟩ := List.mem_filterMap.mp h
    cases text with
    | none =>
      cases hread
      exact ⟨none, hmem, rfl⟩
    | some text =>
      rw [readNamed?] at hread
      split_ifs at hread
      cases hread
      exact ⟨some text, hmem, rfl⟩

/-- After a sign anything may come; without one the text is neither signed nor bracketed. -/
def MaySign (negative : Bool) (t : Text) : Prop :=
  negative = false → t.head? ≠ some '[' ∧ t.head? ≠ some '-'

theorem readModified_of_maySign {negative : Bool} {t : Text} (h : MaySign negative t)
    (r : Registry) (m : Option Modifier) :
    readModified r m (writeSign negative ++ t) =
      (readFunctional r m t).map fun p => .functional p.1 p.2 m negative := by
  cases negative with
  | true => rfl
  | false =>
    obtain ⟨hbracket, hsign⟩ := h rfl
    unfold readModified
    split
    · rename_i heq
      cases heq
      exact absurd rfl hbracket
    · rename_i heq
      cases heq
      exact absurd rfl hsign
    · rfl

theorem readModified_cases {r : Registry} {m : Option Modifier} {t : Text} {u : Utility}
    (h : u ∈ readModified r m t) :
    (∃ name value, readProperty? t = some (name, value) ∧ u = .property name value m) ∨
    ∃ negative rest root value, t = writeSign negative ++ rest ∧ MaySign negative rest ∧
      (root, value) ∈ readFunctional r m rest ∧ u = .functional root value m negative := by
  unfold readModified at h
  split at h
  · left
    rw [Option.mem_toList] at h
    obtain ⟨⟨name, value⟩, hread, rfl⟩ := Option.map_eq_some_iff.mp h
    exact ⟨name, value, hread, rfl⟩
  · rename_i rest
    obtain ⟨⟨root, value⟩, hmem, rfl⟩ := List.mem_map.mp h
    exact .inr ⟨true, rest, root, value, rfl, fun heq => (by cases heq), hmem, rfl⟩
  · rename_i hbracket hsign
    obtain ⟨⟨root, value⟩, hmem, rfl⟩ := List.mem_map.mp h
    refine .inr ⟨false, t, root, value, rfl, fun _ => ⟨fun hhead => ?_, fun hhead => ?_⟩, hmem, rfl⟩
    · obtain ⟨rest, rfl⟩ := List.head?_eq_some_iff.mp hhead
      exact hbracket rest rfl
    · obtain ⟨rest, rfl⟩ := List.head?_eq_some_iff.mp hhead
      exact hsign rest rfl

/-- Whether a value follows the root `@`, which needs no dash there. -/
def joinsAt : Utility → Bool
  | .functional root (some _) _ _ => root = ['@']
  | _ => false

/-- Whether the value has no type but reads as if it had one. -/
def isAmbiguous : Utility → Bool
  | .functional _ (some value) _ _ => value.isAmbiguous
  | _ => false

/-- The second text is the first without a colon that follows an opening bracket. -/
inductive DropsColon : Text → Text → Prop
  | mk (a : Text) {b : Text} (hb : b ≠ []) : DropsColon (a ++ '[' :: ':' :: b) (a ++ '[' :: b)

structure BeginsWithColon (r : Registry) (m : Option Modifier) (negative : Bool)
    (root rest t : Text) (u : Utility) : Prop where
  text : t = writeSign negative ++ (root ++ '-' :: '[' :: ':' :: rest ++ [']'])
  utility : u = .functional root (some (.arbitrary none (Underscore.decode rest))) m negative
  sign : MaySign negative (root ++ '-' :: '[' :: ':' :: rest ++ [']'])
  opens : Opens r root
  nonblank : (Underscore.decode rest).isBlankText = false

/-- A reading is written as it stood, or its value began with a colon. -/
theorem write_of_mem_readModified {r : Registry} {m : Option Modifier} {t : Text} {u : Utility}
    (hspace : ' ' ∉ t) (h : u ∈ readModified r m t) (hat : u.joinsAt = false) :
    (u.write = t ++ Modifier.writeOptional m ∧ u.isAmbiguous = false) ∨
      ∃ negative root rest, BeginsWithColon r m negative root rest t u := by
  rcases readModified_cases h with ⟨name, value, hread, rfl⟩ |
    ⟨negative, t, root, value, rfl, hsign, hmem, rfl⟩
  · exact .inl ⟨write_of_readProperty? hspace hread m, rfl⟩
  · rw [List.mem_append, not_or] at hspace
    rcases readFunctional_cases hmem with ⟨inner, v, hopens, rfl, hread, rfl⟩ | ⟨text, hroot, rfl⟩
    · have hinner : ' ' ∉ inner := fun hmem => hspace.2 (by simp [hmem])
      rcases UtilityValue.write_of_readArbitrary? hinner hread with
        ⟨hwrite, hambiguous⟩ | ⟨rest, rfl, hblank, rfl⟩
      · refine .inl ⟨?_, hambiguous⟩
        rw [write, UtilityValue.writeOptional, hwrite]
        simp
      · exact .inr ⟨negative, root, rest, rfl, rfl, hsign, hopens, hblank⟩
    · left
      cases text with
      | none =>
        rw [mem_rootSplits_none hroot]
        refine ⟨?_, rfl⟩
        simp [write, UtilityValue.writeOptional]
      | some text =>
        rcases mem_rootSplits_some hroot with heq | rfl
        · refine ⟨?_, rfl⟩
          rw [write, UtilityValue.write_map_ofName, heq]
          simp [setOff]
        · cases hat

namespace BeginsWithColon

variable {r : Registry} {m : Option Modifier} {negative : Bool} {root rest t : Text} {u : Utility}

def written (negative : Bool) (root rest : Text) : Text :=
  writeSign negative ++ (root ++ '-' :: '[' :: rest ++ [']'])

theorem write_eq (h : BeginsWithColon r m negative root rest t u) (hspace : ' ' ∉ t) :
    u.write = written negative root rest ++ Modifier.writeOptional m := by
  have hrest : ' ' ∉ rest := fun hmem => hspace (by rw [h.text]; simp [hmem])
  rw [h.utility, write, UtilityValue.writeOptional, UtilityValue.write, writeArbitrary,
    Underscore.encode_decode hrest, written]
  simp

/-- Without the colon the value is read as before unless it looks typed. -/
theorem mem_readModified_iff (h : BeginsWithColon r m negative root rest t u) :
    u ∈ readModified r m (written negative root rest) ↔ u.isAmbiguous = false := by
  have hsign : MaySign negative (root ++ '-' :: '[' :: rest ++ [']']) := by
    intro hnegative
    have hhead : (root ++ '-' :: '[' :: rest ++ [']']).head? =
        (root ++ '-' :: '[' :: ':' :: rest ++ [']']).head? := by
      cases root <;> rfl
    rw [hhead]
    exact h.sign hnegative
  have hread := UtilityValue.readArbitrary?_eq_untyped_iff h.nonblank
  rw [written, readModified_of_maySign hsign, h.opens.readFunctional, h.utility]
  rw [isAmbiguous, UtilityValue.isAmbiguous, ← hread]
  simp

theorem separated {sep : Char} {ps : List Text} (h : BeginsWithColon r m negative root rest t u)
    (hsep : Segment.Separated sep (t :: ps)) :
    Segment.Separated sep (written negative root rest :: ps) := by
  have ht : t = (writeSign negative ++ root ++ ['-']) ++ '[' :: ':' :: (rest ++ [']']) := by
    simp [h.text]
  have hwritten : written negative root rest =
      (writeSign negative ++ root ++ ['-']) ++ '[' :: (rest ++ [']']) := by
    simp [written]
  rw [Segment.separated_cons_iff, ht] at hsep
  obtain ⟨huncut, hrun⟩ := Segment.uncut_of_bracket_colon hsep.1
  rw [Segment.separated_cons_iff, hwritten, hrun]
  exact ⟨huncut, hsep.2⟩

theorem dropsColon (h : BeginsWithColon r m negative root rest t u) (after : Text) :
    DropsColon (t ++ after) (written negative root rest ++ after) := by
  have happ := DropsColon.mk (writeSign negative ++ root ++ ['-'])
    (show rest ++ ']' :: after ≠ [] by simp)
  simpa [h.text, written] using happ

theorem not_mem_readStatic (h : BeginsWithColon r m negative root rest t u) (text : Text) :
    u ∉ readStatic r text := by
  rw [h.utility, readStatic]
  split_ifs <;> simp

end BeginsWithColon

theorem mem_readAll_cases {r : Registry} {t : Text} {u : Utility} (h : u ∈ readAll r t) :
    u = .static t false ∨ ∃ name modifier m, Modifier.split? t = some (name, modifier) ∧
      Modifier.readOptional? modifier = some m ∧ u ∈ readModified r m name := by
  rw [readAll, List.mem_append] at h
  rcases h with h | h
  · left
    unfold readStatic at h
    split_ifs at h
    · exact List.mem_singleton.mp h
    · cases h
  · right
    split at h
    · cases h
    · rename_i name modifier hsplit
      split at h
      · cases h
      · rename_i m hm
        exact ⟨name, modifier, m, hsplit, hm, h⟩

theorem readAll_of_split? {r : Registry} {t name : Text} {modifier : Option Text}
    {m : Option Modifier} (hsplit : Modifier.split? t = some (name, modifier))
    (hm : Modifier.readOptional? modifier = some m) :
    readAll r t = readStatic r t ++ readModified r m name := by
  rw [readAll, hsplit]
  simp only [hm]

/-- A reading is written as it stood, or without one colon; and what is written has that reading
unless its value looks typed. -/
theorem mem_readAll_write_iff {r : Registry} {t : Text} {u : Utility} (hspace : ' ' ∉ t)
    (h : u ∈ readAll r t) (hat : u.joinsAt = false) :
    (u.write = t ∨ DropsColon t u.write) ∧
      (u ∈ readAll r u.write ↔ u.isAmbiguous = false) := by
  rcases mem_readAll_cases h with rfl | ⟨name, modifier, m, hsplit, hm, hmem⟩
  · exact ⟨.inl rfl, iff_of_true h rfl⟩
  · obtain ⟨hsep, ht⟩ := Modifier.split?_eq_some_iff.mp hsplit
    have hspaces := hspace
    rw [ht, List.mem_append, not_or] at hspaces
    have hmodifier := Modifier.writeOptional_of_readOptional? hspaces.2 hm
    rcases write_of_mem_readModified hspaces.1 hmem hat with
      ⟨hwrite, hambiguous⟩ | ⟨negative, root, rest, hcolon⟩
    · rw [hmodifier, ← ht] at hwrite
      rw [hwrite]
      exact ⟨.inl rfl, iff_of_true h hambiguous⟩
    · have hwrite := hcolon.write_eq hspaces.1
      rw [hmodifier] at hwrite
      have hsplit' : Modifier.split? u.write = some (BeginsWithColon.written negative root rest,
          modifier) := Modifier.split?_eq_some_iff.mpr ⟨hcolon.separated hsep, hwrite⟩
      refine ⟨.inr ?_, ?_⟩
      · rw [ht, hwrite]
        exact hcolon.dropsColon _
      · rw [readAll_of_split? hsplit' hm, List.mem_append,
          or_iff_right (hcolon.not_mem_readStatic _), hcolon.mem_readModified_iff]

end Utility
end UtilityCss
