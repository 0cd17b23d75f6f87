import UtilityCss.Proofs.Text.Segmenting
import UtilityCss.Proofs.ClassName.Verbatim

/-!
# Variants are written as they were read

Cuts lose nothing of a name but the character at which it was cut, and writing puts that character
back. The exception is the root `@`, which a name may begin with and not have a dash after.
-/
namespace UtilityCss

open Text

theorem eq_append_of_mem_dashSplits {name : Text} {p : Text × Text} (h : p ∈ dashSplits name) :
    name = p.1 ++ '-' :: p.2 := by
  induction name generalizing p with
  | nil => simp [dashSplits] at h
  | cons c name ih =>
    rw [dashSplits, List.mem_append, List.mem_map] at h
    rcases h with ⟨q, hq, rfl⟩ | h
    · rw [List.cons_append, ← ih hq]
    · split_ifs at h with hc
      · rw [List.mem_singleton.mp h, hc, List.nil_append]
      · simp at h

theorem mem_rootSplits_none {known : Text → Bool} {name root : Text}
    (h : (root, none) ∈ rootSplits known name) : root = name := by
  rw [rootSplits, List.mem_append] at h
  rcases h with h | h
  · split_ifs at h
    · simpa using h
    · simp at h
  · simp at h

theorem mem_rootSplits_some {known : Text → Bool} {name root value : Text}
    (h : (root, some value) ∈ rootSplits known name) :
    name = root ++ '-' :: value ∨ root = ['@'] := by
  rw [rootSplits, List.mem_append, List.mem_map] at h
  rcases h with h | ⟨p, hp, heq⟩
  · split_ifs at h <;> simp at h
  · cases heq
    unfold valueRoots at hp
    split at hp
    · split_ifs at hp
      · rw [List.mem_singleton] at hp
        exact .inr (congrArg Prod.fst hp)
      · simp at hp
    · exact .inl (eq_append_of_mem_dashSplits (mem_of_mem_dashRoots hp).1)

theorem eq_of_bracketed? {t inner : Text} (h : t.bracketed? = some inner) :
    t = '[' :: inner ++ [']'] := by
  unfold bracketed? at h
  split at h
  · split_ifs at h with hlast
    cases h
    rw [List.cons_append, List.dropLast_append_getLast? _ hlast]
  · cases h

theorem readArbitrary?_eq_some_iff {inner value : Text} :
    readArbitrary? inner = some value ↔
      Underscore.decode inner = value ∧ value.isBlankText = false := by
  rw [readArbitrary?]
  by_cases hblank : (Underscore.decode inner).isBlankText = true
  · simp only [if_pos hblank]
    constructor
    · intro h
      cases h
    · rintro ⟨rfl, hvalue⟩
      rw [hblank] at hvalue
      cases hvalue
  · simp only [if_neg hblank, Option.some.injEq]
    constructor
    · rintro rfl
      exact ⟨rfl, by simpa using hblank⟩
    · exact And.left

theorem writeArbitrary_of_readArbitrary? {inner value : Text} (hspace : ' ' ∉ inner)
    (h : readArbitrary? inner = some value) : writeArbitrary value = '[' :: inner ++ [']'] := by
  obtain ⟨rfl, -⟩ := readArbitrary?_eq_some_iff.mp h
  rw [writeArbitrary, Underscore.encode_decode hspace]

def setOff (mark : Char) : Option Text → Text
  | none => []
  | some t => mark :: t

namespace Modifier

theorem write_of_read? {t : Text} {m : Modifier} (hspace : ' ' ∉ t) (h : read? t = some m) :
    m.write = '/' :: t := by
  unfold read? at h
  split_ifs at h
  split at h
  · rename_i inner hinner
    have ht := eq_of_bracketed? hinner
    obtain ⟨value, hvalue, rfl⟩ := Option.map_eq_some_iff.mp h
    have hspace' : ' ' ∉ inner := fun hmem => hspace (by simp [ht, hmem])
    rw [write, writeArbitrary_of_readArbitrary? hspace' hvalue, ← ht]
  · cases h
    rfl

theorem writeOptional_of_readOptional? {t : Option Text} {m : Option Modifier}
    (hspace : ' ' ∉ setOff '/' t) (h : readOptional? t = some m) :
    writeOptional m = setOff '/' t := by
  cases t with
  | none =>
    cases h
    rfl
  | some t =>
    obtain ⟨m, hm, rfl⟩ := Option.map_eq_some_iff.mp h
    exact write_of_read? (fun hmem => hspace (List.mem_cons_of_mem _ hmem)) hm

/-- A text has at most one slash at which it can be cut, and its parts tell which one. -/
theorem split?_eq_some_iff {t name : Text} {m : Option Text} :
    split? t = some (name, m) ↔
      Segment.Separated '/' (name :: m.toList) ∧ t = name ++ setOff '/' m := by
  have hjoin : Segment.join '/' (name :: m.toList) = name ++ setOff '/' m := by
    cases m <;> simp [Segment.join, setOff]
  constructor
  · intro h
    obtain ⟨hsep, ht⟩ := Segment.separated_split '/' t
    have hsplit : Segment.split '/' t = name :: m.toList := by
      unfold split? at h
      split at h
      · rename_i heq
        cases h
        exact heq
      · rename_i heq
        cases h
        exact heq
      · cases h
    rw [hsplit] at hsep ht
    exact ⟨hsep, by rw [← hjoin, ht]⟩
  · rintro ⟨hsep, rfl⟩
    rw [split?, ← hjoin, hsep.split_join]
    cases m <;> rfl

theorem eq_append_of_split? {t name : Text} {m : Option Text} (h : split? t = some (name, m)) :
    t = name ++ setOff '/' m :=
  (split?_eq_some_iff.mp h).2

end Modifier

namespace VariantValue

theorem write_of_read? {t : Text} {v : VariantValue} (hspace : ' ' ∉ t) (h : read? t = some v) :
    v.write = '-' :: t := by
  unfold read? at h
  split_ifs at h
  · obtain ⟨value, hvalue, rfl⟩ := Option.map_eq_some_iff.mp h
    obtain ⟨inner, hinner, hread⟩ := Option.bind_eq_some_iff.mp hvalue
    have ht := eq_of_bracketed? hinner
    have hspace' : ' ' ∉ inner := fun hmem => hspace (by simp [ht, hmem])
    rw [write, writeArbitrary_of_readArbitrary? hspace' hread, ← ht]
  · cases h
    rfl

theorem writeOptional_of_readOptional? {t : Option Text} {v : Option VariantValue}
    (hspace : ' ' ∉ setOff '-' t) (h : readOptional? t = some v) :
    writeOptional v = setOff '-' t := by
  cases t with
  | none =>
    cases h
    rfl
  | some t =>
    obtain ⟨v, hv, rfl⟩ := Option.map_eq_some_iff.mp h
    exact write_of_read? (fun hmem => hspace (List.mem_cons_of_mem _ hmem)) hv

end VariantValue

namespace Variant

/-- Whether the root `@` has something after it, which it needs no dash for. -/
def joinsAt : Variant → Bool
  | .functional root (some _) _ _ => root = ['@']
  | .compound root _ inner _ => root = ['@'] || inner.joinsAt
  | _ => false

theorem mem_of_rootSplit? {r : Registry} {name : Text} {p : Text × Option Text}
    (h : rootSplit? r name = some p) : p ∈ rootSplits r.hasVariant name :=
  List.mem_of_find?_eq_some h

theorem write_of_readSelector? {inner : Text} {v : Variant} (hspace : ' ' ∉ inner)
    (h : readSelector? inner = some v) : v.write = '[' :: inner ++ [']'] := by
  unfold readSelector? at h
  split_ifs at h
  obtain ⟨selector, hselector, rfl⟩ := Option.map_eq_some_iff.mp h
  exact writeArbitrary_of_readArbitrary? hspace hselector

theorem eq_append_of_rootSplit? {r : Registry} {name root : Text} {value : Option Text}
    (h : rootSplit? r name = some (root, value)) (hat : root = ['@'] → value = none) :
    name = root ++ setOff '-' value := by
  have hmem := mem_of_rootSplit? h
  cases value with
  | none =>
    rw [mem_rootSplits_none hmem]
    simp [setOff]
  | some value =>
    rcases mem_rootSplits_some hmem with heq | rfl
    · exact heq
    · cases hat rfl

inductive Reads (r : Registry) : Text → Variant → Prop
  | selector {t inner : Text} {v : Variant} (ht : t.bracketed? = some inner)
      (h : readSelector? inner = some v) : Reads r t v
  | static {t name root : Text} {value m : Option Text} {v : Variant}
      (ht : Modifier.split? t = some (name, m)) (hroot : rootSplit? r name = some (root, value))
      (hkind : r.variantKind? root = some .static) (h : readStatic? r root value m = some v) :
      Reads r t v
  | functional {t name root : Text} {value m : Option Text} {v : Variant}
      (ht : Modifier.split? t = some (name, m)) (hroot : rootSplit? r name = some (root, value))
      (hkind : r.variantKind? root = some .functional)
      (h : readFunctional? r root value m = some v) : Reads r t v
  | compound {t name root value : Text} {m : Option Text} {inner v : Variant}
      (ht : Modifier.split? t = some (name, m))
      (hroot : rootSplit? r name = some (root, some value))
      (hkind : r.variantKind? root = some .compound) (hinner : Reads r value inner)
      (h : wrap? r root m inner = some v) : Reads r t v

theorem reads_of_read? {r : Registry} {t : Text} {v : Variant} (h : read? r t = some v) :
    Reads r t v := by
  induction hlen : t.length using Nat.strong_induction_on generalizing t v with
  | _ n ih =>
    rw [read?] at h
    split at h
    · rename_i inner hinner
      exact .selector hinner h
    · split at h
      · cases h
      · rename_i name m hsplit
        split at h
        · cases h
        · rename_i root value hroot
          split at h
          · cases h
          · rename_i hkind
            exact .static hsplit hroot hkind h
          · rename_i hkind
            exact .functional hsplit hroot hkind h
          · cases h
          · rename_i value hroot hkind
            split at h
            · cases h
            · rename_i inner hinner
              have hlt := Nat.lt_of_lt_of_le (length_lt_of_rootSplit? hroot)
                (Modifier.length_le_of_split? hsplit)
              exact .compound hsplit hroot hkind (ih _ (hlen ▸ hlt) hinner rfl) h

/-- A variant that was read is written as it stood, whatever it wraps. -/
theorem Reads.write_eq {r : Registry} {t : Text} {v : Variant} (h : Reads r t v)
    (hspace : ' ' ∉ t) (hat : v.joinsAt = false) : v.write = t := by
  induction h with
  | @selector t inner v ht h =>
    have hbracket := eq_of_bracketed? ht
    have hinner : ' ' ∉ inner := fun hmem => hspace (by simp [hbracket, hmem])
    rw [write_of_readSelector? hinner h, hbracket]
  | @static t name root value m v ht hroot hkind h =>
    unfold readStatic? at h
    split_ifs at h with hnone
    simp only [Bool.or_eq_true, not_or, Bool.not_eq_true, Option.isSome_eq_false_iff,
      Option.isNone_iff_eq_none] at hnone
    obtain ⟨rfl, rfl⟩ := hnone
    cases h
    rw [Modifier.eq_append_of_split? ht, eq_append_of_rootSplit? hroot fun _ => rfl]
    simp [write, setOff]
  | @functional t name root value m v ht hroot hkind h =>
    have hsplit := Modifier.eq_append_of_split? ht
    unfold readFunctional? at h
    split at h
    · rename_i modifier value' hmodifier hvalue
      cases h
      have hat' : root = ['@'] → value = none := by
        rintro rfl
        cases value with
        | none => rfl
        | some value =>
          obtain ⟨v, hv, rfl⟩ := Option.map_eq_some_iff.mp hvalue
          cases hat
      have hname := eq_append_of_rootSplit? hroot hat'
      rw [hname] at hsplit
      rw [hsplit, List.mem_append, List.mem_append, not_or, not_or] at hspace
      rw [write, VariantValue.writeOptional_of_readOptional? hspace.1.2 hvalue,
        Modifier.writeOptional_of_readOptional? hspace.2 hmodifier, hsplit]
    · cases h
  | @compound t name root value m inner v ht hroot hkind _ h ih =>
    have hsplit := Modifier.eq_append_of_split? ht
    unfold wrap? at h
    split_ifs at h
    obtain ⟨modifier, hmodifier, rfl⟩ := Option.map_eq_some_iff.mp h
    simp only [joinsAt, Bool.or_eq_false_iff, decide_eq_false_iff_not] at hat
    have hname := eq_append_of_rootSplit? hroot fun heq => absurd heq hat.1
    rw [hname] at hsplit
    rw [hsplit, List.mem_append, List.mem_append, not_or, not_or] at hspace
    have hvalue : ' ' ∉ value := fun hmem => hspace.1.2 (List.mem_cons_of_mem _ hmem)
    rw [write, ih hvalue hat.2, Modifier.writeOptional_of_readOptional? hspace.2 hmodifier, hsplit]
    rfl

end Variant
end UtilityCss
