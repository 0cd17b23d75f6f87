import UtilityCss.Proofs.ClassName.Canonical

/-!
# What is read is registered

Every root in a candidate, also inside its variants, is one that the registry lists under the kind
it is used as, and a variant inside another one compounds. So where `@` is not a variant, nothing is
joined to it, and every variant is written as the text that it was read from.
-/
namespace UtilityCss

open Text

theorem known_of_mem_rootSplits {known : Text → Bool} {name root : Text} {value : Option Text}
    (h : (root, value) ∈ rootSplits known name) : known root = true := by
  rw [rootSplits, List.mem_append] at h
  rcases h with h | h
  · split_ifs at h with hname
    · cases List.mem_singleton.mp h
      exact hname
    · cases h
  · obtain ⟨p, hp, heq⟩ := List.mem_map.mp h
    cases heq
    unfold valueRoots at hp
    split at hp
    · split_ifs at hp with hat
      · rw [List.mem_singleton.mp hp]
        exact hat
      · cases hp
    · exact (mem_of_mem_dashRoots hp).2

namespace Variant

/-- Every root, at any depth, is registered under the kind that it is used as, with the flag that
the registry has for it; and a variant inside another one compounds. -/
def IsRegistered (r : Registry) : Variant → Prop
  | .arbitrary .. => True
  | .static root compounds =>
    r.variantKind? root = some .static ∧ compounds = r.variantCompounds root
  | .functional root _ _ compounds =>
    r.variantKind? root = some .functional ∧ compounds = r.variantCompounds root
  | .compound root _ inner compounds =>
    r.variantKind? root = some .compound ∧ compounds = r.variantCompounds root ∧
      inner.compounds = true ∧ inner.IsRegistered r

theorem Reads.isRegistered {r : Registry} {t : Text} {v : Variant} (h : Reads r t v) :
    v.IsRegistered r := by
  induction h with
  | selector _ h =>
    unfold readSelector? at h
    split_ifs at h
    obtain ⟨selector, -, rfl⟩ := Option.map_eq_some_iff.mp h
    exact trivial
  | static _ _ hkind h =>
    unfold readStatic? at h
    split_ifs at h
    cases h
    exact ⟨hkind, rfl⟩
  | functional _ _ hkind h =>
    unfold readFunctional? at h
    split at h
    · cases h
      exact ⟨hkind, rfl⟩
    · cases h
  | compound _ _ hkind _ h ih =>
    unfold wrap? at h
    split_ifs at h with hcompounds
    obtain ⟨modifier, -, rfl⟩ := Option.map_eq_some_iff.mp h
    exact ⟨hkind, rfl, hcompounds, ih⟩

theorem ne_at_of_variantKind? {r : Registry} (hat : r.hasVariant ['@'] = false) {root : Text}
    {kind : VariantKind} (h : r.variantKind? root = some kind) : root ≠ ['@'] := by
  rintro rfl
  obtain ⟨entry, hentry, -⟩ := Option.map_eq_some_iff.mp h
  rw [Registry.hasVariant, hentry] at hat
  cases hat

theorem IsRegistered.joinsAt_eq_false {r : Registry} {v : Variant} (h : v.IsRegistered r)
    (hat : r.hasVariant ['@'] = false) : v.joinsAt = false := by
  induction v with
  | arbitrary => rfl
  | static => rfl
  | functional root value =>
    have hne := ne_at_of_variantKind? hat h.1
    cases value with
    | none => rfl
    | some value => simp [joinsAt, hne]
  | compound root modifier inner compounds ih =>
    obtain ⟨hkind, -, -, hinner⟩ := h
    simp [joinsAt, ne_at_of_variantKind? hat hkind, ih hinner]

/-- Where `@` is not a variant, a variant is written as the text that it was read from, and so is
read from its own text again. -/
theorem read?_write_of_read? {r : Registry} (hat : r.hasVariant ['@'] = false) {t : Text}
    {v : Variant} (hspace : ' ' ∉ t) (h : read? r t = some v) :
    v.write = t ∧ read? r v.write = some v := by
  have hreads := reads_of_read? h
  have hwrite : v.write = t := hreads.write_eq hspace (hreads.isRegistered.joinsAt_eq_false hat)
  exact ⟨hwrite, by rw [hwrite, h]⟩

/-- A variant that wraps two others, with a modifier and a bracketed value. -/
theorem read?_write_of_nested :
    ∃ v, read? .builtIn "group-not-data-[a=b_c\\_d]/side".toList = some v ∧
      v.write = "group-not-data-[a=b_c\\_d]/side".toList ∧ read? .builtIn v.write = some v := by
  have hat : Registry.builtIn.hasVariant ['@'] = false := by decide
  have hsome : (read? .builtIn "group-not-data-[a=b_c\\_d]/side".toList).isSome = true := by
    decide +kernel
  obtain ⟨v, hv⟩ := Option.isSome_iff_exists.mp hsome
  exact ⟨v, hv, read?_write_of_read? hat (by decide) hv⟩

end Variant

namespace Utility

def IsRegistered (r : Registry) : Utility → Prop
  | .property .. => True
  | .static root _ => r.hasUtility .static root = true
  | .functional root .. => r.hasUtility .functional root = true

theorem known_of_mem_readFunctional {r : Registry} {m : Option Modifier} {t root : Text}
    {value : Option UtilityValue} (h : (root, value) ∈ readFunctional r m t) :
    r.hasUtility .functional root = true := by
  rcases readFunctional_cases h with ⟨_, _, hopens, -⟩ | ⟨text, hroot, -⟩
  · exact hopens.known
  · exact known_of_mem_rootSplits hroot

theorem isRegistered_of_mem_readAll {r : Registry} {t : Text} {u : Utility}
    (h : u ∈ readAll r t) : u.IsRegistered r := by
  rw [readAll, List.mem_append] at h
  rcases h with h | h
  · unfold readStatic at h
    split_ifs at h with hstatic
    · rw [Bool.and_eq_true] at hstatic
      rw [List.mem_singleton.mp h]
      exact hstatic.1
    · cases h
  · split at h
    · cases h
    · split at h
      · cases h
      · rcases readModified_cases h with ⟨_, _, -, rfl⟩ | ⟨_, _, _, _, -, -, hmem, rfl⟩
        · exact trivial
        · exact known_of_mem_readFunctional hmem

theorem joinsAt_eq_false {r : Registry} {t : Text} {u : Utility} (h : u ∈ readAll r t)
    (hat : r.hasUtility .functional ['@'] = false) : u.joinsAt = false := by
  have hregistered := isRegistered_of_mem_readAll h
  cases u with
  | property => rfl
  | static => rfl
  | functional root value =>
    have hne : root ≠ ['@'] := by
      rintro rfl
      rw [IsRegistered, hat] at hregistered
      cases hregistered
    cases value with
    | none => rfl
    | some value => simp [joinsAt, hne]

end Utility

theorem map_eq_map_some_of_mapM {α β : Type} {f : α → Option β} {l : List α} {l' : List β}
    (h : l.mapM f = some l') : l.map f = l'.map some := by
  induction l generalizing l' with
  | nil =>
    cases h
    rfl
  | cons a l ih =>
    obtain ⟨b, hb, bs, hbs, rfl⟩ : ∃ b, f a = some b ∧ ∃ bs, l.mapM f = some bs ∧ b :: bs = l' := by
      simpa [List.mapM_cons, Option.bind_eq_some_iff] using h
    rw [List.map_cons, List.map_cons, hb, ih hbs]

namespace Candidate

/-- What a candidate of the class name `raw` goes back to. The pieces of the name but for the last
one are its variants, innermost first, so the variant at place `k` is the piece `k` places before
the last but one. -/
structure Justified (r : Registry) (raw : Text) (c : Candidate) : Prop where
  raw_eq : c.raw = raw
  length_variants : c.variants.length + 1 = (Segment.split ':' raw).length
  read_piece : ∀ k < c.variants.length, ∃ piece,
    (Segment.split ':' raw)[(Segment.split ':' raw).length - 2 - k]? = some piece ∧
      Variant.read? r piece = c.variants[k]?
  utility : c.utility.IsRegistered r
  variants : ∀ v ∈ c.variants, v.IsRegistered r

theorem exists_reads_of_map {r : Registry} {pieces : List Text} {variants : List Variant}
    (h : pieces.map (Variant.read? r) = variants.map some) {v : Variant} (hv : v ∈ variants) :
    ∃ piece, Variant.Reads r piece v := by
  have hmem : some v ∈ pieces.map (Variant.read? r) := h ▸ List.mem_map_of_mem hv
  obtain ⟨piece, -, hread⟩ := List.mem_map.mp hmem
  exact ⟨piece, Variant.reads_of_read? hread⟩

theorem isRegistered_of_map {r : Registry} {pieces : List Text} {variants : List Variant}
    (h : pieces.map (Variant.read? r) = variants.map some) : ∀ v ∈ variants, v.IsRegistered r := by
  intro v hv
  obtain ⟨piece, hreads⟩ := exists_reads_of_map h hv
  exact hreads.isRegistered

theorem joinsAt_eq_false_of_mapM {r : Registry} (hat : r.hasVariant ['@'] = false)
    {pieces : List Text} {variants : List Variant}
    (h : pieces.mapM (Variant.read? r) = some variants) : ∀ v ∈ variants, v.joinsAt = false :=
  fun v hv => (isRegistered_of_map (map_eq_map_some_of_mapM h) v hv).joinsAt_eq_false hat

/-- The variants of a class name are those of its pieces from the last to the first. -/
theorem read?_piece {r : Registry} {front : List Text} {variants : List Variant}
    (h : front.reverse.map (Variant.read? r) = variants.map some) (piece : Text) {k : Nat}
    (hk : k < variants.length) :
    ∃ p, (front ++ [piece])[(front ++ [piece]).length - 2 - k]? = some p ∧
      Variant.read? r p = variants[k]? := by
  have hlength : front.length = variants.length := by
    simpa using congrArg List.length h
  have hindex : (front ++ [piece]).length - 2 - k = front.length - 1 - k := by
    simp only [List.length_append, List.length_singleton]
    omega
  have hread : (front.reverse[k]?).map (Variant.read? r) = (variants[k]?).map some := by
    rw [← List.getElem?_map, ← List.getElem?_map, h]
  obtain ⟨v, hv⟩ : ∃ v, variants[k]? = some v := ⟨_, List.getElem?_eq_getElem hk⟩
  rw [hv, List.getElem?_reverse (hlength ▸ hk), Option.map_some] at hread
  obtain ⟨p, hp, hpv⟩ := Option.map_eq_some_iff.mp hread
  refine ⟨p, ?_, by rw [hpv, hv]⟩
  rw [hindex, List.getElem?_append_left (by omega), hp]

theorem raw_eq_of_mem_readAll {r : Registry} {raw : Text} {c : Candidate}
    (h : c ∈ readAll r raw) : c.raw = raw := by
  obtain ⟨front, piece, base, hsplit, hvariants, hbase, -⟩ := exists_split_of_mem_readAll h
  rw [readAll_of_split hsplit hvariants hbase] at h
  obtain ⟨u, -, heq⟩ := List.mem_map.mp h
  exact congrArg Candidate.raw heq.symm

theorem variants_eq_of_mem_readAll {r : Registry} {raw : Text} {c c' : Candidate}
    (h : c ∈ readAll r raw) (h' : c' ∈ readAll r raw) :
    c.variants = c'.variants ∧ c.important = c'.important := by
  obtain ⟨front, piece, base, hsplit, hvariants, hbase, -⟩ := exists_split_of_mem_readAll h
  obtain ⟨front', piece', base', hsplit', hvariants', hbase', -⟩ := exists_split_of_mem_readAll h'
  obtain ⟨rfl, heq⟩ := List.append_inj' (hsplit.symm.trans hsplit') rfl
  cases heq
  exact ⟨Option.some.inj (hvariants.symm.trans hvariants'),
    congrArg Prod.snd (hbase.symm.trans hbase')⟩

theorem justified_of_mem_readAll {r : Registry} {raw : Text} {c : Candidate}
    (h : c ∈ readAll r raw) : c.Justified r raw := by
  obtain ⟨front, piece, base, hsplit, hvariants, -, hutility⟩ := exists_split_of_mem_readAll h
  have hread := map_eq_map_some_of_mapM hvariants
  have hlength : front.length = c.variants.length := by simpa using congrArg List.length hread
  exact {
    raw_eq := raw_eq_of_mem_readAll h
    length_variants := by simp [hsplit, hlength]
    read_piece := fun k hk => hsplit ▸ read?_piece hread piece hk
    utility := Utility.isRegistered_of_mem_readAll hutility
    variants := isRegistered_of_map hread }

/-- Every candidate of a class name goes back to its pieces and to the registry, and the candidates
of one name have the same variants and the same importance. -/
theorem readAll_justified (r : Registry) (raw : Text) :
    (∀ c ∈ readAll r raw, c.Justified r raw) ∧
      ∀ c ∈ readAll r raw, ∀ c' ∈ readAll r raw,
        c.variants = c'.variants ∧ c.important = c'.important :=
  ⟨fun _ hc => justified_of_mem_readAll hc, fun _ hc _ hc' => variants_eq_of_mem_readAll hc hc'⟩

/-- A name with two readings below a variant that wraps another one. -/
theorem readAll_justified_of_two_readings :
    ∃ c ∈ readAll .builtIn "dark:group-[&_p]/side:!-inset-full".toList,
      ∃ c' ∈ readAll .builtIn "dark:group-[&_p]/side:!-inset-full".toList,
        c ≠ c' ∧ c.variants = c'.variants ∧
          c.Justified .builtIn "dark:group-[&_p]/side:!-inset-full".toList ∧
          c'.Justified .builtIn "dark:group-[&_p]/side:!-inset-full".toList := by
  have hjustified := readAll_justified .builtIn "dark:group-[&_p]/side:!-inset-full".toList
  let variants : List Variant :=
    [.compound "group".toList (some (.named "side".toList)) (.arbitrary "& p".toList false true)
      true, .static "dark".toList true]
  let ofUtility (u : Utility) : Candidate :=
    ⟨u, variants, true, "dark:group-[&_p]/side:!-inset-full".toList⟩
  have hstatic : ofUtility (.static "-inset-full".toList false) ∈
      readAll .builtIn "dark:group-[&_p]/side:!-inset-full".toList := by decide +kernel
  have hnegative : ofUtility (.functional "inset".toList (some (.named "full".toList none)) none
      true) ∈ readAll .builtIn "dark:group-[&_p]/side:!-inset-full".toList := by decide +kernel
  exact ⟨_, hstatic, _, hnegative, by decide, (hjustified.2 _ hstatic _ hnegative).1,
    hjustified.1 _ hstatic, hjustified.1 _ hnegative⟩

end Candidate

end UtilityCss
