import UtilityCss.Proofs.ClassName.Registered

/-!
# Arbitrary texts

What stands in brackets is decoded and then refused if nothing but blanks is left, at any depth of a
variant. Only the value of a property is checked before its underscores become spaces, so a property
has a blank value if it is written with nothing but underscores and blanks.
-/
namespace UtilityCss

open Text

namespace Underscore

/-- A blank, or an underscore, which stands for one. -/
def isHollow (c : Char) : Bool := isBlank c || c = '_'

theorem isBlankText_decode (t : Text) : (decode t).isBlankText = t.all isHollow := by
  induction t with
  | nil => rfl
  | cons c t ih =>
    by_cases hopen : verbatimOpening.isPrefixOf (c :: t) = true
    · obtain ⟨rest, heq⟩ := eq_of_isPrefixOf_verbatimOpening hopen
      obtain ⟨u, hu⟩ := decode_opening rest
      rw [heq, hu]
      rfl
    · by_cases hmark : c = '_'
      · subst hmark
        rw [decode_underscore]
        exact ih
      · by_cases hescape : c = '\\' ∧ t.head? = some '_'
        · obtain ⟨rfl, hhead⟩ := hescape
          obtain ⟨rest, rfl⟩ := List.head?_eq_some_iff.mp hhead
          rw [decode_escaped]
          rfl
        · have hc : isHollow c = isBlank c := by simp [isHollow, hmark]
          rw [decode_cons hopen hmark (not_and.mp hescape), isBlankText, List.all_cons,
            List.all_cons, hc, ← ih]
          rfl

end Underscore

namespace Modifier

def arbitraryTexts : Modifier → List Text
  | .arbitrary value => [value]
  | .named _ => []

theorem isBlankText_of_read? {t : Text} {m : Modifier} (h : read? t = some m) :
    ∀ text ∈ m.arbitraryTexts, text.isBlankText = false := by
  unfold read? at h
  split_ifs at h
  split at h
  · obtain ⟨value, hvalue, rfl⟩ := Option.map_eq_some_iff.mp h
    exact List.forall_mem_singleton.mpr (readArbitrary?_eq_some_iff.mp hvalue).2
  · cases h
    exact List.forall_mem_nil _

theorem isBlankText_of_readOptional? {t : Option Text} {m : Option Modifier}
    (h : readOptional? t = some m) :
    ∀ text ∈ m.toList.flatMap arbitraryTexts, text.isBlankText = false := by
  cases t with
  | none =>
    cases h
    exact List.forall_mem_nil _
  | some t =>
    obtain ⟨m, hm, rfl⟩ := Option.map_eq_some_iff.mp h
    simpa using isBlankText_of_read? hm

end Modifier

namespace VariantValue

def arbitraryTexts : VariantValue → List Text
  | .arbitrary value => [value]
  | .named _ => []

theorem isBlankText_of_read? {t : Text} {v : VariantValue} (h : read? t = some v) :
    ∀ text ∈ v.arbitraryTexts, text.isBlankText = false := by
  unfold read? at h
  split_ifs at h
  · obtain ⟨value, hvalue, rfl⟩ := Option.map_eq_some_iff.mp h
    obtain ⟨inner, -, hread⟩ := Option.bind_eq_some_iff.mp hvalue
    exact List.forall_mem_singleton.mpr (readArbitrary?_eq_some_iff.mp hread).2
  · cases h
    exact List.forall_mem_nil _

theorem isBlankText_of_readOptional? {t : Option Text} {v : Option VariantValue}
    (h : readOptional? t = some v) :
    ∀ text ∈ v.toList.flatMap arbitraryTexts, text.isBlankText = false := by
  cases t with
  | none =>
    cases h
    exact List.forall_mem_nil _
  | some t =>
    obtain ⟨v, hv, rfl⟩ := Option.map_eq_some_iff.mp h
    simpa using isBlankText_of_read? hv

end VariantValue

namespace Variant

/-- The selector, the value and the modifier, as far as they stood in brackets, here and in the
variant that this one wraps. -/
def arbitraryTexts : Variant → List Text
  | .arbitrary selector _ _ => [selector]
  | .static .. => []
  | .functional _ value modifier _ =>
    value.toList.flatMap VariantValue.arbitraryTexts ++
      modifier.toList.flatMap Modifier.arbitraryTexts
  | .compound _ modifier inner _ =>
    inner.arbitraryTexts ++ modifier.toList.flatMap Modifier.arbitraryTexts

theorem Reads.isBlankText {r : Registry} {t : Text} {v : Variant} (h : Reads r t v) :
    ∀ text ∈ v.arbitraryTexts, text.isBlankText = false := by
  induction h with
  | selector _ h =>
    unfold readSelector? at h
    split_ifs at h
    obtain ⟨selector, hselector, rfl⟩ := Option.map_eq_some_iff.mp h
    exact List.forall_mem_singleton.mpr (readArbitrary?_eq_some_iff.mp hselector).2
  | static _ _ _ h =>
    unfold readStatic? at h
    split_ifs at h
    cases h
    exact List.forall_mem_nil _
  | functional _ _ _ h =>
    unfold readFunctional? at h
    split at h
    · rename_i hmodifier hvalue
      cases h
      exact List.forall_mem_append.mpr ⟨VariantValue.isBlankText_of_readOptional? hvalue,
        Modifier.isBlankText_of_readOptional? hmodifier⟩
    · cases h
  | compound _ _ _ _ h ih =>
    unfold wrap? at h
    split_ifs at h
    obtain ⟨modifier, hmodifier, rfl⟩ := Option.map_eq_some_iff.mp h
    exact List.forall_mem_append.mpr ⟨ih, Modifier.isBlankText_of_readOptional? hmodifier⟩

end Variant

namespace UtilityValue

def arbitraryTexts : UtilityValue → List Text
  | .arbitrary _ value => [value]
  | .named .. => []

theorem isBlankText_of_readArbitrary? {inner : Text} {v : UtilityValue}
    (h : readArbitrary? inner = some v) :
    ∀ text ∈ v.arbitraryTexts, text.isBlankText = false := by
  simp only [readArbitrary?, Option.ite_none_left_eq_some, Option.some.injEq] at h
  obtain ⟨hblank, rfl⟩ := h
  exact List.forall_mem_singleton.mpr (Bool.eq_false_iff.mpr hblank)

end UtilityValue

namespace Utility

def propertyValue? : Utility → Option Text
  | .property _ value _ => some value
  | _ => none

/-- The value and the modifier, as far as they stood in brackets; not the value of a property. -/
def checkedTexts : Utility → List Text
  | .property _ _ modifier => modifier.toList.flatMap Modifier.arbitraryTexts
  | .static .. => []
  | .functional _ value modifier _ =>
    value.toList.flatMap UtilityValue.arbitraryTexts ++
      modifier.toList.flatMap Modifier.arbitraryTexts

theorem isBlankText_of_mem_readFunctional {r : Registry} {m : Option Modifier} {t root : Text}
    {value : Option UtilityValue} (h : (root, value) ∈ readFunctional r m t) :
    ∀ text ∈ value.toList.flatMap UtilityValue.arbitraryTexts, text.isBlankText = false := by
  rcases readFunctional_cases h with ⟨inner, v, -, -, hread, rfl⟩ | ⟨text, -, rfl⟩
  · simpa using UtilityValue.isBlankText_of_readArbitrary? hread
  · cases text <;> exact List.forall_mem_nil _

theorem isBlankText_of_mem_readAll {r : Registry} {t : Text} {u : Utility} (h : u ∈ readAll r t) :
    ∀ text ∈ u.checkedTexts, text.isBlankText = false := by
  rcases mem_readAll_cases h with rfl | ⟨name, modifier, m, -, hm, hmem⟩
  · exact List.forall_mem_nil _
  · have hmodifier := Modifier.isBlankText_of_readOptional? hm
    rcases readModified_cases hmem with ⟨_, _, -, rfl⟩ | ⟨_, _, _, _, -, -, hvalue, rfl⟩
    · exact hmodifier
    · exact List.forall_mem_append.mpr ⟨isBlankText_of_mem_readFunctional hvalue, hmodifier⟩

def IsHollowProperty (t : Text) : Prop :=
  ∃ name written, t = '[' :: name ++ ':' :: written ++ [']'] ∧ ':' ∉ name ∧
    written.all Underscore.isHollow = true

theorem splitFirst?_of_readProperty? {t name value : Text}
    (h : readProperty? t = some (name, value)) :
    ∃ inner written, t = '[' :: inner ++ [']'] ∧ splitFirst? ':' inner = some (name, written) ∧
      value = Underscore.decode written := by
  unfold readProperty? at h
  split at h
  · cases h
  · rename_i inner hinner
    split_ifs at h
    split at h
    · cases h
    · rename_i name written hsplit
      split_ifs at h
      cases h
      exact ⟨inner, written, eq_of_bracketed? hinner, hsplit, rfl⟩

theorem isBlankText_iff_of_readProperty? {t name value : Text}
    (h : readProperty? t = some (name, value)) :
    value.isBlankText = true ↔ IsHollowProperty t := by
  obtain ⟨inner, written, rfl, hsplit, rfl⟩ := splitFirst?_of_readProperty? h
  rw [Underscore.isBlankText_decode]
  constructor
  · intro hhollow
    refine ⟨name, written, ?_, notMem_of_splitFirst? hsplit, hhollow⟩
    rw [eq_append_of_splitFirst? hsplit]
    rfl
  · rintro ⟨name', written', heq, hcolon, hhollow⟩
    rw [List.append_cancel_right_eq, List.cons_append, List.cons.injEq] at heq
    rw [heq.2, splitFirst?_append_cons hcolon] at hsplit
    cases hsplit
    exact hhollow

theorem notMem_bracket_of_static {r : Registry} {t root : Text} {negative : Bool}
    (h : .static root negative ∈ readAll r t) : '[' ∉ t := by
  rw [readAll, List.mem_append] at h
  rcases h with h | h
  · unfold readStatic at h
    split_ifs at h with hstatic
    · simpa using (Bool.and_eq_true_iff.mp hstatic).2
    · cases h
  · split at h
    · cases h
    · split at h
      · cases h
      · rcases readModified_cases h with ⟨_, _, -, heq⟩ | ⟨_, _, _, _, -, -, -, heq⟩ <;> cases heq

/-- The value of a property is the only text that can be blank. -/
theorem isBlankText_propertyValue?_iff {r : Registry} {t : Text} {u : Utility}
    (h : u ∈ readAll r t) :
    (∃ value ∈ u.propertyValue?, value.isBlankText = true) ↔
      ∃ name modifier, Modifier.split? t = some (name, modifier) ∧ IsHollowProperty name := by
  rcases mem_readAll_cases h with rfl | ⟨name, modifier, m, hsplit, -, hmem⟩
  · refine iff_of_false (fun ⟨_, hvalue, _⟩ => by cases hvalue) ?_
    rintro ⟨_, modifier, hsplit, name, written, rfl, -⟩
    have hbracket := notMem_bracket_of_static h
    rw [Modifier.eq_append_of_split? hsplit] at hbracket
    simp at hbracket
  · have hname : (∃ name' modifier', Modifier.split? t = some (name', modifier') ∧
        IsHollowProperty name') ↔ IsHollowProperty name := by
      simp [hsplit]
    rw [hname]
    rcases readModified_cases hmem with ⟨property, value, hread, rfl⟩ |
      ⟨negative, rest, root, value, rfl, hsign, -, rfl⟩
    · simpa [propertyValue?] using isBlankText_iff_of_readProperty? hread
    · -- Without a sign the text does not begin with a bracket, and a sign is no bracket.
      refine iff_of_false (fun ⟨_, hvalue, _⟩ => by cases hvalue) ?_
      rintro ⟨name, written, heq, -⟩
      cases negative with
      | true => cases heq
      | false => exact (hsign rfl).1 (by rw [writeSign] at heq; simp_all)

end Utility

namespace Candidate

def checkedTexts (c : Candidate) : List Text :=
  c.utility.checkedTexts ++ c.variants.flatMap Variant.arbitraryTexts

def arbitraryTexts (c : Candidate) : List Text := c.utility.propertyValue?.toList ++ c.checkedTexts

/-- The utility of a class name, without exclamation mark and modifier, is a hollow property. -/
def HasHollowProperty (raw : Text) : Prop :=
  ∃ front piece name modifier, Segment.split ':' raw = front ++ [piece] ∧
    Modifier.split? (splitImportant piece).1 = some (name, modifier) ∧
    Utility.IsHollowProperty name

theorem isBlankText_of_mem_checkedTexts {r : Registry} {raw : Text} {c : Candidate}
    (h : c ∈ readAll r raw) : ∀ text ∈ c.checkedTexts, text.isBlankText = false := by
  obtain ⟨front, piece, base, -, hvariants, -, hutility⟩ := exists_split_of_mem_readAll h
  refine List.forall_mem_append.mpr ⟨Utility.isBlankText_of_mem_readAll hutility, ?_⟩
  intro text htext
  obtain ⟨v, hv, htext⟩ := List.mem_flatMap.mp htext
  obtain ⟨piece, hreads⟩ := exists_reads_of_map (map_eq_map_some_of_mapM hvariants) hv
  exact hreads.isBlankText text htext

theorem hasHollowProperty_iff {raw piece base : Text} {front : List Text} {important : Bool}
    (hsplit : Segment.split ':' raw = front ++ [piece])
    (hbase : splitImportant piece = (base, important)) :
    HasHollowProperty raw ↔ ∃ name modifier, Modifier.split? base = some (name, modifier) ∧
      Utility.IsHollowProperty name := by
  constructor
  · rintro ⟨front', piece', name, modifier, hsplit', hname, hhollow⟩
    obtain ⟨-, heq⟩ := List.append_inj' (hsplit.symm.trans hsplit') rfl
    cases heq
    rw [hbase] at hname
    exact ⟨name, modifier, hname, hhollow⟩
  · rintro ⟨name, modifier, hname, hhollow⟩
    exact ⟨front, piece, name, modifier, hsplit, by rw [hbase, hname], hhollow⟩

/-- No arbitrary text of a candidate is blank but for the value of a property, and that is blank
exactly if the property is hollow. -/
theorem arbitraryTexts_nonblank_iff {r : Registry} {raw : Text} {c : Candidate}
    (h : c ∈ readAll r raw) :
    (∀ text ∈ c.checkedTexts, text.isBlankText = false) ∧
      ((∀ text ∈ c.arbitraryTexts, text.isBlankText = false) ↔ ¬ HasHollowProperty raw) := by
  have hchecked := isBlankText_of_mem_checkedTexts h
  obtain ⟨front, piece, base, hsplit, -, hbase, hutility⟩ := exists_split_of_mem_readAll h
  refine ⟨hchecked, ?_⟩
  rw [hasHollowProperty_iff hsplit hbase, ← Utility.isBlankText_propertyValue?_iff hutility,
    arbitraryTexts, List.forall_mem_append, and_iff_left hchecked]
  simp

/-- The value of the property is blank; its modifier and the texts of the nested variant are not. -/
theorem arbitraryTexts_nonblank_iff_of_hollow :
    ∃ c ∈ readAll .builtIn "group-[&_p]/[_x]:[color:_]/[.5_]".toList,
      c.arbitraryTexts = [" ".toList, ".5 ".toList, "& p".toList, " x".toList] ∧
        (∀ text ∈ c.checkedTexts, text.isBlankText = false) ∧
        HasHollowProperty "group-[&_p]/[_x]:[color:_]/[.5_]".toList := by
  let c : Candidate :=
    ⟨.property "color".toList " ".toList (some (.arbitrary ".5 ".toList)),
      [.compound "group".toList (some (.arbitrary " x".toList))
        (.arbitrary "& p".toList false true) true],
      false, "group-[&_p]/[_x]:[color:_]/[.5_]".toList⟩
  have hread : c ∈ readAll .builtIn "group-[&_p]/[_x]:[color:_]/[.5_]".toList := by
    decide +kernel
  obtain ⟨hchecked, hiff⟩ := arbitraryTexts_nonblank_iff hread
  have hblank : ¬ ∀ text ∈ c.arbitraryTexts, text.isBlankText = false := by decide
  exact ⟨c, hread, by decide, hchecked, not_not.mp fun h => hblank (hiff.mpr h)⟩

/-- An underscore is not nothing, but all that is left of it is a space. -/
theorem arbitraryTexts_blank_of_underscore :
    ∃ c ∈ readAll .builtIn "[color:_]".toList,
      ∃ text ∈ c.arbitraryTexts, text.isBlankText = true := by
  decide +kernel

end Candidate
end UtilityCss
