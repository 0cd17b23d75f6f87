import UtilityCss.Proofs.ClassName.Utilities
import UtilityCss.ClassName.Defaults

/-!
# What a canonical text means

The canonical text of a candidate is its class name with the exclamation mark moved to the end and,
where a bracketed value began with a colon, without that colon. It is cut at the same colons, its
pieces are the same variants, and its last piece has the same utility among its readings unless the
value now looks typed.
-/
namespace UtilityCss

open Text

namespace Utility.DropsColon

variable {t t' : Text}

theorem head?_eq (h : DropsColon t t') : t'.head? = t.head? := by
  obtain ⟨a, -⟩ := h
  cases a <;> rfl

theorem getLast?_eq (h : DropsColon t t') : t'.getLast? = t.getLast? := by
  obtain ⟨a, hb⟩ := h
  obtain ⟨c, b, rfl⟩ := List.exists_cons_of_ne_nil hb
  simp [List.getLast?_append, List.getLast?_cons_cons]

theorem uncut {sep : Char} (h : DropsColon t t') (huncut : Segment.State.start.uncut sep t = true) :
    Segment.State.start.uncut sep t' = true := by
  obtain ⟨a, -⟩ := h
  exact (Segment.uncut_of_bracket_colon huncut).1

end Utility.DropsColon

namespace Candidate

theorem splitImportant_cases {t base : Text} {important : Bool}
    (h : splitImportant t = (base, important)) :
    (important = true ∧ (t = base ++ ['!'] ∨ t = '!' :: base)) ∨
      (important = false ∧ t = base ∧ t.getLast? ≠ some '!' ∧ t.head? ≠ some '!') := by
  unfold splitImportant at h
  split_ifs at h with hlast
  · cases h
    exact .inl ⟨rfl, .inl (List.dropLast_append_getLast? _ hlast).symm⟩
  · split at h
    · cases h
      exact .inl ⟨rfl, .inr rfl⟩
    · rename_i hhead
      cases h
      refine .inr ⟨rfl, rfl, hlast, fun heq => ?_⟩
      obtain ⟨rest, rfl⟩ := List.head?_eq_some_iff.mp heq
      exact hhead rest rfl

theorem splitImportant_append_mark (base : Text) :
    splitImportant (base ++ ['!']) = (base, true) := by
  simp [splitImportant]

theorem splitImportant_of_no_mark {t : Text} (hlast : t.getLast? ≠ some '!')
    (hhead : t.head? ≠ some '!') : splitImportant t = (t, false) := by
  unfold splitImportant
  rw [if_neg hlast]
  split
  · exact absurd rfl hhead
  · rfl

theorem uncut_base {t base : Text} {important : Bool}
    (h : splitImportant t = (base, important))
    (huncut : Segment.State.start.uncut ':' t = true) :
    Segment.State.start.uncut ':' base = true := by
  rcases splitImportant_cases h with ⟨-, rfl | rfl⟩ | ⟨-, rfl, -⟩
  · rw [Segment.State.uncut_append, Bool.and_eq_true] at huncut
    exact huncut.1
  · rw [Segment.State.uncut, Bool.and_eq_true] at huncut
    exact huncut.2
  · exact huncut

theorem mem_of_mem_base {t base : Text} {important : Bool} {d : Char}
    (h : splitImportant t = (base, important)) (hd : d ∈ base) : d ∈ t := by
  rcases splitImportant_cases h with ⟨-, rfl | rfl⟩ | ⟨-, rfl, -⟩
  · exact List.mem_append_left _ hd
  · exact List.mem_cons_of_mem _ hd
  · exact hd

/-- A base that lost at most a colon inside gets its exclamation mark back at the end. -/
theorem splitImportant_writeBase {t base written : Text} {important : Bool}
    (h : splitImportant t = (base, important))
    (hwritten : written = base ∨ Utility.DropsColon base written) :
    splitImportant (written ++ if important then ['!'] else []) = (written, important) := by
  rcases splitImportant_cases h with ⟨rfl, -⟩ | ⟨rfl, rfl, hlast, hhead⟩
  · exact splitImportant_append_mark written
  · have hsame : written.getLast? = t.getLast? ∧ written.head? = t.head? := by
      rcases hwritten with rfl | hdrops
      · exact ⟨rfl, rfl⟩
      · exact ⟨hdrops.getLast?_eq, hdrops.head?_eq⟩
    rw [← hsame.1] at hlast
    rw [← hsame.2] at hhead
    simpa using splitImportant_of_no_mark hlast hhead

theorem uncut_writeBase {base written : Text} (important : Bool)
    (hbase : Segment.State.start.uncut ':' base = true)
    (hwritten : written = base ∨ Utility.DropsColon base written) :
    Segment.State.start.uncut ':' (written ++ if important then ['!'] else []) = true := by
  have huncut : Segment.State.start.uncut ':' written = true := by
    rcases hwritten with rfl | hdrops
    · exact hbase
    · exact hdrops.uncut hbase
  rw [Segment.State.uncut_append, huncut]
  cases important <;> simp [Segment.State.uncut, Segment.State.cutsAt]

/-- Whether a root `@`, of the utility or of a variant, has something after it. -/
def joinsAt (c : Candidate) : Bool := c.utility.joinsAt || c.variants.any Variant.joinsAt

theorem map_write_of_mapM {r : Registry} {pieces : List Text} {variants : List Variant}
    (hspace : ∀ p ∈ pieces, ' ' ∉ p) (h : pieces.mapM (Variant.read? r) = some variants)
    (hat : ∀ v ∈ variants, v.joinsAt = false) : variants.map Variant.write = pieces := by
  induction pieces generalizing variants with
  | nil =>
    cases h
    rfl
  | cons p pieces ih =>
    obtain ⟨v, hv, vs, hvs, rfl⟩ : ∃ v, Variant.read? r p = some v ∧
        ∃ vs, pieces.mapM (Variant.read? r) = some vs ∧ v :: vs = variants := by
      simpa [List.mapM_cons, Option.bind_eq_some_iff] using h
    rw [List.forall_mem_cons] at hspace hat
    rw [List.map_cons, (Variant.reads_of_read? hv).write_eq hspace.1 hat.1, ih hspace.2 hvs hat.2]

theorem map_write_of_readVariants? {r : Registry} {pieces : List Text} {variants : List Variant}
    (hspace : ∀ p ∈ pieces, ' ' ∉ p) (h : readVariants? r pieces = some variants)
    (hat : ∀ v ∈ variants, v.joinsAt = false) :
    variants.reverse.map Variant.write = pieces := by
  have hwrite := map_write_of_mapM (fun p hp => hspace p (List.mem_reverse.mp hp)) h hat
  rw [List.map_reverse, hwrite, List.reverse_reverse]

theorem readVariants?_singleton {r : Registry} {p : Text} {v : Variant}
    (h : Variant.read? r p = some v) : readVariants? r [p] = some [v] := by
  simp only [readVariants?, List.reverse_singleton, List.mapM_cons, List.mapM_nil, h]
  rfl

theorem readAll_of_split {r : Registry} {raw piece base : Text} {pieces : List Text}
    {variants : List Variant} {important : Bool}
    (hsplit : Segment.split ':' raw = pieces ++ [piece])
    (hvariants : readVariants? r pieces = some variants)
    (hbase : splitImportant piece = (base, important)) :
    readAll r raw = (Utility.readAll r base).map fun u => ⟨u, variants, important, raw⟩ := by
  simp [readAll, hsplit, hvariants, hbase]

/-- A reading of a class name comes from its pieces: the variants and a utility. -/
theorem exists_split_of_mem_readAll {r : Registry} {raw : Text} {c : Candidate}
    (h : c ∈ readAll r raw) :
    ∃ pieces piece base, Segment.split ':' raw = pieces ++ [piece] ∧
      readVariants? r pieces = some c.variants ∧ splitImportant piece = (base, c.important) ∧
      c.utility ∈ Utility.readAll r base := by
  obtain ⟨pieces, piece, hsplit⟩ : ∃ pieces piece, Segment.split ':' raw = pieces ++ [piece] :=
    ⟨_, _, (List.dropLast_append_getLast (Segment.split_ne_nil ':' raw)).symm⟩
  simp only [readAll, hsplit, List.dropLast_concat, List.getLast?_concat, Option.getD_some] at h
  split at h
  · cases h
  · rename_i variants hvariants
    obtain ⟨u, hu, rfl⟩ := List.mem_map.mp h
    exact ⟨pieces, piece, _, hsplit, hvariants, rfl, hu⟩

/-- The canonical text of a candidate has that candidate among its readings exactly if the utility
has no untyped value that looks typed. -/
theorem keeps_meaning_iff {r : Registry} {raw : Text} {c : Candidate} (hspace : ' ' ∉ raw)
    (hc : c ∈ readAll r raw) (hat : c.joinsAt = false) :
    { c with raw := c.write } ∈ readAll r c.write ↔ c.utility.isAmbiguous = false := by
  rw [joinsAt, Bool.or_eq_false_iff, List.any_eq_false] at hat
  obtain ⟨pieces, piece, base, hsplit, hvariants, hbase, hutility⟩ := exists_split_of_mem_readAll hc
  have hspaces : ∀ p ∈ pieces ++ [piece], ' ' ∉ p :=
    fun p hp hmem => hspace (Segment.mem_of_mem_split (hsplit ▸ hp) hmem)
  rw [List.forall_mem_append, List.forall_mem_singleton] at hspaces
  obtain ⟨hwritten, hread⟩ := Utility.mem_readAll_write_iff
    (fun hmem => hspaces.2 (mem_of_mem_base hbase hmem)) hutility hat.1
  have hpieces : c.variants.reverse.map Variant.write = pieces :=
    map_write_of_readVariants? hspaces.1 hvariants fun v hv => by simpa using hat.2 v hv
  have hseparated : Segment.Separated ':' (pieces ++ [piece]) :=
    hsplit ▸ (Segment.separated_split ':' raw).1
  have huncut : Segment.State.start.uncut ':' c.writeBase = true :=
    uncut_writeBase c.important (uncut_base hbase hseparated.uncut_last) hwritten
  have hsplit' : Segment.split ':' c.write = pieces ++ [c.writeBase] := by
    rw [write, hpieces]
    exact (hseparated.replace_last huncut).split_join
  rw [readAll_of_split hsplit' hvariants (splitImportant_writeBase hbase hwritten), ← hread]
  simp

/-- A colon at the beginning of the brackets is left out and the mark moves to the end. -/
theorem keeps_meaning_without_colon :
    ∃ c ∈ readAll .builtIn "hover:!bg-[:10px]/50".toList,
      c.write = "hover:bg-[10px]/50!".toList ∧
        { c with raw := c.write } ∈ readAll .builtIn c.write := by
  have hhover : Variant.read? .builtIn "hover".toList = some (.static "hover".toList true) := by
    rw [Variant.read?]
    decide +kernel
  have hsplit : Segment.split ':' "hover:!bg-[:10px]/50".toList =
      ["hover".toList] ++ ["!bg-[:10px]/50".toList] := by
    decide +kernel
  have hbase : splitImportant "!bg-[:10px]/50".toList = ("bg-[:10px]/50".toList, true) := by
    decide +kernel
  have hread := readAll_of_split hsplit (readVariants?_singleton hhover) hbase
  let u : Utility := .functional "bg".toList (some (.arbitrary none "10px".toList))
    (some (.named "50".toList)) false
  have hmem := hread ▸ List.mem_map_of_mem (a := u) (by decide +kernel)
  exact ⟨_, hmem, by decide +kernel, (keeps_meaning_iff (by decide +kernel) hmem
    (by decide +kernel)).mpr (by decide +kernel)⟩

/-- Of two colons the second makes what is before it a type once the first is left out. -/
theorem loses_meaning_without_colon :
    ∃ c ∈ readAll .builtIn "bg-[:length:10px]".toList,
      { c with raw := c.write } ∉ readAll .builtIn c.write := by
  decide +kernel

/-- The root `@` is written with a dash, and the text with the dash may be another variant. -/
theorem loses_meaning_with_dash :
    let r := (Registry.builtIn.registerVariant "@".toList .functional true).registerVariant
      "@-md".toList .static true
    ∃ c ∈ readAll r "@md:flex".toList, c.joinsAt = true ∧ c.utility.isAmbiguous = false ∧
      { c with raw := c.write } ∉ readAll r c.write := by
  intro r
  have hat : Variant.read? r "@md".toList =
      some (.functional ['@'] (some (.named "md".toList)) none true) := by
    rw [Variant.read?]
    decide +kernel
  have hdash : Variant.read? r "@-md".toList = some (.static "@-md".toList true) := by
    rw [Variant.read?]
    decide +kernel
  have hbase : splitImportant "flex".toList = ("flex".toList, false) := by decide
  have hsplit : Segment.split ':' "@md:flex".toList = ["@md".toList] ++ ["flex".toList] := by
    decide
  have hsplit' : Segment.split ':' "@-md:flex".toList = ["@-md".toList] ++ ["flex".toList] := by
    decide
  have hread := readAll_of_split hsplit (readVariants?_singleton hat) hbase
  have hread' := readAll_of_split hsplit' (readVariants?_singleton hdash) hbase
  let u : Utility := .static "flex".toList false
  have hmem := hread ▸ List.mem_map_of_mem (a := u) (by decide +kernel)
  refine ⟨_, hmem, by decide +kernel, by decide +kernel, fun hagain => ?_⟩
  obtain ⟨u', -, heq⟩ := List.mem_map.mp (hread' ▸ hagain)
  simp at heq

end Candidate
end UtilityCss
