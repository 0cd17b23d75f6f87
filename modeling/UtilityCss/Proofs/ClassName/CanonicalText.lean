import UtilityCss.Proofs.Text.Distinct
import UtilityCss.Proofs.ClassName.Registered

/-!
# The one canonical text of a class name

Where nothing is registered under the name `@`, the candidates of a class name are all written
alike: the pieces stand as they stood, the exclamation mark goes to the end, and only the colon that
a bracketed value begins with is left out.
-/
namespace UtilityCss

open Text

def Text.dropColon : Text → Text
  | ':' :: t => t
  | t => t

theorem Text.dropColon_of_ne {t : Text} (h : ∀ rest, t ≠ ':' :: rest) : t.dropColon = t := by
  unfold dropColon
  split
  · exact absurd rfl (h _)
  · rfl

namespace UtilityValue

theorem readArbitrary?_cons_colon (t : Text) :
    readArbitrary? (':' :: t) =
      if (Underscore.decode t).isBlankText then none
      else some (.arbitrary none (Underscore.decode t)) := by
  have hdecode : Underscore.decode (':' :: t) = [] ++ ':' :: Underscore.decode t := by
    have hopen := Underscore.not_isPrefixOf_cons (c := ':') (by decide) t
    rw [Underscore.decode, Underscore.decodeFrom, if_neg hopen]
    · rfl
    · simp
    · simp
  exact readArbitrary?_of_looksTyped rfl hdecode

theorem write_eq_of_readArbitrary? {inner : Text} {v : UtilityValue} (hspace : ' ' ∉ inner)
    (h : readArbitrary? inner = some v) : v.write = '-' :: '[' :: inner.dropColon ++ [']'] := by
  by_cases hcolon : ∃ rest, inner = ':' :: rest
  · obtain ⟨rest, rfl⟩ := hcolon
    rw [List.mem_cons, not_or] at hspace
    rw [readArbitrary?_cons_colon] at h
    split_ifs at h
    cases h
    rw [write, writeArbitrary, Underscore.encode_decode hspace.2]
    rfl
  · rw [not_exists] at hcolon
    rw [Text.dropColon_of_ne hcolon]
    rcases write_of_readArbitrary? hspace h with ⟨hwrite, -⟩ | ⟨rest, hrest, -⟩
    · exact hwrite
    · exact absurd hrest (hcolon rest)

theorem exists_of_readArbitrary? {inner : Text} {v : UtilityValue}
    (h : readArbitrary? inner = some v) : ∃ dataType value, v = .arbitrary dataType value := by
  rcases readArbitrary?_cases h with ⟨_, _, -, -, rfl⟩ | ⟨_, -, -, rfl⟩ | ⟨-, rfl⟩
  · exact ⟨_, _, rfl⟩
  · exact ⟨_, _, rfl⟩
  · exact ⟨_, _, rfl⟩

end UtilityValue

namespace Utility

def isBracketed : Utility → Bool
  | .functional _ (some (.arbitrary ..)) .. => true
  | _ => false

/-- The text `t` of a utility without the colon that its bracketed value begins with, if it has such
a value and the value begins with a colon. -/
def withoutColon (u : Utility) (t : Text) : Text :=
  match u with
  | .functional root (some (.arbitrary ..)) _ negative =>
    let opening := writeSign negative ++ root ++ ['-', '[']
    if (opening ++ [':']).isPrefixOf t then opening ++ t.drop (opening.length + 1) else t
  | _ => t

theorem withoutColon_of_not_isBracketed {u : Utility} (h : u.isBracketed = false) (t : Text) :
    u.withoutColon t = t := by
  unfold withoutColon
  split
  · cases h
  · rfl

theorem withoutColon_opening (root value inner : Text) (dataType : Option Text)
    (m : Option Modifier) (negative : Bool) :
    withoutColon (.functional root (some (.arbitrary dataType value)) m negative)
        (writeSign negative ++ root ++ ['-', '['] ++ inner) =
      writeSign negative ++ root ++ ['-', '['] ++ inner.dropColon := by
  simp only [withoutColon, List.isPrefixOf_iff_prefix, List.prefix_append_right_inj]
  by_cases hcolon : ∃ rest, inner = ':' :: rest
  · obtain ⟨rest, rfl⟩ := hcolon
    rw [if_pos ⟨rest, rfl⟩, ← List.drop_drop, List.drop_left]
    rfl
  · rw [not_exists] at hcolon
    rw [Text.dropColon_of_ne hcolon, if_neg]
    rintro ⟨rest, rfl⟩
    exact hcolon rest rfl

structure Bracketed (r : Registry) (m : Option Modifier) (negative : Bool) (root inner name : Text)
    (v : UtilityValue) (u : Utility) : Prop where
  name_eq : name = writeSign negative ++ (root ++ '-' :: '[' :: inner ++ [']'])
  value : UtilityValue.readArbitrary? inner = some v
  utility : u = .functional root (some v) m negative
  sign : MaySign negative (root ++ '-' :: '[' :: inner ++ [']'])
  opens : Opens r root

theorem exists_bracketed {r : Registry} {m : Option Modifier} {name : Text} {u : Utility}
    (h : u ∈ readModified r m name) (hu : u.isBracketed = true) :
    ∃ negative root inner v, Bracketed r m negative root inner name v u := by
  rcases readModified_cases h with ⟨_, _, -, rfl⟩ | ⟨negative, t, root, value, ht, hsign, hmem, rfl⟩
  · cases hu
  · rcases readFunctional_cases hmem with ⟨inner, v, hopens, rfl, hread, rfl⟩ | ⟨text, -, rfl⟩
    · exact ⟨negative, root, inner, v, ht, hread, rfl, hsign, hopens⟩
    · cases text <;> cases hu

namespace Bracketed

variable {r : Registry} {m : Option Modifier} {negative : Bool} {root inner name : Text}
  {v : UtilityValue} {u : Utility}

/-- A bracket leaves no choice of the root, so there is one reading. -/
theorem readModified_eq (h : Bracketed r m negative root inner name v u) :
    readModified r m name = [u] := by
  rw [h.name_eq, readModified_of_maySign h.sign, h.opens.readFunctional, h.value, h.utility]
  rfl

theorem bracket_mem (h : Bracketed r m negative root inner name v u) : '[' ∈ name := by
  rw [h.name_eq]
  simp

theorem write_eq (h : Bracketed r m negative root inner name v u) (hspace : ' ' ∉ name) :
    u.write = u.withoutColon (name ++ Modifier.writeOptional m) := by
  have hinner : ' ' ∉ inner := fun hmem => hspace (by rw [h.name_eq]; simp [hmem])
  have hwrite := UtilityValue.write_eq_of_readArbitrary? hinner h.value
  obtain ⟨dataType, value, hv⟩ := UtilityValue.exists_of_readArbitrary? h.value
  have hname : name ++ Modifier.writeOptional m =
      writeSign negative ++ root ++ ['-', '['] ++
        (inner ++ ']' :: Modifier.writeOptional m) := by
    rw [h.name_eq]
    simp
  have hdrop : Text.dropColon (inner ++ ']' :: Modifier.writeOptional m) =
      inner.dropColon ++ ']' :: Modifier.writeOptional m := by
    cases inner with
    | nil => rfl
    | cons c inner =>
      by_cases hc : c = ':'
      · rw [hc]
        rfl
      · rw [Text.dropColon_of_ne (by simp [hc]), Text.dropColon_of_ne (by simp [hc])]
  rw [hname, h.utility, hv, withoutColon_opening, hdrop, write, UtilityValue.writeOptional, ← hv,
    hwrite]
  simp

end Bracketed

theorem readAll_eq_singleton {r : Registry} {t : Text} {u : Utility} (h : u ∈ readAll r t)
    (hu : u.isBracketed = true) : readAll r t = [u] := by
  rcases mem_readAll_cases h with rfl | ⟨name, modifier, m, hsplit, hm, hmem⟩
  · cases hu
  · obtain ⟨negative, root, inner, v, hbracketed⟩ := exists_bracketed hmem hu
    have hbracket : '[' ∈ t := by
      rw [Modifier.eq_append_of_split? hsplit]
      exact List.mem_append_left _ hbracketed.bracket_mem
    have hstatic : readStatic r t = [] := by simp [readStatic, hbracket]
    rw [readAll_of_split? hsplit hm, hstatic, hbracketed.readModified_eq, List.nil_append]

/-- A reading is written as it stood, but for one colon. -/
theorem write_eq_withoutColon {r : Registry} {t : Text} {u : Utility} (hspace : ' ' ∉ t)
    (h : u ∈ readAll r t) (hat : u.joinsAt = false) : u.write = u.withoutColon t := by
  rcases mem_readAll_cases h with rfl | ⟨name, modifier, m, hsplit, hm, hmem⟩
  · rfl
  · have ht := Modifier.eq_append_of_split? hsplit
    rw [ht, List.mem_append, not_or] at hspace
    rw [ht, ← Modifier.writeOptional_of_readOptional? hspace.2 hm]
    cases hu : u.isBracketed with
    | true =>
      obtain ⟨negative, root, inner, v, hbracketed⟩ := exists_bracketed hmem hu
      exact hbracketed.write_eq hspace.1
    | false =>
      rw [withoutColon_of_not_isBracketed hu]
      rcases write_of_mem_readModified hspace.1 hmem hat with ⟨hwrite, -⟩ | ⟨_, _, _, hcolon⟩
      · exact hwrite
      · rw [hcolon.utility] at hu
        cases hu

/-- Which colon is left out does not depend on the reading. -/
theorem withoutColon_congr {r : Registry} {t : Text} {u u' : Utility} (h : u ∈ readAll r t)
    (h' : u' ∈ readAll r t) : u.withoutColon t = u'.withoutColon t := by
  cases hu : u.isBracketed with
  | true =>
    rw [readAll_eq_singleton h hu, List.mem_singleton] at h'
    rw [h']
  | false =>
    cases hu' : u'.isBracketed with
    | true =>
      rw [readAll_eq_singleton h' hu', List.mem_singleton] at h
      rw [h]
    | false => rw [withoutColon_of_not_isBracketed hu, withoutColon_of_not_isBracketed hu']

end Utility

theorem Text.length_distinctOn_le_one {α : Type} {key : α → Text} {items : List α}
    (h : ∀ a ∈ items, ∀ b ∈ items, key a = key b) : (distinctOn key items).length ≤ 1 := by
  cases items with
  | nil => exact Nat.zero_le 1
  | cons a rest =>
    have hrest : ∀ l : List α, (∀ b ∈ l, key b = key a) → distinctOn.go key [key a] l = [] := by
      intro l hl
      induction l with
      | nil => rfl
      | cons b l ih =>
        rw [List.forall_mem_cons] at hl
        simp [distinctOn.go, hl.1, ih hl.2]
    have hkeys : ∀ b ∈ rest, key b = key a := fun b hb => h b (by simp [hb]) a (by simp)
    simp [distinctOn, distinctOn.go, hrest rest hkeys]

namespace Candidate

/-- Texts that are collected one by one are those of the candidates that a search with the texts
seen so far keeps. -/
theorem foldl_addText {seen printed : List Text} (h : ∀ t, t ∈ seen ↔ t ∈ printed)
    (found : List Candidate) :
    found.foldl addText printed = printed ++ (distinctOn.go write seen found).map write := by
  induction found generalizing seen printed with
  | nil => simp [distinctOn.go]
  | cons c found ih =>
    have hcontains : seen.contains c.write = printed.contains c.write := by
      rw [Bool.eq_iff_iff, List.contains_iff_mem, List.contains_iff_mem, h]
    rw [List.foldl_cons, addText, distinctOn.go, hcontains]
    split_ifs
    · exact ih h
    · have hseen : ∀ t, t ∈ c.write :: seen ↔ t ∈ printed ++ [c.write] := by
        simp [h, or_comm]
      rw [ih hseen, List.map_cons, List.append_assoc, List.singleton_append]

theorem canonicalTexts_eq_map_write (r : Registry) (raw : Text) :
    canonicalTexts r raw = (readDistinct r raw).map write := by
  rw [canonicalTexts, foldl_addText (fun _ => Iff.rfl), List.nil_append]
  rfl

/-- The canonical texts of a class name are those of its candidates, each at its first place. -/
theorem canonicalTexts_eq_eraseDups (r : Registry) (raw : Text) :
    canonicalTexts r raw = ((readAll r raw).map write).eraseDups :=
  (canonicalTexts_eq_map_write r raw).trans (map_distinctOn write _)

/-- Every candidate of a class name is written as the pieces of the name, the last one without its
exclamation mark and without a colon that its bracketed value begins with, and the exclamation mark
after them. So a class name has at most one canonical text. -/
theorem writes_pieces {r : Registry} {raw : Text}
    (hutility : r.hasUtility .functional ['@'] = false) (hvariant : r.hasVariant ['@'] = false)
    (hspace : ' ' ∉ raw) :
    let pieces := Segment.split ':' raw
    let base := splitImportant (pieces.getLast?.getD [])
    (∀ c ∈ readAll r raw, c.write =
      Segment.join ':' (pieces.dropLast ++ [c.utility.withoutColon base.1]) ++
        if base.2 then ['!'] else []) ∧
      (∀ c ∈ readAll r raw, ∀ c' ∈ readAll r raw, c.write = c'.write) ∧
      (canonicalTexts r raw).length ≤ 1 := by
  intro pieces base
  have hparts : ∀ c ∈ readAll r raw, c.utility ∈ Utility.readAll r base.1 ∧ c.write =
      Segment.join ':' (pieces.dropLast ++ [c.utility.withoutColon base.1]) ++
        if base.2 then ['!'] else [] := by
    intro c hc
    obtain ⟨front, piece, text, hsplit, hvariants, hbase, hmem⟩ := exists_split_of_mem_readAll hc
    have hpieces : pieces.dropLast = front := by simp [pieces, hsplit]
    have hlast : base = (text, c.important) := by simp [base, pieces, hsplit, hbase]
    have hspaces : ∀ p ∈ front ++ [piece], ' ' ∉ p :=
      fun p hp hmem => hspace (Segment.mem_of_mem_split (hsplit ▸ hp) hmem)
    rw [List.forall_mem_append, List.forall_mem_singleton] at hspaces
    have hjoins : ∀ v ∈ c.variants, v.joinsAt = false := joinsAt_eq_false_of_mapM hvariant hvariants
    have hwrite := Utility.write_eq_withoutColon
      (fun hmem => hspaces.2 (mem_of_mem_base hbase hmem)) hmem
      (Utility.joinsAt_eq_false hmem hutility)
    rw [hpieces, hlast]
    refine ⟨hmem, ?_⟩
    rw [write, map_write_of_readVariants? hspaces.1 hvariants hjoins, writeBase, hwrite,
      Segment.join_append_last]
  have hagree : ∀ c ∈ readAll r raw, ∀ c' ∈ readAll r raw, c.write = c'.write := by
    intro c hc c' hc'
    rw [(hparts c hc).2, (hparts c' hc').2,
      Utility.withoutColon_congr (hparts c hc).1 (hparts c' hc').1]
  refine ⟨fun c hc => (hparts c hc).2, hagree, ?_⟩
  rw [canonicalTexts_eq_map_write, List.length_map]
  exact Text.length_distinctOn_le_one hagree

/-- A value that begins with a colon, and a name with two readings that are written alike. -/
theorem writes_pieces_of_marked :
    (∃ c ∈ readAll .builtIn "!bg-[:10px]/50".toList, c.write = "bg-[10px]/50!".toList) ∧
      (readAll .builtIn "!-inset-full".toList).length = 2 ∧
      (canonicalTexts .builtIn "!-inset-full".toList).length ≤ 1 := by
  have hutility : Registry.builtIn.hasUtility .functional ['@'] = false := by decide
  have hvariant : Registry.builtIn.hasVariant ['@'] = false := by decide
  let c : Candidate := ⟨.functional "bg".toList (some (.arbitrary none "10px".toList))
    (some (.named "50".toList)) false, [], true, "!bg-[:10px]/50".toList⟩
  have hc : c ∈ readAll .builtIn "!bg-[:10px]/50".toList := by decide +kernel
  refine ⟨⟨c, hc, ?_⟩, by decide +kernel, ?_⟩
  · exact ((writes_pieces hutility hvariant (by decide)).1 c hc).trans (by decide +kernel)
  · exact (writes_pieces hutility hvariant (by decide)).2.2

end Candidate
end UtilityCss
