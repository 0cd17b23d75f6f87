import UtilityCss.Proofs.Text.Cutting
import UtilityCss.Proofs.Stylesheet.Legible

/-!
# Where blanks stand in a parsed node

Reading puts the blanks around the parts of a node into its raws. So the parts neither begin nor end
with blanks, as far as it takes blanks from both of their ends, and the raws hold nothing else.
-/
namespace UtilityCss

namespace Text

def BeginsTight (t : Text) : Prop := ∀ c ∈ t.head?, isBlank c = false

def EndsTight (t : Text) : Prop := ∀ c ∈ t.getLast?, isBlank c = false

theorem beginsTight_trimLeft (t : Text) : BeginsTight t.trimLeft := by
  intro c hc
  cases ht : t.trimLeft with
  | nil =>
    rw [ht] at hc
    cases hc
  | cons d q =>
    rw [ht] at hc
    cases hc
    exact isBlank_of_trimLeft_eq_cons ht

theorem endsTight_trimRight (t : Text) : EndsTight t.trimRight := by
  rcases isBlankText_or_eq_append_cons t with hblank | ⟨a, c, b, rfl, hc, hb⟩
  · rw [trimRight_of_isBlankText hblank]
    exact fun c hc => absurd hc (Option.not_mem_none c)
  · rw [trimRight_append_cons hb hc]
    intro d hd
    rw [List.getLast?_append] at hd
    cases hd
    exact hc

theorem BeginsTight.of_append {a b : Text} (h : BeginsTight (a ++ b)) : BeginsTight a := by
  cases a with
  | nil => exact fun c hc => absurd hc (Option.not_mem_none c)
  | cons c a => exact h

theorem EndsTight.of_append {a b : Text} (h : EndsTight (a ++ b)) : EndsTight b := by
  intro c hc
  apply h c
  rw [List.getLast?_append, Option.mem_def.mp hc]
  rfl

end Text

open Text

theorem Scan.ClosesAtEnd.hasInfix_eq_false {text : Text} (h : ClosesAtEnd text) :
    text.hasInfix ['*', '/'] = false := by
  induction text with
  | nil => rfl
  | cons c cs ih =>
    have hnext : ∀ rest, ¬ (c = '*' ∧ (cs ++ '*' :: '/' :: rest).head? = some '/') := by
      intro rest hc
      have hread := h rest
      rw [List.cons_append, comment?, if_pos hc] at hread
      cases hread
    have hrest : ClosesAtEnd cs := by
      intro rest
      have hread := h rest
      rw [List.cons_append, comment?, if_neg (hnext rest)] at hread
      obtain ⟨p, hp, heq⟩ := Option.map_eq_some_iff.mp hread
      cases heq
      exact hp
    have hhere : List.isPrefixOf ['*', '/'] (c :: cs) = false := by
      rw [Bool.eq_false_iff]
      intro hprefix
      obtain ⟨t, ht⟩ := List.isPrefixOf_iff_prefix.mp hprefix
      cases ht
      exact hnext [] ⟨rfl, rfl⟩
    rw [hasInfix, hhere, Bool.false_or]
    exact ih hrest

namespace Content

/-- The raw between the two halves of a node: the blanks before a brace, or the colon of a
declaration with the blanks around it. -/
def HasTidyBetween (c : Content) : Prop :=
  match c.kind with
  | .declaration .. =>
    ∃ left right : Text, left.isBlankText = true ∧ right.isBlankText = true ∧
      c.raws.between = left ++ ':' :: right
  | _ => c.raws.between.isBlankText = true

def HasTidyParts (c : Content) : Prop :=
  match c.kind with
  | .root => True
  | .atRule r => r.params.BeginsTight ∧ r.params.EndsTight
  | .rule selector => selector.EndsTight
  | .declaration property value important =>
    property.isBlankText = false ∧ property.EndsTight ∧ value.BeginsTight ∧ value.EndsTight ∧
      (important = true ↔ c.raws.important ≠ [])
  | .comment text => text.hasInfix ['*', '/'] = false

/-- How reading leaves the parts of a node and the raws around them. -/
structure IsTidy (c : Content) : Prop where
  pretty : c.raws.pretty = false
  before : c.raws.before.isBlankText = true
  afterName : c.raws.afterName.isBlankText = true
  after : c.raws.after.isBlankText = true
  between : c.HasTidyBetween
  parts : c.HasTidyParts

theorem isTidy_root (after : Text) (semicolon : Bool) (h : after.isBlankText = true) :
    IsTidy ⟨.root, { after := after, semicolon := semicolon }⟩ :=
  ⟨rfl, rfl, rfl, h, rfl, trivial⟩

end Content

theorem Text.isBlankText_of_asciiSpace {t : Text} (h : t.all isAsciiSpace = true) :
    t.isBlankText = true := by
  rw [List.all_eq_true] at h
  exact List.all_eq_true.mpr fun c hc => isBlank_of_isAsciiSpace (h c hc)

namespace Statement

theorem endsTight_params {t : Text} (h : EndsTight ('@' :: t)) :
    EndsTight (trimLeft (t.dropWhile (!endsName ·))) := by
  have happ : '@' :: t = '@' :: t.takeWhile (!endsName ·) ++
      (leadingBlanks (t.dropWhile (!endsName ·)) ++ trimLeft (t.dropWhile (!endsName ·))) := by
    rw [leadingBlanks_append_trimLeft, List.cons_append, List.takeWhile_append_dropWhile]
  rw [happ] at h
  exact h.of_append.of_append

theorem tight_splitImportant {value : Text} (hbegins : value.BeginsTight)
    (hends : value.EndsTight) :
    (splitImportant value).1.BeginsTight ∧ (splitImportant value).1.EndsTight := by
  constructor
  · rw [← splitImportant_append value] at hbegins
    exact hbegins.of_append
  · unfold splitImportant
    split
    · split
      · exact endsTight_trimRight _
      · exact hends
    · exact hends

theorem isTidy_of_body? {before after t : Text} {c : Content} (hbefore : before.isBlankText = true)
    (hafter : after.isBlankText = true) (ht : t.EndsTight)
    (h : body? { before := before, after := after } t = some c) : c.IsTidy := by
  unfold body? declaration? at h
  split at h
  · rename_i rest
    cases h
    exact ⟨rfl, hbefore, isBlankText_leadingBlanks _, hafter, rfl,
      ⟨beginsTight_trimLeft _, endsTight_params ht⟩⟩
  · split at h
    · cases h
    · rename_i property rest heq
      split at h
      · cases h
      · rename_i hproperty
        cases h
        have hends : rest.trimLeft.EndsTight := by
          rw [eq_append_of_splitFirst? heq, ← leadingBlanks_append_trimLeft rest,
            ← List.cons_append, ← List.append_assoc] at ht
          exact ht.of_append
        obtain ⟨hbegins, hends⟩ := tight_splitImportant (beginsTight_trimLeft rest) hends
        have hmark : (!(splitImportant rest.trimLeft).2.isEmpty) = true ↔
            (splitImportant rest.trimLeft).2 ≠ [] := by simp
        have htrim : property.trimRight.isBlankText = false := by
          rw [Bool.not_eq_true] at hproperty
          rw [← trimRight_append_trailingBlanks property, isBlankText_append,
            isBlankText_trailingBlanks, Bool.and_true] at hproperty
          exact hproperty
        exact ⟨rfl, hbefore, rfl, hafter,
          ⟨_, _, isBlankText_trailingBlanks property, isBlankText_leadingBlanks rest, rfl⟩,
          htrim, endsTight_trimRight property, hbegins, hends, hmark⟩

theorem isTidy_prelude {before : Text} (hbefore : before.isBlankText = true) (t : Text) {b : Block}
    (hafter : b.after.isBlankText = true) : ((prelude before t).enclosing b).IsTidy := by
  have ht := endsTight_trimRight t
  have hblanks := isBlankText_trailingBlanks t
  unfold prelude Content.enclosing
  split
  · rename_i rest heq
    rw [heq] at ht
    exact ⟨rfl, hbefore, isBlankText_leadingBlanks _, hafter, hblanks,
      ⟨beginsTight_trimLeft _, endsTight_params ht⟩⟩
  · exact ⟨rfl, hbefore, rfl, hafter, hblanks, ht⟩

end Statement

theorem Block.Legible.isTidy {stop : Text} {b : Block} (h : b.Legible stop) :
    ∀ c ∈ b.forest.preorder, c.IsTidy := by
  induction h with
  | blank => exact fun c hc => absurd hc List.not_mem_nil
  | comment hb ht _ ih =>
    refine List.forall_mem_cons.mpr ⟨?_, ih⟩
    exact ⟨rfl, isBlankText_of_asciiSpace hb, rfl, rfl, rfl, ht.hasInfix_eq_false⟩
  | statement hb _ hc _ ih =>
    refine List.forall_mem_cons.mpr ⟨?_, ih⟩
    exact Statement.isTidy_of_body? (isBlankText_of_asciiSpace hb) (isBlankText_trailingBlanks _)
      (endsTight_trimRight _) hc
  | last hb _ _ _ hc =>
    refine List.forall_mem_cons.mpr ⟨?_, fun c hc => absurd hc List.not_mem_nil⟩
    exact Statement.isTidy_of_body? (isBlankText_of_asciiSpace hb) rfl (endsTight_trimRight _) hc
  | opening hb _ hinner _ ihinner ih =>
    refine List.forall_mem_cons.mpr ⟨?_, List.forall_mem_append.mpr ⟨ihinner, ih⟩⟩
    exact Statement.isTidy_prelude (isBlankText_of_asciiSpace hb) _
      (isBlankText_of_asciiSpace hinner.all_after)

end UtilityCss
