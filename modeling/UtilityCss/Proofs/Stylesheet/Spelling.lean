import UtilityCss.Proofs.Text.Cutting
import UtilityCss.Proofs.Text.Trimming
import UtilityCss.Stylesheet.Statement
import UtilityCss.Stylesheet.Block
import UtilityCss.Stylesheet.Printing

/-!
# Contents spell their text

The parts of a statement, written one after the other, are the text they were taken from. The text
of a block is what its trees and the blanks after them print.
-/
namespace UtilityCss

namespace Statement

open Text

theorem atRule_parts {t : Text} (h : trimRight ('@' :: t) = '@' :: t) :
    t.takeWhile (!endsName ·) ++
      (if trimLeft (t.dropWhile (!endsName ·)) = [] then []
        else leadingBlanks (t.dropWhile (!endsName ·)) ++
          trimLeft (t.dropWhile (!endsName ·))) = t := by
  have happ : t.takeWhile (!endsName ·) ++ t.dropWhile (!endsName ·) = t :=
    List.takeWhile_append_dropWhile
  split
  · rename_i hparams
    have hblank := trimLeft_eq_nil_iff.mp hparams
    have hat : '@' :: t = ('@' :: t.takeWhile (!endsName ·)) ++ t.dropWhile (!endsName ·) := by
      rw [List.cons_append, happ]
    rw [hat] at h
    have hrest := eq_nil_of_trimRight_append h hblank
    rw [List.append_nil]
    rw [hrest, List.append_nil] at happ
    exact happ
  · rw [leadingBlanks_append_trimLeft, happ]

theorem write_atRule (raws : Raws) {raws' : Raws} {t : Text} (h : trimRight ('@' :: t) = '@' :: t)
    (hasBlock : Bool) (hname : raws'.afterName = leadingBlanks (t.dropWhile (!endsName ·)))
    (inner : Text) :
    Content.write ⟨(atRule raws hasBlock t).kind, raws'⟩ inner =
      '@' :: (t ++ if hasBlock then Content.writeBlock raws' inner else raws'.after) := by
  have hparts := atRule_parts h
  simp only [atRule, Content.write, hname]
  rw [List.cons_append, List.cons_append, hparts]

theorem splitImportant_append (value : Text) :
    (splitImportant value).1 ++ (splitImportant value).2 = value := by
  unfold splitImportant
  split
  · rename_i head mark heq
    split
    · rw [← List.append_assoc, trimRight_append_trailingBlanks, ← eq_append_of_splitLast? heq]
    · simp
  · simp

theorem write_declaration (raws : Raws) (property rest inner : Text) :
    (declaration raws property rest).write inner = property ++ ':' :: rest ++ raws.after := by
  have himportant :
      (if !(splitImportant rest.trimLeft).2.isEmpty then
        Content.writeImportant (declaration raws property rest).raws else []) =
        (splitImportant rest.trimLeft).2 := by
    cases hmark : (splitImportant rest.trimLeft).2 with
    | nil => rfl
    | cons c cs => simp [Content.writeImportant, declaration, hmark]
  have hvalue := splitImportant_append rest.trimLeft
  have hproperty := trimRight_append_trailingBlanks property
  have hrest := leadingBlanks_append_trimLeft rest
  change property.trimRight ++ (property.trailingBlanks ++ ':' :: rest.leadingBlanks) ++
    (splitImportant rest.trimLeft).1 ++
    (if !(splitImportant rest.trimLeft).2.isEmpty then
      Content.writeImportant (declaration raws property rest).raws else []) ++ raws.after = _
  rw [himportant]
  conv_rhs => rw [← hrest, ← hvalue, ← hproperty]
  simp only [List.append_assoc, List.cons_append]

/-- A statement without a block is written as it was read. -/
theorem write_of_body? {raws : Raws} {t : Text} {c : Content} (h : body? raws t = some c)
    (ht : trimRight t = t) (inner : Text) : c.write inner = t ++ raws.after := by
  unfold body? at h
  split at h
  · cases h
    exact write_atRule raws ht false rfl inner
  · unfold declaration? at h
    split at h
    · cases h
    · rename_i property rest heq
      split at h
      · cases h
      · cases h
        rw [write_declaration, ← eq_append_of_splitFirst? heq]

theorem before_of_body? {raws : Raws} {t : Text} {c : Content} (h : body? raws t = some c) :
    c.raws.before = raws.before := by
  unfold body? declaration? at h
  split at h
  · cases h
    rfl
  · split at h
    · cases h
    · split at h <;> cases h
      rfl

theorem needsSemicolon_of_body? {raws : Raws} {t : Text} {c : Content}
    (h : body? raws t = some c) : c.kind.needsSemicolon = true := by
  unfold body? declaration? at h
  split at h
  · cases h
    rfl
  · split at h
    · cases h
    · split at h <;> cases h
      rfl

end Statement

/-- The content of a node whose block has been read. -/
def Content.enclosing (c : Content) (b : Block) : Content :=
  { c with raws := { c.raws with after := b.after, semicolon := b.semicolon } }

def Block.text (b : Block) : Text := render (.inline b.semicolon) b.forest ++ b.after

namespace Statement

theorem write_prelude (before t : Text) (b : Block) (inner : Text) :
    ((prelude before t).enclosing b).write inner =
      t ++ '\x7b' :: inner ++ b.after ++ ['\x7d'] := by
  have happ := Text.trimRight_append_trailingBlanks t
  have htrim := Text.trimRight_trimRight t
  unfold prelude Content.enclosing
  split
  · rename_i rest heq
    rw [heq] at htrim
    refine (write_atRule _ htrim true rfl inner).trans ?_
    conv_rhs => rw [← happ, heq]
    simp [Content.writeBlock, atRule]
  · conv_rhs => rw [← happ]
    simp [Content.write, Content.writeBlock]

theorem before_prelude (before t : Text) : (prelude before t).raws.before = before := by
  unfold prelude
  split <;> rfl

theorem needsSemicolon_prelude (before t : Text) :
    (prelude before t).kind.needsSemicolon = false := by
  unfold prelude
  split <;> rfl

theorem layout_prelude (before t : Text) (b : Block) :
    ((prelude before t).enclosing b).layout = .inline b.semicolon := by
  unfold prelude Content.enclosing Content.layout
  split <;> simp [atRule]

end Statement

namespace Block

theorem text_blank (after : Text) : (blank after).text = after := rfl

/-- A new first tree prints before the others, with a semicolon where it needs one and either is
followed by another tree or had one. -/
theorem text_push (b : Block) (c : Content) (t : Forest Content) (terminated : Bool) :
    (b.push c t terminated).text =
      c.raws.before ++ c.write (render c.layout t) ++
        (if c.kind.needsSemicolon && (!b.forest.isEmpty || terminated) then [';'] else []) ++
        b.text := by
  cases hb : b.forest with
  | nil => simp [text, push, hb, render, Forest.isEmpty]
  | cons c' t' rest => simp [text, push, hb, render, Forest.isEmpty]

end Block
end UtilityCss
