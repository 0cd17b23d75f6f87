import UtilityCss.Proofs.Stylesheet.Lines
import UtilityCss.Proofs.Stylesheet.Restating

/-!
# Indented trees read as they were

Legible trees that stand on indented lines of their own read as trees of the same kinds, as long as
no blanks at the beginning of a statement mask what it is and no backslash stands before the blanks
at the end of a statement.
-/
namespace UtilityCss

open Text Event

namespace Forest

variable {α β γ : Type} {R S : α → β → Prop}

/-- The forests have the same shape, and the relation holds between labels at the same place. -/
inductive Forall₂ (R : α → β → Prop) : Forest α → Forest β → Prop
  | nil : Forall₂ R .nil .nil
  | cons {a : α} {b : β} {t u : Forest α} {t' u' : Forest β} (h : R a b) (children : Forall₂ R t t')
      (rest : Forall₂ R u u') : Forall₂ R (.cons a t u) (.cons b t' u')

theorem Forall₂.refl {R : α → α → Prop} (hR : ∀ a, R a a) (t : Forest α) : Forall₂ R t t := by
  induction t with
  | nil => exact .nil
  | cons a _ _ ihc ihr => exact .cons (hR a) ihc ihr

theorem Forall₂.imp {t : Forest α} {u : Forest β} (h : Forall₂ R t u)
    (himp : ∀ a ∈ t.preorder, ∀ b, R a b → S a b) : Forall₂ S t u := by
  induction h with
  | nil => exact .nil
  | cons h _ _ ihc ihr =>
    simp only [preorder, List.forall_mem_cons, List.forall_mem_append] at himp
    exact .cons (himp.1 _ h) (ihc himp.2.1) (ihr himp.2.2)

theorem Forall₂.map_eq {t : Forest α} {u : Forest β} (h : Forall₂ R t u) {f : α → γ} {g : β → γ}
    (hfg : ∀ a b, R a b → f a = g b) : t.map f = u.map g := by
  induction h with
  | nil => rfl
  | cons h _ _ ihc ihr => rw [map, map, hfg _ _ h, ihc, ihr]

def kinds (f : Forest Content) : Forest Kind := f.map Content.kind

end Forest

namespace Block

theorem isBlankText_of_body? {raws : Raws} {text : Text} {c : Content}
    (hc : Statement.body? raws text.trimRight = some c) : text.isBlankText = false := by
  rw [Bool.eq_false_iff]
  intro hblank
  rw [trimRight_of_isBlankText hblank, Statement.body?_nil] at hc
  cases hc

/-- A legible block with other blanks after its line breaks has the same nodes. What stands on the
line on which the statement before it ends cannot lose its mask. -/
theorem Legible.exists_respaced {stop : Text} {b : Block} (h : b.Legible stop) {y : Text}
    (hy : Respaced b.text y)
    (hmasked : ∀ c ∈ b.forest.preorder, '\n' ∈ c.raws.before → c.kind.isMasked = false) :
    ∃ b' : Block, b'.Legible stop ∧ b'.text = y ∧
      Forest.Forall₂ Kind.Respaced b.forest.kinds b'.forest.kinds := by
  induction h generalizing y with
  | blank ha => exact ⟨Block.blank y, .blank (hy.all_isAsciiSpace ha), rfl, .nil⟩
  | @comment stop before text b hb ht _ ih =>
    have happ : before ++ '/' :: '*' :: text ++ ['*', '/'] ++ b.text =
        before ++ '/' :: '*' :: (text ++ '*' :: '/' :: b.text) := by simp
    rw [text_push_comment, happ] at hy
    obtain ⟨before', q, rfl, hbefore, hstar⟩ := hy.exists_of_append_cons rfl
    obtain ⟨q', rfl, hq⟩ := hstar.exists_of_cons rfl
    obtain ⟨text', rest, hcomment, htext, hrest⟩ := Scan.exists_of_comment? hq (ht b.text)
    obtain ⟨b', hb', rfl, hkinds⟩ := ih hrest fun c hc => hmasked c (List.mem_cons_of_mem _ hc)
    refine ⟨_, .comment (hbefore.all_isAsciiSpace hb) (Scan.closesAtEnd_of_comment? hcomment) hb',
      ?_, .cons (.comment htext.squeeze_eq) .nil hkinds⟩
    rw [text_push_comment, Scan.eq_append_of_comment? hcomment]
    simp
  | @statement stop before text c b hb ht hc _ ih =>
    have happ : before ++ text ++ [';'] ++ b.text = before ++ text ++ ';' :: b.text := by simp
    rw [text_push_statement hc, happ] at hy
    obtain ⟨p, q, rfl, hp, hq⟩ := hy.exists_of_append_cons rfl
    have hmasks : '\n' ∈ before → masks text = true → text.head? = some '@' :=
      Statement.head?_of_masks_body? hc (hmasked c List.mem_cons_self)
    obtain ⟨before', text', rfl, hbefore, htext⟩ := exists_restated hp hb ht hmasks
    obtain ⟨c', hc', hkind⟩ :=
      htext.body? hc { before := before', after := text'.trailingBlanks }
    obtain ⟨b', hb', rfl, hkinds⟩ := ih hq fun c hc => hmasked c (List.mem_cons_of_mem _ hc)
    have hends := htext.endsAt ht
      fun hblank => absurd hblank (Bool.eq_false_iff.mp (isBlankText_of_body? hc))
    refine ⟨_, .statement hbefore hends hc' hb', ?_, .cons hkind .nil hkinds⟩
    rw [text_push_statement hc']
    simp
  | @last stop before text c hb ht hstop hafter hc =>
    have hblank := isBlankText_of_body? hc
    rw [text_push_last hc, List.append_assoc, trimRight_append_trailingBlanks] at hy
    have hmasks : '\n' ∈ before → masks text = true → text.head? = some '@' :=
      Statement.head?_of_masks_body? hc (hmasked c List.mem_cons_self)
    obtain ⟨before', text', rfl, hbefore, htext⟩ := exists_restated hy hb ht hmasks
    obtain ⟨c', hc', hkind⟩ := htext.body? hc { before := before' }
    have hends := htext.endsAt ht fun hblank' => absurd hblank' (Bool.eq_false_iff.mp hblank)
    refine ⟨_, .last hbefore hends hstop (htext.all_trailingBlanks hblank hafter) hc', ?_,
      .cons hkind .nil .nil⟩
    rw [text_push_last hc', List.append_assoc, trimRight_append_trailingBlanks]
  | @opening stop before text inner b hb ht _ _ ihinner ih =>
    have happ : before ++ text ++ '\x7b' :: inner.text ++ '\x7d' :: b.text =
        before ++ text ++ '\x7b' :: (inner.text ++ '\x7d' :: b.text) := by simp
    rw [text_push_opening, happ] at hy
    obtain ⟨p, q, rfl, hp, hq⟩ := hy.exists_of_append_cons rfl
    obtain ⟨y₁, y₂, rfl, hy₁, hy₂⟩ := hq.exists_of_append_cons rfl
    have hmasks : '\n' ∈ before → masks text = true → text.head? = some '@' :=
      Statement.head?_of_masks_prelude
        (hmasked ((Statement.prelude before text).enclosing inner) List.mem_cons_self)
    obtain ⟨before', text', rfl, hbefore, htext⟩ := exists_restated hp hb ht hmasks
    obtain ⟨inner', hinner', rfl, hinners⟩ := ihinner hy₁ fun c hc =>
      hmasked c (List.mem_cons_of_mem _ (List.mem_append_left _ hc))
    obtain ⟨b', hb', rfl, hkinds⟩ := ih hy₂ fun c hc =>
      hmasked c (List.mem_cons_of_mem _ (List.mem_append_right _ hc))
    have hends := htext.endsAt ht fun _ => rfl
    refine ⟨_, .opening hbefore hends hinner' hb', ?_,
      .cons (htext.prelude before before') hinners hkinds⟩
    rw [text_push_opening]
    simp

end Block

/-- A statement that a backslash ends before the blanks at its end. A semicolon moved to where they
stand is escaped. -/
def Content.endsEscaped (c : Content) : Bool :=
  c.kind.needsSemicolon && (Scan.State.start.run (trimRight (c.write []))).mode = .escape

theorem Scan.State.inCode_of_fault?_eq_none {s : Scan.State} (h : s.fault? = none)
    (hmode : s.mode ≠ .escape) : s.inCode = true := by
  rcases s with ⟨d, mode⟩
  cases mode with
  | code => rfl
  | slash => rfl
  | escape => exact absurd rfl hmode
  | quoted => cases h
  | quotedEscape => cases h
  | comment => cases h
  | commentStar => cases h

theorem Event.beginsStatement_append {text rest rest' : Text} (htext : text ≠ [])
    (hstar : rest'.head? ≠ some '*') (h : beginsStatement (text ++ rest) = true) :
    beginsStatement (text ++ rest') = true := by
  match text with
  | [c] =>
    simp only [List.cons_append, List.nil_append, beginsStatement, Bool.and_eq_true,
      Bool.not_eq_true', bne_iff_ne, ne_eq, Bool.and_eq_false_iff, beq_eq_false_iff_ne] at h ⊢
    exact ⟨h.1, .inr hstar⟩
  | c :: d :: _ => exact h

/-- A semicolon moved to where blanks stood before it ends the statement unless it is escaped. -/
theorem Event.EndsAt.trimRight {text : Text} (h : EndsAt text [';'])
    (hblank : text.isBlankText = false)
    (hmode : (Scan.State.start.run (trimRight text)).mode ≠ .escape) :
    EndsAt (Text.trimRight text) [';'] := by
  have htext := trimRight_append_trailingBlanks text
  have hpasses := Scan.passes_of_statementFrom h.scan
  have hstop := Scan.stopsAt_of_statementFrom h.scan
  have hbegins := h.begins
  have hsane : (Scan.State.start.run (Text.trimRight text)).Sane :=
    Scan.State.Sane.run (s := .start) trivial _
  rw [← htext, Scan.State.run_append] at hstop
  rw [← htext, Scan.State.passes_append, Bool.and_eq_true] at hpasses
  rw [← htext, List.append_assoc] at hbegins
  obtain ⟨hfault, hdepth⟩ := Scan.State.fault?_of_stopsAt hstop
  obtain ⟨hnone, hdepth'⟩ := hsane.fault?_of_run (isBlankText_trailingBlanks text) hfault
  rw [hdepth] at hdepth'
  constructor
  · refine beginsStatement_append (fun hnil => ?_) (by simp) hbegins
    rw [hnil, List.nil_append] at htext
    rw [← htext, isBlankText_trailingBlanks] at hblank
    cases hblank
  · apply Scan.statementFrom_of_stopsAt hpasses.1
    rw [Scan.State.stopsAt, Scan.State.inCode_of_fault?_eq_none hnone hmode, hdepth']
    rfl

namespace Statement

theorem kind_prelude (before before' text : Text) :
    (prelude before text).kind = (prelude before' text).kind := by
  unfold prelude
  split <;> rfl

theorem exists_body? {raws : Raws} {text : Text} {c : Content} (h : body? raws text = some c)
    (raws' : Raws) : ∃ c', body? raws' text = some c' ∧ c'.kind = c.kind := by
  unfold body? declaration? at h ⊢
  split at h
  · cases h
    exact ⟨_, rfl, rfl⟩
  · split at h
    · cases h
    · split_ifs at h with hblank
      cases h
      simp only [if_neg hblank]
      exact ⟨_, rfl, rfl⟩

end Statement

namespace Block

/-- A legible tree, after a line break and without blanks before its semicolon, in front of a
legible block. -/
theorem LegibleTree.exists_line {c : Content} {t : Forest Content} (h : LegibleTree c t)
    (hescaped : c.endsEscaped = false) {stop : Text} {b : Block} (hb : b.Legible stop) :
    ∃ (b' : Block) (c' : Content), b'.Legible stop ∧ b'.forest = .cons c' t b.forest ∧
      c'.kind = c.kind ∧ b'.text = '\n' :: (if c.kind.needsSemicolon then
        trimRight (c.write (render c.layout t)) ++ [';'] else c.write (render c.layout t)) ++
          b.text := by
  have hnewline : (['\n'] : Text).all isAsciiSpace = true := rfl
  cases h with
  | @comment before text hbefore ht =>
    refine ⟨_, _, .comment hnewline ht hb, rfl, rfl, ?_⟩
    rw [text_push_comment]
    rfl
  | @statement before text c hbefore ht hc =>
    have hwrite : ∀ inner, c.write inner = text := fun inner => by
      rw [Statement.write_of_body? hc (trimRight_trimRight text), trimRight_append_trailingBlanks]
    have hneeds := Statement.needsSemicolon_of_body? hc
    rw [Content.endsEscaped, hneeds, hwrite, Bool.true_and, decide_eq_false_iff_not] at hescaped
    have hends := ht.trimRight (isBlankText_of_body? hc) hescaped
    rw [← trimRight_trimRight] at hc
    obtain ⟨c', hc', hkind⟩ := Statement.exists_body? hc
      { before := ['\n'], after := (trimRight text).trailingBlanks }
    refine ⟨_, c', .statement hnewline hends hc' hb, rfl, hkind, ?_⟩
    rw [text_push_statement hc', hneeds, if_pos rfl, hwrite]
    simp
  | @opening before text inner hbefore ht hinner =>
    refine ⟨_, _, .opening hnewline ht hinner hb, rfl, Statement.kind_prelude .., ?_⟩
    rw [text_push_opening, needsSemicolon_enclosing, if_neg Bool.false_ne_true,
      Statement.layout_prelude, Statement.write_prelude]
    simp [Block.text]

end Block

/-- Trees that say the same on indented lines of their own. -/
structure Forest.Indentable (f : Forest Content) : Prop where
  unescaped : ∀ c ∈ f.roots, c.endsEscaped = false
  unmasked : ∀ c ∈ f.roots, c.kind.isMasked = false
  unmaskedInner : ∀ c ∈ f.inner, '\n' ∈ c.raws.before → c.kind.isMasked = false

instance (f : Forest Content) : Decidable f.Indentable :=
  decidable_of_iff
    ((∀ c ∈ f.roots, c.endsEscaped = false) ∧ (∀ c ∈ f.roots, c.kind.isMasked = false) ∧
      ∀ c ∈ f.inner, '\n' ∈ c.raws.before → c.kind.isMasked = false)
    ⟨fun h => ⟨h.1, h.2.1, h.2.2⟩, fun h => ⟨h.unescaped, h.unmasked, h.unmaskedInner⟩⟩

theorem Forest.Indentable.of_cons {c : Content} {t rest : Forest Content}
    (h : Indentable (.cons c t rest)) : rest.Indentable where
  unescaped := fun c hc => h.unescaped c (List.mem_cons_of_mem _ hc)
  unmasked := fun c hc => h.unmasked c (List.mem_cons_of_mem _ hc)
  unmaskedInner := fun c hc => h.unmaskedInner c (List.mem_append_right _ hc)

namespace Block

/-- Legible trees on lines of their own, before they are indented. -/
theorem exists_lines {f : Forest Content} (h : f.OfLegible) (hindentable : f.Indentable) :
    ∃ b : Block, b.Legible ['\x7d'] ∧ b.forest.kinds = f.kinds ∧
      Respaced b.text (render .lines f ++ ['\n']) ∧ b.text.head? = some '\n' ∧
      ∀ c ∈ b.forest.preorder, '\n' ∈ c.raws.before → c.kind.isMasked = false := by
  induction f with
  | nil => exact ⟨blank ['\n'], .blank rfl, rfl, .refl ['\n'], rfl, nofun⟩
  | cons c t rest _ ih =>
    obtain ⟨b, hb, hkinds, htext, hline, hmasked⟩ := ih h.2 hindentable.of_cons
    obtain ⟨b', c', hb', hforest, hkind, htext'⟩ :=
      h.1.exists_line (hindentable.unescaped c List.mem_cons_self) hb
    refine ⟨b', hb', ?_, ?_, ?_, ?_⟩
    · rw [hforest, Forest.kinds, Forest.map, hkind, ← Forest.kinds, ← Forest.kinds, hkinds]
      rfl
    · rw [htext', render, Content.writeLine, List.append_assoc]
      exact respaced_indent htext hline _
    · rw [htext']
      rfl
    · rw [hforest, Forest.preorder, List.forall_mem_cons, List.forall_mem_append, hkind]
      refine ⟨fun _ => hindentable.unmasked c List.mem_cons_self, fun d hd => ?_, hmasked⟩
      exact hindentable.unmaskedInner d (List.mem_append_left _ hd)

/-- Legible trees on indented lines of their own make up a legible block with the same nodes. -/
theorem exists_indented {f : Forest Content} (h : f.OfLegible) (hindentable : f.Indentable) :
    ∃ b : Block, b.Legible ['\x7d'] ∧ b.text = render .lines f ++ ['\n'] ∧
      Forest.Forall₂ Kind.Respaced f.kinds b.forest.kinds := by
  obtain ⟨b, hb, hkinds, htext, -, hmasked⟩ := exists_lines h hindentable
  rw [← hkinds]
  exact hb.exists_respaced htext hmasked

end Block
end UtilityCss
