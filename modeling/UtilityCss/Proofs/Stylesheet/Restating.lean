import UtilityCss.Proofs.Text.Cutting
import UtilityCss.Proofs.Text.Respacing
import UtilityCss.Proofs.Stylesheet.Reading

/-!
# Statements with other blanks

A statement says the same with other blanks after its line breaks: it ends at the same character and
has the same kind of content. The exception is a statement whose first blanks are not ASCII spaces.
If they keep it from being an at-rule or a comment, it may become one without them.
-/
namespace UtilityCss

open Text Event

def Kind.squeezed : Kind → Kind
  | root => root
  | atRule r => atRule ⟨squeeze r.name, squeeze r.params, r.hasBlock⟩
  | rule selector => rule (squeeze selector)
  | declaration property value important =>
    declaration (squeeze property) (squeeze value) important
  | comment text => comment (squeeze text)

/-- The kinds say the same with other blanks, and in values only after line breaks. -/
inductive Kind.Respaced : Kind → Kind → Prop
  | root : Respaced .root .root
  | atRule {name params params' : Text} (hasBlock : Bool) (h : squeeze params = squeeze params') :
      Respaced (.atRule ⟨name, params, hasBlock⟩) (.atRule ⟨name, params', hasBlock⟩)
  | rule {selector selector' : Text} (h : squeeze selector = squeeze selector') :
      Respaced (.rule selector) (.rule selector')
  | declaration {property property' value value' : Text} (important : Bool)
      (hproperty : squeeze property = squeeze property') (hvalue : Text.Respaced value value') :
      Respaced (.declaration property value important) (.declaration property' value' important)
  | comment {text text' : Text} (h : squeeze text = squeeze text') :
      Respaced (.comment text) (.comment text')

theorem Kind.Respaced.refl (k : Kind) : k.Respaced k := by
  cases k with
  | root => exact .root
  | atRule r => exact .atRule r.hasBlock rfl
  | rule => exact .rule rfl
  | declaration _ value important => exact .declaration important rfl (.refl value)
  | comment => exact .comment rfl

theorem Kind.Respaced.squeezed_eq {k k' : Kind} (h : k.Respaced k') : k.squeezed = k'.squeezed := by
  cases h with
  | root => rfl
  | atRule _ h => rw [squeezed, squeezed, h]
  | rule h => rw [squeezed, squeezed, h]
  | declaration _ hproperty hvalue => rw [squeezed, squeezed, hproperty, hvalue.squeeze_eq]
  | comment h => rw [squeezed, squeezed, h]

def startsMarked (t : Text) : Bool :=
  t.head? = some '@' || (t.head? = some '/' && t.tail.head? = some '*')

/-- Whether a text begins like an at-rule or a comment after its blanks, and with ASCII spaces only
on the line of that mark. -/
def masks (t : Text) : Bool := startsMarked (trimLeft t) && endsPlain (leadingBlanks t)

/-- A rule or a declaration that only the lines of blanks before it keep from being something
else. -/
def Kind.isMasked : Kind → Bool
  | rule selector => masks selector
  | declaration property _ _ => masks property
  | _ => false

theorem exists_cons_of_startsMarked {t : Text} (h : startsMarked t = true) :
    ∃ c q, t = c :: q ∧ isBlank c = false := by
  cases t with
  | nil => cases h
  | cons c q =>
    refine ⟨c, q, rfl, ?_⟩
    simp only [startsMarked, List.head?_cons, Bool.or_eq_true, Bool.and_eq_true,
      decide_eq_true_eq, Option.some.injEq] at h
    rcases h with rfl | ⟨rfl, -⟩ <;> rfl

theorem startsMarked_append {v w : Text} (hv : v ≠ []) (hw : w.head? ≠ some '*') :
    startsMarked (v ++ w) = startsMarked v := by
  match v with
  | [c] => simp [startsMarked, hw]
  | c :: d :: v => simp [startsMarked]

theorem masks_append {v w : Text} (hv : v.isBlankText = false) (hw : w.head? ≠ some '*') :
    masks (v ++ w) = masks v := by
  rw [masks, masks, trimLeft_append, hv, if_neg Bool.false_ne_true, leadingBlanks_append hv]
  congr 1
  refine startsMarked_append (fun hnil => ?_) hw
  rw [trimLeft_eq_nil_iff.mp hnil] at hv
  cases hv

theorem masks_of_isBlankText {t : Text} (h : t.isBlankText = true) : masks t = false := by
  rw [masks, trimLeft_eq_nil_iff.mpr h]
  rfl

theorem masks_trimRight (t : Text) : masks (trimRight t) = masks t := by
  have happ := trimRight_append_trailingBlanks t
  have htrailing := isBlankText_trailingBlanks t
  cases hblank : (trimRight t).isBlankText with
  | true =>
    have ht : t.isBlankText = true := by rw [← happ, isBlankText_append, hblank, htrailing]; rfl
    rw [masks_of_isBlankText hblank, masks_of_isBlankText ht]
  | false =>
    conv_rhs => rw [← happ]
    refine (masks_append hblank fun hstar => ?_).symm
    have hmem := List.mem_of_mem_head? hstar
    have hstar : isBlank '*' = true := List.all_eq_true.mp htrailing '*' hmem
    cases hstar

theorem Text.Respaced.startsMarked {v v' : Text} (h : Respaced v v')
    (hmarked : startsMarked v' = true) : startsMarked v = true := by
  unfold UtilityCss.startsMarked at hmarked ⊢
  simp only [Bool.or_eq_true, Bool.and_eq_true, decide_eq_true_eq] at hmarked ⊢
  rcases hmarked with hat | ⟨hslash, hstar⟩
  · obtain ⟨q', rfl⟩ := List.head?_eq_some_iff.mp hat
    obtain ⟨q, rfl, -⟩ := h.exists_of_eq_cons rfl
    exact .inl rfl
  · obtain ⟨q', rfl⟩ := List.head?_eq_some_iff.mp hslash
    obtain ⟨q, rfl, hq⟩ := h.exists_of_eq_cons rfl
    obtain ⟨r', hr'⟩ := List.head?_eq_some_iff.mp hstar
    rw [List.tail_cons] at hr'
    subst hr'
    obtain ⟨r, rfl, -⟩ := hq.exists_of_eq_cons rfl
    exact .inr ⟨rfl, rfl⟩

namespace Scan

theorem State.Sane.run_newline {s : State} (h : s.Sane) {u : Text} (hu : u.isBlankText = true) :
    (s.step '\n').run u = s.step '\n' := by
  induction u with
  | nil => rfl
  | cons c u ih =>
    simp only [isBlankText, List.all_cons, Bool.and_eq_true] at hu
    rw [State.run_cons, h.step_step rfl hu.1, ih hu.2]

/-- Other blanks after line breaks end nothing and open nothing. -/
theorem State.Sane.run_respaced {s : State} (h : s.Sane) {t t' : Text} (ht : Respaced t t') :
    s.run t' = s.run t ∧ s.passes t' = s.passes t := by
  induction ht generalizing s with
  | nil => exact ⟨rfl, rfl⟩
  | cons c _ ih =>
    obtain ⟨hrun, hpasses⟩ := ih (h.step c)
    simp only [State.run_cons, State.passes, hrun, hpasses]
    trivial
  | line hu hu' _ _ _ ih =>
    obtain ⟨hrun, hpasses⟩ := ih (h.step '\n')
    simp only [State.run_cons, State.passes, State.run_append, State.passes_append,
      h.run_newline hu, h.run_newline hu', State.passes_of_isBlankText _ hu,
      State.passes_of_isBlankText _ hu', hrun, hpasses]
    trivial

theorem comment?_append {u : Text} (hu : u.isBlankText = true) (t : Text) :
    comment? (u ++ t) = (comment? t).map fun p => (u ++ p.1, p.2) := by
  induction u with
  | nil => simp
  | cons c u ih =>
    simp only [isBlankText, List.all_cons, Bool.and_eq_true] at hu
    have hstar : c ≠ '*' := ne_of_isBlank hu.1 rfl
    rw [List.cons_append, comment?, if_neg fun h => hstar h.1, ih hu.2, Option.map_map]
    rfl

theorem exists_of_comment? {x x' text rest : Text} (h : Respaced x x')
    (hx : comment? x = some (text, rest)) :
    ∃ text' rest', comment? x' = some (text', rest') ∧ Respaced text text' ∧
      Respaced rest rest' := by
  induction h generalizing text with
  | nil => cases hx
  | @cons c t t' h ih =>
    rw [comment?] at hx
    split_ifs at hx with hclose
    · cases hx
      obtain ⟨rfl, hslash⟩ := hclose
      obtain ⟨q, rfl⟩ := List.head?_eq_some_iff.mp hslash
      obtain ⟨q', rfl, hq⟩ := h.exists_of_cons rfl
      exact ⟨[], q', rfl, .nil, hq⟩
    · obtain ⟨⟨text₀, rest₀⟩, hcomment, heq⟩ := Option.map_eq_some_iff.mp hx
      cases heq
      obtain ⟨text', rest', hcomment', htext, hrest⟩ := ih hcomment
      have hclose' : ¬(c = '*' ∧ t'.head? = some '/') := by
        rintro ⟨rfl, hslash⟩
        obtain ⟨q', rfl⟩ := List.head?_eq_some_iff.mp hslash
        obtain ⟨q, rfl, -⟩ := h.exists_of_eq_cons rfl
        exact hclose ⟨rfl, rfl⟩
      refine ⟨c :: text', rest', ?_, .cons c htext, hrest⟩
      rw [comment?, if_neg hclose', hcomment']
      rfl
  | @line u u' t t' hu hu' hascii hplain _ ih =>
    have hnewline : ∀ v w : Text, v.isBlankText = true →
        comment? ('\n' :: (v ++ w)) = (comment? w).map fun p => ('\n' :: (v ++ p.1), p.2) := by
      intro v w hv
      exact comment?_append (u := '\n' :: v) hv w
    rw [hnewline u t hu] at hx
    obtain ⟨⟨text₀, rest₀⟩, hcomment, heq⟩ := Option.map_eq_some_iff.mp hx
    cases heq
    obtain ⟨text', rest', hcomment', htext, hrest⟩ := ih hcomment
    have hplain' : u'.endsPlain = true → u.endsPlain = true ∨ text₀.head? = some '\n' :=
      fun hu' => (hplain hu').imp_right fun hline =>
        head?_of_append_cons rfl rfl (by rwa [← eq_append_of_comment? hcomment])
    refine ⟨'\n' :: (u' ++ text'), rest', ?_, htext.line hu hu' hascii hplain', hrest⟩
    rw [hnewline u' t' hu', hcomment']
    rfl

end Scan

/-- The second statement is the first with other blanks. It begins with no ASCII space, and like an
at-rule or a comment only if the first is an at-rule. -/
structure Restated (text text' : Text) : Prop where
  respaced : Respaced ('\n' :: text) ('\n' :: text')
  head : ∀ c ∈ text'.head?, isAsciiSpace c = false
  marked : startsMarked text' = true → text.head? = some '@'

theorem dropWhile_isAsciiSpace (t : Text) :
    t.dropWhile isAsciiSpace = (leadingBlanks t).dropWhile isAsciiSpace ++ trimLeft t := by
  conv_lhs => rw [← leadingBlanks_append_trimLeft t]
  cases hrest : trimLeft t with
  | nil => rw [List.append_nil, List.append_nil]
  | cons c q =>
    have hc : isAsciiSpace c = false := by
      rw [Bool.eq_false_iff]
      intro hspace
      have hblank := isBlank_of_trimLeft_eq_cons hrest
      rw [isBlank_of_isAsciiSpace hspace] at hblank
      cases hblank
    exact dropWhile_append_cons hc q

theorem all_dropWhile {p : Char → Bool} (t : Text) : (t.dropWhile p).all p = t.all p := by
  conv_rhs => rw [← List.takeWhile_append_dropWhile (p := p) (l := t), List.all_append,
    List.all_takeWhile, Bool.true_and]

/-- A mark that shows stood behind ASCII spaces on its line. -/
theorem masks_of_respaced {text text' : Text} (h : Respaced ('\n' :: text) ('\n' :: text'))
    (hmarked : startsMarked text' = true) : masks text = true := by
  obtain ⟨c, q, rfl, hc⟩ := exists_cons_of_startsMarked hmarked
  obtain ⟨hleading, htrim⟩ := h.leading
  rw [leadingBlanks_newline, leadingBlanks_newline, ← List.nil_append (c :: q),
    leadingBlanks_append_cons rfl hc] at hleading
  have htrim' : Respaced (trimLeft text) (c :: q) := by
    rw [← List.singleton_append (l := c :: q), trimLeft_append_cons rfl hc] at htrim
    exact htrim
  have hplain := hleading.endsPlain rfl
  rw [endsPlain, Bool.and_eq_true] at hplain
  rw [masks, htrim'.startsMarked hmarked, hplain.1]
  rfl

theorem endsPlain_dropWhile (t : Text) : endsPlain (t.dropWhile isAsciiSpace) = endsPlain t := by
  induction t with
  | nil => rfl
  | cons c t ih =>
    rw [List.dropWhile_cons]
    split_ifs with hc
    · rw [ih, endsPlain, hc, Bool.true_or, Bool.and_true]
    · rfl

theorem Event.EndsAt.head {text stop : Text} (h : EndsAt text stop) :
    ∀ c ∈ text.head?, isAsciiSpace c = false := by
  intro c hc
  obtain ⟨q, rfl⟩ := List.head?_eq_some_iff.mp hc
  exact head_of_beginsStatement h.begins c rfl

theorem Event.EndsAt.head?_of_startsMarked {text stop : Text} (h : EndsAt text stop)
    (hmarked : startsMarked text = true) : text.head? = some '@' := by
  have hbegins := h.begins
  simp only [startsMarked, Bool.or_eq_true, Bool.and_eq_true, decide_eq_true_eq] at hmarked
  rcases hmarked with hat | ⟨hslash, hstar⟩
  · exact hat
  · obtain ⟨q, rfl⟩ := List.head?_eq_some_iff.mp hslash
    obtain ⟨r, hr⟩ := List.head?_eq_some_iff.mp hstar
    rw [List.tail_cons] at hr
    subst hr
    cases hbegins

/-- Where spaces and a statement are written with other blanks, so is the statement. -/
theorem exists_restated {before text stop y : Text} (h : Respaced (before ++ text) y)
    (hbefore : before.all isAsciiSpace = true) (ht : EndsAt text stop)
    (hmasks : '\n' ∈ before → masks text = true → text.head? = some '@') :
    ∃ before' text', y = before' ++ text' ∧ before'.all isAsciiSpace = true ∧
      Restated text text' := by
  have hhead := ht.head
  have htext := dropWhile_asciiSpace_append hbefore hhead
  obtain ⟨hleading, hrest⟩ := h.leading
  have hblank : ∀ t : Text, isBlankText ((leadingBlanks t).dropWhile isAsciiSpace) = true :=
    fun t => List.all_eq_true.mpr fun c hc => List.all_eq_true.mp (isBlankText_leadingBlanks t) c
      ((List.dropWhile_sublist _).subset hc)
  have hrespaced : Respaced ('\n' :: text) ('\n' :: y.dropWhile isAsciiSpace) := by
    rw [← htext, dropWhile_isAsciiSpace, dropWhile_isAsciiSpace y]
    refine hrest.line (hblank _) (hblank _) (fun hall => ?_) fun hplain => .inl ?_
    · rw [all_dropWhile] at hall ⊢
      exact hleading.all_isAsciiSpace hall
    · rw [endsPlain_dropWhile] at hplain ⊢
      exact hleading.endsPlain hplain
  refine ⟨y.takeWhile isAsciiSpace, y.dropWhile isAsciiSpace,
    List.takeWhile_append_dropWhile.symm, List.all_takeWhile, hrespaced, ?_, ?_⟩
  · intro c hc
    have hnot := List.head?_dropWhile_not isAsciiSpace y
    rw [hc] at hnot
    simpa using hnot
  · intro hmarked
    by_cases hline : '\n' ∈ before
    · exact hmasks hline (masks_of_respaced hrespaced hmarked)
    · obtain ⟨text', rfl, htext'⟩ := h.exists_of_append hline
      have hhead' : ∀ c ∈ text'.head?, isAsciiSpace c = false := by
        cases htext' with
        | nil => exact hhead
        | cons => exact hhead
        | line => exact hhead
      rw [dropWhile_asciiSpace_append hbefore hhead'] at hmarked
      exact ht.head?_of_startsMarked (htext'.startsMarked hmarked)

namespace Restated

variable {text text' : Text}

theorem squeeze_eq (h : Restated text text') : squeeze text = squeeze text' := h.respaced.squeeze_eq

theorem isBlankText_eq (h : Restated text text') : text'.isBlankText = text.isBlankText := by
  rw [Bool.eq_iff_iff, ← squeeze_eq_nil_iff, ← squeeze_eq_nil_iff, h.squeeze_eq]

theorem trimLeft (h : Restated text text') : Respaced (trimLeft text) (trimLeft text') :=
  h.respaced.leading.2

theorem run (h : Restated text text') :
    Scan.State.start.run text' = Scan.State.start.run text ∧
      Scan.State.start.passes text' = Scan.State.start.passes text := by
  have hrun := Scan.State.Sane.run_respaced (s := .start) trivial h.respaced
  exact hrun

/-- A statement that begins without a blank still does. -/
theorem exists_of_cons {c : Char} {q : Text} (h : Restated (c :: q) text')
    (hc : isBlank c = false) : ∃ q', text' = c :: q' ∧ Respaced q q' := by
  have hleading := h.respaced.leading.1
  rw [leadingBlanks_newline, leadingBlanks_newline, ← List.nil_append (c :: q),
    leadingBlanks_append_cons rfl hc] at hleading
  have hascii : (leadingBlanks text').all isAsciiSpace = true := by
    have hall := hleading.all_isAsciiSpace rfl
    rwa [List.all_cons] at hall
  have hnone : leadingBlanks text' = [] := by
    cases htext : text' with
    | nil => rfl
    | cons d q' =>
      have hd := h.head d (by rw [htext]; rfl)
      cases hblank : isBlank d with
      | false => simp [leadingBlanks, hblank]
      | true =>
        rw [htext, leadingBlanks, List.takeWhile_cons_of_pos hblank, List.all_cons, hd] at hascii
        cases hascii
  have htrim := h.trimLeft
  have htext := leadingBlanks_append_trimLeft text'
  rw [hnone, List.nil_append] at htext
  rw [htext, ← List.nil_append (c :: q), trimLeft_append_cons rfl hc] at htrim
  exact htrim.exists_of_cons hc

theorem all_trailingBlanks (h : Restated text text') (hblank : text.isBlankText = false)
    (hall : text.trailingBlanks.all isAsciiSpace = true) :
    text'.trailingBlanks.all isAsciiSpace = true := by
  have htrailing := h.respaced.trailing.2
  have hblank' := h.isBlankText_eq.trans hblank
  rw [(trailing_newline hblank).2, (trailing_newline hblank').2] at htrailing
  exact htrailing.all_isAsciiSpace hall

theorem head?_eq_at_iff (h : Restated text text') :
    text.head? = some '@' ↔ text'.head? = some '@' := by
  constructor
  · intro hat
    obtain ⟨q, rfl⟩ := List.head?_eq_some_iff.mp hat
    obtain ⟨q', rfl, -⟩ := h.exists_of_cons rfl
    rfl
  · intro hat
    obtain ⟨q', rfl⟩ := List.head?_eq_some_iff.mp hat
    exact h.marked rfl

theorem ne_comment (h : Restated text text') (q : Text) : text' ≠ '/' :: '*' :: q := by
  rintro rfl
  obtain ⟨q, rfl⟩ := List.head?_eq_some_iff.mp (h.marked rfl)
  obtain ⟨q', heq, -⟩ := h.exists_of_cons rfl
  cases heq

theorem endsAt (h : Restated text text') {stop : Text} (ht : EndsAt text stop)
    (hblank : text.isBlankText = true → beginsStatement stop = true) : EndsAt text' stop := by
  obtain ⟨hrun, hpasses⟩ := h.run
  rw [Scan.passes_of_statementFrom ht.scan] at hpasses
  have hstar : stop.head? ≠ some '*' := by
    cases stop with
    | nil => exact nofun
    | cons c stop =>
      intro heq
      cases heq
      cases Scan.isTerminator_of_statement ht.scan
  constructor
  · cases htext : text' with
    | nil => exact hblank (h.isBlankText_eq.symm.trans (by rw [htext]; rfl))
    | cons c q =>
      have hpass : Scan.isTerminator c = false := by
        rw [htext, Scan.State.passes, Bool.and_eq_true, Bool.not_eq_true'] at hpasses
        simpa [Scan.State.stopsAt, Scan.State.start, Scan.State.inCode] using hpasses.1
      simp only [Scan.isTerminator, Bool.or_eq_false_iff, decide_eq_false_iff_not] at hpass
      refine beginsStatement_of_ne (h.head c (by rw [htext]; rfl)) hpass.2 hpass.1.1 ?_
      rintro rfl hhead
      cases q with
      | nil => exact hstar hhead
      | cons d q =>
        cases hhead
        exact h.ne_comment q htext
  · cases stop with
    | nil =>
      rw [List.append_nil]
      apply Scan.statementFrom_of_fault?_eq_none hpasses
      rw [hrun]
      exact Scan.fault?_of_statementFrom ht.scan
    | cons c stop =>
      apply Scan.statementFrom_of_stopsAt hpasses
      rw [hrun]
      exact Scan.stopsAt_of_statementFrom ht.scan

end Restated

namespace Statement

theorem kind_atRule_respaced {rest rest' : Text} (h : Respaced rest rest') (raws raws' : Raws)
    (hasBlock : Bool) :
    (atRule raws hasBlock rest).kind.Respaced (atRule raws' hasBlock rest').kind := by
  have hends : ∀ c, isBlank c = true → (!endsName c) = false := by
    intro c hc
    simp [endsName, hc]
  obtain ⟨hname, hrest⟩ := h.takeWhile_dropWhile hends
  have hparams : squeeze (trimLeft (rest.dropWhile (!endsName ·))) =
      squeeze (trimLeft (rest'.dropWhile (!endsName ·))) := by
    rw [squeeze_trimLeft, squeeze_trimLeft, hrest.squeeze_eq]
  simp only [atRule, hname]
  exact .atRule hasBlock hparams

theorem isImportant_eq {mark mark' : Text} (h : Respaced mark mark') :
    isImportant mark' = isImportant mark := by
  have hline : ∀ t : Text, t.map Char.toLower = "important".toList → '\n' ∉ t := by
    intro t ht hmem
    have hlower : Char.toLower '\n' ∈ "important".toList :=
      ht ▸ List.mem_map_of_mem (f := Char.toLower) hmem
    revert hlower
    decide
  unfold isImportant
  rw [decide_eq_decide]
  constructor
  · intro hmark
    have hmem : '\n' ∉ mark.trim := fun hmem => hline _ hmark (h.trim.newline_mem_iff.mp hmem)
    rwa [h.trim.eq_of_notMem hmem] at hmark
  · intro hmark
    rwa [h.trim.eq_of_notMem (hline _ hmark)]

/-- A value with other blanks is important if it was. -/
theorem splitImportant_respaced {value value' : Text} (h : Respaced value value') :
    Respaced (splitImportant value).1 (splitImportant value').1 ∧
      (splitImportant value').2.isEmpty = (splitImportant value).2.isEmpty := by
  unfold splitImportant
  cases hsplit : value.splitLast? '!' with
  | none =>
    have hnone : value'.splitLast? '!' = none :=
      splitLast?_eq_none_iff.mpr fun hmem =>
        splitLast?_eq_none_iff.mp hsplit ((h.mem_iff rfl).mpr hmem)
    rw [hnone]
    exact ⟨h, rfl⟩
  | some p =>
    obtain ⟨head, mark⟩ := p
    have hmark := notMem_of_splitLast? hsplit
    have happ := eq_append_of_splitLast? hsplit
    subst happ
    obtain ⟨head', mark', rfl, hhead, hmarks⟩ := h.exists_of_append_cons rfl
    have hmark' : '!' ∉ mark' := fun hmem => hmark ((hmarks.mem_iff rfl).mpr hmem)
    rw [splitLast?_append_cons head' hmark']
    simp only [isImportant_eq hmarks]
    split_ifs
    · have hnonempty : ∀ a b : Text, (a ++ '!' :: b).isEmpty = false := by
        intro a b
        cases a <;> rfl
      exact ⟨hhead.trailing.1, by rw [hnonempty, hnonempty]⟩
    · exact ⟨h, rfl⟩

theorem kind_declaration_respaced {property property' rest rest' : Text}
    (hproperty : squeeze property = squeeze property') (hrest : Respaced rest rest')
    (raws raws' : Raws) :
    (declaration raws property rest).kind.Respaced (declaration raws' property' rest').kind := by
  obtain ⟨hvalue, himportant⟩ := splitImportant_respaced hrest.leading.2
  rw [← squeeze_trimRight, ← squeeze_trimRight property'] at hproperty
  simp only [declaration, himportant]
  exact .declaration _ hproperty hvalue

theorem head?_of_trimRight {t q : Text} {c : Char} (h : trimRight t = c :: q) :
    t.head? = some c := by
  have happ := trimRight_append_trailingBlanks t
  rw [h] at happ
  rw [← happ]
  rfl

theorem prelude_of_head?_ne {before text : Text} (h : text.head? ≠ some '@') :
    prelude before text =
      ⟨.rule text.trimRight, { before := before, between := text.trailingBlanks }⟩ := by
  unfold prelude
  split
  · rename_i rest heq
    exact absurd (head?_of_trimRight heq) h
  · rfl

theorem prelude_of_at (before q : Text) :
    (prelude before ('@' :: q)).kind = (atRule {} true q.trimRight).kind := by
  rw [prelude, trimRight_cons rfl]
  rfl

theorem body?_of_head?_ne {raws : Raws} {text : Text} (h : text.head? ≠ some '@') :
    body? raws text.trimRight = declaration? raws text.trimRight := by
  unfold body?
  split
  · rename_i rest heq
    exact absurd (head?_of_trimRight heq) h
  · rfl

/-- Behind a line break, a mark after the first blanks is that of an at-rule. -/
theorem head?_of_masks_prelude {before text : Text}
    (hmasked : '\n' ∈ (prelude before text).raws.before →
      (prelude before text).kind.isMasked = false)
    (hline : '\n' ∈ before) (hmasks : masks text = true) : text.head? = some '@' := by
  have h := hmasked (by rwa [before_prelude])
  by_contra hhead
  rw [prelude_of_head?_ne hhead, Kind.isMasked, masks_trimRight, hmasks] at h
  cases h

theorem head?_of_masks_body? {raws : Raws} {text : Text} {c : Content}
    (hc : body? raws text.trimRight = some c)
    (hmasked : '\n' ∈ c.raws.before → c.kind.isMasked = false)
    (hline : '\n' ∈ raws.before) (hmasks : masks text = true) : text.head? = some '@' := by
  have h := hmasked (by rwa [before_of_body? hc])
  by_contra hhead
  rw [body?_of_head?_ne hhead] at hc
  unfold declaration? at hc
  split at hc
  · cases hc
  · rename_i property rest heq
    split_ifs at hc with hblank
    cases hc
    rw [declaration, Kind.isMasked, masks_trimRight] at h
    rw [← masks_trimRight, eq_append_of_splitFirst? heq,
      masks_append (Bool.eq_false_iff.mpr hblank) (by simp), h] at hmasks
    cases hmasks

theorem declaration?_restated {text text' : Text} (h : Restated text text') {raws : Raws}
    {c : Content} (hc : declaration? raws text.trimRight = some c) (raws' : Raws) :
    ∃ c', declaration? raws' text'.trimRight = some c' ∧ c.kind.Respaced c'.kind := by
  unfold declaration? at hc
  split at hc
  · cases hc
  · rename_i property rest hsplit
    split_ifs at hc with hblank
    cases hc
    have happ := eq_append_of_splitFirst? hsplit
    have htext : text.isBlankText = false := by
      rw [Bool.eq_false_iff]
      intro htext
      rw [trimRight_of_isBlankText htext] at hsplit
      cases hsplit
    have hrespaced := h.respaced.trailing.1
    have htext' := h.isBlankText_eq.trans htext
    rw [(trailing_newline htext).1, (trailing_newline htext').1, happ,
      ← List.cons_append] at hrespaced
    obtain ⟨p', rest', heq, hp, hrest⟩ := hrespaced.exists_of_append_cons rfl
    -- The line break put before the statement is put before its property.
    obtain ⟨property', rfl⟩ : ∃ property' : Text, p' = '\n' :: property' := by
      cases hp with
      | cons _ _ => exact ⟨_, rfl⟩
      | line => exact ⟨_, rfl⟩
    rw [List.cons_append, List.cons.injEq] at heq
    have hsqueeze : squeeze property = squeeze property' := hp.squeeze_eq
    have hmark : ':' ∉ property' := by
      rw [← mem_squeeze_iff rfl, ← hsqueeze, mem_squeeze_iff rfl]
      exact notMem_of_splitFirst? hsplit
    have hblank' : ¬property'.isBlankText = true := by
      rwa [← squeeze_eq_nil_iff, ← hsqueeze, squeeze_eq_nil_iff]
    refine ⟨declaration raws' property' rest', ?_, kind_declaration_respaced hsqueeze hrest _ _⟩
    rw [declaration?, heq.2, splitFirst?_append_cons hmark]
    simp only [if_neg hblank']

end Statement

namespace Restated

variable {text text' : Text}

theorem prelude (h : Restated text text') (before before' : Text) :
    (Statement.prelude before text).kind.Respaced (Statement.prelude before' text').kind := by
  have hat := h.head?_eq_at_iff
  by_cases hhead : text.head? = some '@'
  · obtain ⟨q, rfl⟩ := List.head?_eq_some_iff.mp hhead
    obtain ⟨q', rfl, hq⟩ := h.exists_of_cons rfl
    rw [Statement.prelude_of_at, Statement.prelude_of_at]
    exact Statement.kind_atRule_respaced hq.trailing.1 _ _ true
  · rw [Statement.prelude_of_head?_ne hhead, Statement.prelude_of_head?_ne (mt hat.mpr hhead)]
    refine .rule ?_
    rw [squeeze_trimRight, squeeze_trimRight, h.squeeze_eq]

theorem body? (h : Restated text text') {raws : Raws} {c : Content}
    (hc : Statement.body? raws text.trimRight = some c) (raws' : Raws) :
    ∃ c', Statement.body? raws' text'.trimRight = some c' ∧ c.kind.Respaced c'.kind := by
  have hat := h.head?_eq_at_iff
  by_cases hhead : text.head? = some '@'
  · obtain ⟨q, rfl⟩ := List.head?_eq_some_iff.mp hhead
    obtain ⟨q', rfl, hq⟩ := h.exists_of_cons rfl
    rw [trimRight_cons rfl] at hc ⊢
    cases hc
    exact ⟨_, rfl, Statement.kind_atRule_respaced hq.trailing.1 _ _ false⟩
  · rw [Statement.body?_of_head?_ne hhead] at hc
    rw [Statement.body?_of_head?_ne (mt hat.mpr hhead)]
    exact Statement.declaration?_restated h hc raws'

end Restated
end UtilityCss
