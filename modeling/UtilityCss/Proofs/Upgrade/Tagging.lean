import UtilityCss.Proofs.Text.Cutting
import UtilityCss.Proofs.Stylesheet.Lines
import UtilityCss.Proofs.Stylesheet.Restating
import UtilityCss.Proofs.Upgrade.Changes

/-!
# Imports that were told their layer

The text of a tagged import reads as an import again, which has no need of another tag. Only the
blanks between the name and the parameters may be divided in another way.
-/
namespace UtilityCss

open Text Event

namespace Layer

theorem notMem_path (layer : Layer) {before after : Char} (hbefore : before ∈ quotes)
    (hafter : after ∈ quotes) :
    ' ' ∉ before :: "tailwindcss/".toList ++ layer.name ++ [after] := by
  have hquote : ∀ c ∈ quotes, ' ' ≠ c := by simp [quotes]
  have hpath : ' ' ∉ "tailwindcss/".toList := by decide
  have hname : ' ' ∉ layer.name := by cases layer <;> decide
  intro h
  rw [List.mem_append, List.mem_append, List.mem_cons, List.mem_singleton] at h
  rcases h with ((h | h) | h) | h
  · exact hquote before hbefore h
  · exact hpath h
  · exact hname h
  · exact hquote after hafter h

theorem isImportedBy_of_append {layer : Layer} {params rest : Text}
    (h : layer.isImportedBy (params ++ ' ' :: rest) = true) : layer.isImportedBy params = true := by
  simp only [isImportedBy, List.any_eq_true, List.isPrefixOf_iff_prefix] at h ⊢
  obtain ⟨before, hbefore, after, hafter, hprefix⟩ := h
  have hspace := layer.notMem_path hbefore hafter
  exact ⟨before, hbefore, after, hafter, isPrefix_of_append_cons hprefix hspace⟩

theorem ofImport?_append {params : Text} (h : ofImport? params = none) (rest : Text) :
    ofImport? (params ++ ' ' :: rest) = none := by
  rw [ofImport?, List.find?_eq_none] at h ⊢
  intro layer hlayer himported
  exact h layer hlayer (isImportedBy_of_append himported)

end Layer

namespace Change

def tagWord (layer : Option Layer) : Text :=
  "layer(".toList ++ (layer.map Layer.name).getD [] ++ [')']

theorem tagText_eq (layer : Option Layer) : tagText layer = ' ' :: tagWord layer := rfl

theorem trimLeft_tagText (layer : Option Layer) : trimLeft (tagText layer) = tagWord layer := by
  rcases layer with _ | _ | _ | _ <;> rfl

theorem ofImport?_tagWord (layer : Option Layer) : Layer.ofImport? (tagWord layer) = none := by
  rcases layer with _ | _ | _ | _ <;> decide

theorem hasInfix_tagWord (layer : Option Layer) :
    (tagWord layer).hasInfix "layer(".toList = true := by
  rcases layer with _ | _ | _ | _ <;> decide

theorem hasInfix_append_tagText (params : Text) (layer : Option Layer) :
    (params ++ tagText layer).hasInfix "layer(".toList = true := by
  rw [tagText_eq, ← List.singleton_append, ← List.append_assoc]
  exact Text.hasInfix_append (hasInfix_tagWord layer) _

theorem all_tagText (layer : Option Layer) :
    (tagText layer).all (!Scan.isTerminator ·) = true := by
  rcases layer with _ | _ | _ | _ <;> decide

theorem trimRight_append_tagText (t : Text) (layer : Option Layer) :
    trimRight (t ++ tagText layer) = t ++ tagText layer := by
  obtain ⟨front, hfront⟩ : ∃ front, tagText layer = front ++ [')'] := ⟨_, rfl⟩
  rw [hfront, ← List.append_assoc]
  exact trimRight_append_singleton rfl _

def isPlain (c : Char) : Bool := c ∉ ['\\', '\x22', '\x27', '/', '(', ')', '[', ']']

theorem run_of_isPlain {t : Text} (h : t.all isPlain = true) (d : Nat) :
    Scan.State.run ⟨d, .code⟩ t = ⟨d, .code⟩ := by
  induction t with
  | nil => rfl
  | cons c t ih =>
    rw [List.all_cons, Bool.and_eq_true] at h
    have hstep : Scan.State.step ⟨d, .code⟩ c = ⟨d, .code⟩ := by
      have hc := h.1
      simp only [isPlain, List.mem_cons, not_or, decide_eq_true_eq] at hc
      simp [Scan.State.step, Scan.State.stepCode, isQuote, hc]
    rw [Scan.State.run_cons, hstep, ih h.2]

theorem run_brackets {a b : Text} (ha : a.all isPlain = true) (hb : b.all isPlain = true)
    (d : Nat) : Scan.State.run ⟨d, .code⟩ (a ++ ['('] ++ b ++ [')']) = ⟨d, .code⟩ := by
  have hopen : Scan.State.run ⟨d, .code⟩ ['('] = ⟨d + 1, .code⟩ := rfl
  rw [Scan.State.run_append, Scan.State.run_append, Scan.State.run_append, run_of_isPlain ha,
    hopen, run_of_isPlain hb]
  rfl

theorem run_tagWord (layer : Option Layer) (d : Nat) :
    Scan.State.run ⟨d, .code⟩ (tagWord layer) = ⟨d, .code⟩ := by
  have hname : ((layer.map Layer.name).getD []).all isPlain = true := by
    rcases layer with _ | _ | _ | _ <;> decide
  have hword : "layer(".toList = "layer".toList ++ ['('] := by decide
  unfold tagWord
  rw [hword]
  exact run_brackets (by decide) hname d

theorem run_tagText {s : Scan.State} (h : s.fault? = none) (layer : Option Layer) :
    s.run (tagText layer) = ⟨s.depth, .code⟩ := by
  rw [tagText_eq, Scan.State.run_cons, Scan.State.step_of_fault?_eq_none h rfl, run_tagWord]

end Change

namespace Change

def tagStatement (layer : Option Layer) (text : Text) : Text :=
  trimRight text ++ tagText layer ++ trailingBlanks text

theorem trimRight_tagStatement (layer : Option Layer) (text : Text) :
    trimRight (tagStatement layer text) = trimRight text ++ tagText layer := by
  rw [tagStatement, trimRight_append_of_isBlankText _ (isBlankText_trailingBlanks text),
    trimRight_append_tagText]

theorem trailingBlanks_tagStatement (layer : Option Layer) (text : Text) :
    trailingBlanks (tagStatement layer text) = trailingBlanks text := by
  rw [tagStatement, trailingBlanks_append_of_isBlankText _ (isBlankText_trailingBlanks text),
    trailingBlanks_of_trimRight_eq (trimRight_append_tagText _ layer), List.nil_append]

/-- A tag neither ends the statement nor opens anything in it. -/
theorem scan_tagStatement {text : Text} (hpasses : Scan.State.start.passes text = true)
    (hfault : (Scan.State.start.run text).fault? = none) (layer : Option Layer) :
    Scan.State.start.passes (tagStatement layer text) = true ∧
      Scan.State.start.run (tagStatement layer text) =
        ⟨(Scan.State.start.run text).depth, .code⟩ := by
  have hblank := isBlankText_trailingBlanks text
  have hsane : (Scan.State.start.run (trimRight text)).Sane :=
    Scan.State.Sane.run (s := .start) trivial (trimRight text)
  conv at hpasses => rw [← trimRight_append_trailingBlanks text, Scan.State.passes_append]
  rw [← trimRight_append_trailingBlanks text, Scan.State.run_append] at hfault
  obtain ⟨hnone, hdepth⟩ := hsane.fault?_of_run hblank hfault
  rw [← Scan.State.run_append, trimRight_append_trailingBlanks] at hdepth
  have hrun := run_tagText hnone layer
  rw [Bool.and_eq_true] at hpasses
  constructor
  · rw [tagStatement, Scan.State.passes_append, Scan.State.passes_append, hpasses.1,
      Scan.State.passes_of_forall _ (all_tagText layer), Scan.State.passes_of_isBlankText _ hblank]
    rfl
  · rw [tagStatement, Scan.State.run_append, Scan.State.run_append, hrun,
      Scan.State.run_code_of_isBlankText _ hblank, hdepth]

theorem endsAt_tagStatement {text rest u : Text} (h : EndsAt text rest)
    (hat : trimRight text = '@' :: u) (layer : Option Layer) :
    EndsAt (tagStatement layer text) rest where
  begins := by
    rw [tagStatement, hat]
    rfl
  scan := by
    have hpasses := Scan.passes_of_statementFrom h.scan
    cases rest with
    | nil =>
      have hfault := Scan.fault?_of_statementFrom h.scan
      obtain ⟨hpasses', hrun⟩ := scan_tagStatement hpasses hfault layer
      rw [List.append_nil]
      apply Scan.statementFrom_of_fault?_eq_none hpasses'
      rw [hrun]
      rfl
    | cons c rest =>
      have hstop := Scan.stopsAt_of_statementFrom h.scan
      obtain ⟨hfault, hdepth⟩ := Scan.State.fault?_of_stopsAt hstop
      obtain ⟨hpasses', hrun⟩ := scan_tagStatement hpasses hfault layer
      apply Scan.statementFrom_of_stopsAt hpasses'
      rw [hrun, hdepth, Scan.State.stopsAt, Scan.isTerminator_of_statement h.scan]
      rfl

end Change

namespace Role

theorem ofAtRule_eq_importing {r : AtRule} (h : ofAtRule r = importing) :
    r.name = "import".toList ∧ Layer.ofImport? r.params = none := by
  unfold ofAtRule at h
  split_ifs at h with hexempt htailwind hlayer himport
  · split at h <;> cases h
  · split at h
    · cases h
    · rename_i hnone
      exact ⟨himport, hnone⟩

theorem ofAtRule_import {r : AtRule} (hname : r.name = "import".toList)
    (hparams : Layer.ofImport? r.params = none) : ofAtRule r = importing := by
  rw [ofAtRule, hname, hparams]
  rfl

end Role

namespace Statement

theorem kind_atRule_append (raws : Raws) (hasBlock : Bool) (rest : Text) (layer : Option Layer) :
    (atRule raws hasBlock (rest ++ Change.tagText layer)).kind =
      .atRule ⟨rest.takeWhile (!endsName ·),
        trimLeft (rest.dropWhile (!endsName ·) ++ Change.tagText layer), hasBlock⟩ := by
  rw [atRule, Change.tagText_eq, takeWhile_append_cons rfl, dropWhile_append_cons rfl]

theorem trimLeft_append_tagText (t : Text) (layer : Option Layer) :
    trimLeft (t ++ Change.tagText layer) = Change.tagWord layer ∨
      trimLeft (t ++ Change.tagText layer) = trimLeft t ++ ' ' :: Change.tagWord layer := by
  rw [trimLeft_append]
  split_ifs
  · exact .inl (Change.trimLeft_tagText layer)
  · exact .inr rfl

theorem kind_tagged_respaced (raws raws' raws'' : Raws) (hasBlock : Bool) (rest : Text)
    (layer : Option Layer) :
    (Content.tagged ⟨(atRule raws hasBlock rest).kind, raws'⟩ layer).kind.Respaced
      (atRule raws'' hasBlock (rest ++ Change.tagText layer)).kind := by
  rw [kind_atRule_append]
  refine .atRule hasBlock ?_
  rw [squeeze_append, squeeze_trimLeft, squeeze_trimLeft, squeeze_append]

theorem role_atRule_append {raws : Raws} {hasBlock : Bool} {rest : Text}
    (h : Role.ofKind (atRule raws hasBlock rest).kind = .importing) (raws' : Raws)
    (layer : Option Layer) :
    Role.ofKind (atRule raws' hasBlock (rest ++ Change.tagText layer)).kind = .importing ∧
      Change.isUntagged (atRule raws' hasBlock (rest ++ Change.tagText layer)).kind = false := by
  obtain ⟨hname, hparams⟩ := Role.ofAtRule_eq_importing h
  rw [kind_atRule_append]
  constructor
  · refine Role.ofAtRule_import (r := ⟨_, _, _⟩) hname ?_
    rcases trimLeft_append_tagText (rest.dropWhile (!endsName ·)) layer with heq | heq
    · rw [heq]
      exact Change.ofImport?_tagWord layer
    · rw [heq]
      exact Layer.ofImport?_append hparams _
  · have htagged : hasInfix (trimLeft (rest.dropWhile (!endsName ·) ++ Change.tagText layer))
        "layer(".toList = true := by
      rcases trimLeft_append_tagText (rest.dropWhile (!endsName ·)) layer with heq | heq
      · rw [heq]
        exact Change.hasInfix_tagWord layer
      · rw [heq]
        exact Change.hasInfix_append_tagText _ layer
    rw [Change.isUntagged, Kind.atRule?, Option.any_some, htagged]
    rfl

theorem exists_rest_of_body? {raws : Raws} {t : Text} {c : Content} (h : body? raws t = some c)
    (hrole : Role.ofKind c.kind = .importing) :
    ∃ rest, t = '@' :: rest ∧ c = atRule raws false rest := by
  unfold body? at h
  split at h
  · cases h
    exact ⟨_, rfl, rfl⟩
  · unfold declaration? at h
    split at h
    · cases h
    · split at h
      · cases h
      · cases h
        cases hrole

theorem exists_rest_of_prelude {before text : Text}
    (hrole : Role.ofKind (prelude before text).kind = .importing) :
    ∃ rest, trimRight text = '@' :: rest := by
  unfold prelude at hrole
  split at hrole
  · rename_i rest heq
    exact ⟨rest, heq⟩
  · cases hrole

theorem prelude_of_trimRight (before : Text) {text rest : Text} (h : trimRight text = '@' :: rest) :
    prelude before text =
      atRule { before := before, between := text.trailingBlanks } true rest := by
  unfold prelude
  rw [h]
  rfl

theorem write_tagged (raws : Raws) (hasBlock : Bool) (rest : Text) (layer : Option Layer)
    (raws' : Raws) (hname : raws'.afterName = leadingBlanks (rest.dropWhile (!endsName ·)))
    (inner : Text) :
    (Content.tagged ⟨(atRule raws hasBlock rest).kind, raws'⟩ layer).write inner =
      '@' :: (rest ++ Change.tagText layer ++
        if hasBlock then Content.writeBlock raws' inner else raws'.after) := by
  have happ : rest.takeWhile (!endsName ·) ++ rest.dropWhile (!endsName ·) = rest :=
    List.takeWhile_append_dropWhile
  have hparams : trimLeft (rest.dropWhile (!endsName ·)) ++ Change.tagText layer ≠ [] := by
    rw [Change.tagText_eq]
    simp
  have hrest := leadingBlanks_append_trimLeft (rest.dropWhile (!endsName ·))
  simp only [Content.tagged, atRule, Kind.mapParams, Content.write, hname, if_neg hparams]
  conv_rhs => rw [← happ, ← hrest]
  simp only [List.cons_append, List.append_assoc]

theorem write_atRule_append (raws : Raws) (hasBlock : Bool) (rest : Text) (layer : Option Layer)
    (raws' : Raws) (hname : raws'.afterName =
      leadingBlanks ((rest ++ Change.tagText layer).dropWhile (!endsName ·)))
    (inner : Text) :
    Content.write ⟨(atRule raws hasBlock (rest ++ Change.tagText layer)).kind, raws'⟩ inner =
      '@' :: (rest ++ Change.tagText layer ++
        if hasBlock then Content.writeBlock raws' inner else raws'.after) := by
  have htrim := Change.trimRight_append_tagText ('@' :: rest) layer
  exact write_atRule raws htrim hasBlock hname inner

end Statement

namespace Block

/-- The tree that the text of a tagged import reads as. -/
theorem LegibleTree.exists_tagged {c : Content} {t : Forest Content} (h : LegibleTree c t)
    (hrole : Role.ofKind c.kind = .importing) (layer : Option Layer) :
    ∃ c', LegibleTree c' t ∧ c'.raws.before = c.raws.before ∧
      c'.kind.needsSemicolon = (c.tagged layer).kind.needsSemicolon ∧
      c'.write (render c'.layout t) = (c.tagged layer).write (render (c.tagged layer).layout t) ∧
      (Role.ofKind c'.kind = .importing ∧ Change.isUntagged c'.kind = false) ∧
      (c.tagged layer).kind.Respaced c'.kind := by
  cases h with
  | comment => cases hrole
  | @statement before text c hb ht hc =>
    obtain ⟨rest, hat, rfl⟩ := Statement.exists_rest_of_body? hc hrole
    have hends := Change.endsAt_tagStatement ht hat layer
    have hbody : Statement.body?
        { before := before, after := (Change.tagStatement layer text).trailingBlanks }
        (Change.tagStatement layer text).trimRight =
        some (Statement.atRule { before := before, after := text.trailingBlanks } false
          (rest ++ Change.tagText layer)) := by
      rw [Change.trailingBlanks_tagStatement, Change.trimRight_tagStatement, hat]
      rfl
    refine ⟨_, .statement hb hends hbody, rfl, rfl, ?_,
      Statement.role_atRule_append hrole _ layer,
      Statement.kind_tagged_respaced {} _ {} false rest layer⟩
    have hread := Statement.write_atRule_append
      { before := before, after := text.trailingBlanks } false rest layer
      (Statement.atRule { before := before, after := text.trailingBlanks } false
        (rest ++ Change.tagText layer)).raws rfl (render (.inline false) .nil)
    have htagged := Statement.write_tagged
      { before := before, after := text.trailingBlanks } false rest layer
      (Statement.atRule { before := before, after := text.trailingBlanks } false rest).raws rfl
      (render (.inline false) .nil)
    exact hread.trans htagged.symm
  | @opening before text inner hb ht hinner =>
    obtain ⟨rest, hat⟩ := Statement.exists_rest_of_prelude hrole
    have hends := Change.endsAt_tagStatement ht hat layer
    have hprelude := Statement.prelude_of_trimRight before hat
    have hat' : trimRight (Change.tagStatement layer text) =
        '@' :: (rest ++ Change.tagText layer) := by
      rw [Change.trimRight_tagStatement, hat]
      rfl
    have hprelude' := Statement.prelude_of_trimRight before hat'
    rw [Change.trailingBlanks_tagStatement] at hprelude'
    have htree : LegibleTree _ inner.forest := .opening hb hends hinner
    change Role.ofKind (Statement.prelude before text).kind = .importing at hrole
    rw [hprelude'] at htree
    rw [hprelude] at hrole ⊢
    refine ⟨_, htree, rfl, rfl, ?_, Statement.role_atRule_append hrole {} layer,
      Statement.kind_tagged_respaced {} _ {} true rest layer⟩
    have hread := Statement.write_atRule_append
      { before := before, between := text.trailingBlanks } true rest layer
      ((Statement.atRule { before := before, between := text.trailingBlanks } true
        (rest ++ Change.tagText layer)).enclosing inner).raws rfl
      (render (.inline inner.semicolon) inner.forest)
    have htagged := Statement.write_tagged
      { before := before, between := text.trailingBlanks } true rest layer
      ((Statement.atRule { before := before, between := text.trailingBlanks } true
        rest).enclosing inner).raws rfl (render (.inline inner.semicolon) inner.forest)
    exact hread.trans htagged.symm

theorem exists_tagged_last {before text : Text} {c : Content}
    (hc : Statement.body? { before := before } text.trimRight = some c)
    (hrole : Role.ofKind c.kind = .importing) (layer : Option Layer) (inner : Text) :
    ∃ c', Statement.body? { before := before } (Change.tagStatement layer text).trimRight =
        some c' ∧
      trimRight (Change.tagStatement layer text) = (c.tagged layer).write inner ∧
      (Role.ofKind c'.kind = .importing ∧ Change.isUntagged c'.kind = false) ∧
      (c.tagged layer).kind.Respaced c'.kind := by
  obtain ⟨rest, hat, rfl⟩ := Statement.exists_rest_of_body? hc hrole
  refine ⟨Statement.atRule { before := before } false (rest ++ Change.tagText layer), ?_, ?_,
    Statement.role_atRule_append hrole _ layer,
    Statement.kind_tagged_respaced {} _ {} false rest layer⟩
  · rw [Change.trimRight_tagStatement, hat]
    rfl
  · have htagged := Statement.write_tagged { before := before } false rest layer
      (Statement.atRule { before := before } false rest).raws rfl inner
    rw [Change.trimRight_tagStatement, hat]
    refine Eq.trans ?_ htagged.symm
    simp [Statement.atRule]

end Block
end UtilityCss
