import UtilityCss.Proofs.Stylesheet.Recognition
import UtilityCss.Proofs.Stylesheet.Indentation
import UtilityCss.Proofs.Stylesheet.Lossless

/-!
# The last semicolon of a block

A statement that is alone in its block is read as the same node with and without a semicolon behind
it, unless blanks stand there that are not ASCII spaces. Before a semicolon these belong to the
statement, but before a brace they are left to the block, which does not skip them.
-/
namespace UtilityCss

open Text

theorem Text.eq_or_exists_of_append_singleton {x y t : Text} {c : Char}
    (h : x ++ [c] = y ++ c :: t) : t = [] ∧ x = y ∨ ∃ t', t = t' ++ [c] ∧ x = y ++ c :: t' := by
  rcases List.eq_nil_or_concat t with rfl | ⟨t', d, rfl⟩
  · exact .inl ⟨rfl, (List.append_inj' h rfl).1⟩
  · rw [List.concat_eq_append, ← List.cons_append, ← List.append_assoc] at h
    obtain ⟨rfl, hd⟩ := List.append_inj' h rfl
    obtain rfl := List.singleton_inj.mp hd
    exact .inr ⟨t', List.concat_eq_append, rfl⟩

namespace Event

def isIdle (c : Char) : Bool := isAsciiSpace c || c = ';'

theorem isAsciiSpace_of_isIdle {c : Char} (h : isIdle c = true) (hblank : isBlank c = true) :
    isAsciiSpace c = true := by
  have hsemi : c ≠ ';' := ne_of_isBlank hblank rfl
  simpa [isIdle, hsemi] using h

theorem all_isAsciiSpace_trailingBlanks (a : Text) {idle : Text} (h : idle.all isIdle = true) :
    (trailingBlanks (a ++ ';' :: idle)).all isAsciiSpace = true := by
  have hne : trimRight (';' :: idle) ≠ [] := by
    rw [trimRight_cons rfl]
    exact List.cons_ne_nil _ _
  rw [trailingBlanks_append_of_trimRight_ne_nil a hne, List.all_eq_true]
  intro c hc
  have hblank := List.all_eq_true.mp (isBlankText_trailingBlanks _) c hc
  refine isAsciiSpace_of_isIdle ?_ hblank
  rcases List.mem_cons.mp (mem_of_mem_trailingBlanks hc) with rfl | hmem
  · rfl
  · exact List.all_eq_true.mp h c hmem

theorem all_isIdle_of_isAsciiSpace {t : Text} (h : t.all isAsciiSpace = true) :
    t.all isIdle = true := by
  simp only [List.all_eq_true] at h ⊢
  exact fun c hc => by simp [isIdle, h c hc]

/-- A text that a semicolon makes a statement of the given kind. -/
structure IsStatement (text : Text) (kind : Kind) : Prop where
  endsAt : EndsAt text [';']
  body : ∃ raws c, Statement.body? raws text.trimRight = some c ∧ c.kind = kind

theorem IsStatement.trimRight_ne_nil {text : Text} {kind : Kind} (h : IsStatement text kind) :
    text.trimRight ≠ [] := by
  obtain ⟨raws, c, hc, -⟩ := h.body
  intro hnil
  rw [hnil, Statement.body?_nil] at hc
  cases hc

/-- A brace ends the statement in the same place as a semicolon. -/
theorem EndsAt.brace {text rest : Text} (h : EndsAt text (';' :: rest)) (rest' : Text) :
    EndsAt text ('\x7d' :: rest') := by
  have hbegins : beginsStatement (text ++ '\x7d' :: rest') = true := by
    have hb := h.begins
    match text with
    | [] => simp [beginsStatement] at hb
    | [d] => simpa [beginsStatement] using hb
    | _ :: _ :: _ => exact hb
  have hstop := Outline.stopsAt_of_endsAt h
  refine Outline.endsAt_of_passes hbegins (Scan.passes_of_statementFrom h.scan) ?_
  simpa [Scan.State.stopsAt, Scan.isTerminator] using hstop

theorem IsStatement.ofText_semicolon {text : Text} {kind : Kind} (h : IsStatement text kind)
    {before : Text} (hb : before.all isAsciiSpace = true) (rest : Text) :
    ∃ c, c.kind = kind ∧
      Nesting.ofText (before ++ (text ++ ';' :: rest)) =
        (Nesting.ofText rest).push c .nil true := by
  obtain ⟨raws, c, hc, rfl⟩ := h.body
  obtain ⟨c', hc', hkind⟩ :=
    Statement.exists_body? hc { before := before, after := text.trailingBlanks }
  refine ⟨c', hkind, ?_⟩
  have hread := Nesting.ofText_of_spells (.statement hb (h.endsAt.congr rest) hc')
  have happ : before ++ text ++ [';'] ++ rest = before ++ (text ++ ';' :: rest) := by simp
  rwa [happ] at hread

theorem IsStatement.ofText_brace {text : Text} {kind : Kind} (h : IsStatement text kind)
    {before : Text} (hb : before.all isAsciiSpace = true) (rest : Text) :
    ∃ c, c.kind = kind ∧
      Nesting.ofText (before ++ (text ++ '\x7d' :: rest)) =
        (Nesting.ofText (text.trailingBlanks ++ '\x7d' :: rest)).push c .nil false := by
  obtain ⟨raws, c, hc, rfl⟩ := h.body
  obtain ⟨c', hc', hkind⟩ := Statement.exists_body? hc { before := before }
  refine ⟨c', hkind, ?_⟩
  have hread := Nesting.ofText_of_spells (.last hb (h.endsAt.brace rest) rfl hc')
  have happ : before ++ text.trimRight ++ (text.trailingBlanks ++ '\x7d' :: rest) =
      before ++ (text ++ '\x7d' :: rest) := by
    conv_rhs => rw [← trimRight_append_trailingBlanks text]
    simp only [List.append_assoc]
  rwa [happ] at hread

end Event

namespace Nesting

open Event

/-- Of an idle text in front only the spaces after its last semicolon matter. -/
theorem exists_ofText_idle {idle : Text} (h : idle.all isIdle = true) :
    ∃ before : Text, before.all isAsciiSpace = true ∧
      ∀ t, ofText (idle ++ t) = ofText (before ++ t) := by
  induction idle using List.reverseRecOn with
  | nil => exact ⟨[], rfl, fun t => rfl⟩
  | append_singleton idle c ih =>
    rw [List.all_append, Bool.and_eq_true] at h
    obtain ⟨before, hb, hread⟩ := ih h.1
    have hc : isAsciiSpace c = true ∨ c = ';' := by simpa [isIdle] using h.2
    rcases hc with hspace | rfl
    · refine ⟨before ++ [c], by simp [hb, hspace], fun t => ?_⟩
      rw [List.append_assoc, List.append_assoc, hread]
    · refine ⟨[], rfl, fun t => ?_⟩
      rw [List.append_assoc, hread, ← List.append_assoc, ofText_of_spells (.stray hb)]
      rfl

theorem exists_ofText_idle_endWith {idle rest : Text} (h : idle.all isIdle = true)
    (hrest : endsBlock rest = true) :
    ∃ after, ofText (idle ++ rest) = endWith (Block.blank after) rest := by
  obtain ⟨before, hb, hread⟩ := exists_ofText_idle h
  exact ⟨before, by rw [hread, ofText_blank hb hrest]⟩

theorem exists_of_current?_push {n : Nesting} {c : Content} {t : Forest Content}
    {terminated : Bool} {b : Block} (h : (n.push c t terminated).current? = some b) :
    ∃ b', n.current? = some b' ∧ b = b'.push c t terminated := by
  rcases n with ⟨_ | ⟨⟨inner, place⟩, outer⟩, last⟩
  · cases last with
    | error f => cases h
    | ok b' =>
      cases h
      exact ⟨b', rfl, rfl⟩
  · cases h
    exact ⟨inner, rfl, rfl⟩

theorem exists_of_current?_enclose {n : Nesting} {c : Content} {place : Text} {b : Block}
    (h : (n.enclose c place).current? = some b) :
    ∃ inner outer, b = Block.push (c.enclosing inner) inner.forest false outer := by
  rcases n with ⟨_ | ⟨⟨inner, p⟩, outer⟩, last⟩
  · cases last <;> cases h
  · obtain ⟨b', -, rfl⟩ := exists_of_current?_push (n := ⟨outer, last⟩) h
    exact ⟨inner, b', rfl⟩

theorem Reads.exists_idle {t : Text} {n : Nesting} (h : Reads t n) {b : Block}
    (hb : n.current? = some b) (hempty : b.forest = .nil) :
    ∃ idle rest, t = idle ++ rest ∧ idle.all isIdle = true ∧ endsBlock rest = true ∧
      n = endWith b rest := by
  induction h with
  | @finish after ha =>
    cases hb
    exact ⟨after, [], by simp, all_isIdle_of_isAsciiSpace ha, rfl, rfl⟩
  | fault => cases hb
  | @event x rest e n hx hrest ih =>
    cases hx with
    | comment =>
      obtain ⟨b', -, rfl⟩ := exists_of_current?_push hb
      cases hempty
    | statement =>
      obtain ⟨b', -, rfl⟩ := exists_of_current?_push hb
      cases hempty
    | last =>
      obtain ⟨b', -, rfl⟩ := exists_of_current?_push hb
      cases hempty
    | opening =>
      obtain ⟨inner, outer, rfl⟩ := exists_of_current?_enclose hb
      cases hempty
    | @closing before _ hspace =>
      cases hb
      refine ⟨before, '\x7d' :: rest, by simp, all_isIdle_of_isAsciiSpace hspace, rfl, ?_⟩
      rw [hrest.eq]
      rfl
    | @stray before _ hspace =>
      obtain ⟨idle, rest', rfl, hidle, hend, hn⟩ := ih hb
      refine ⟨before ++ ';' :: idle, rest', by simp, ?_, hend, hn⟩
      simp [all_isIdle_of_isAsciiSpace hspace, hidle, isIdle]

/-- A block with a single node, which is a statement with its semicolon, is the text of that
statement between idle texts. -/
theorem Reads.exists_statement {t : Text} {n : Nesting} (h : Reads t n) {b : Block}
    (hb : n.current? = some b) {c : Content} {sub : Forest Content}
    (hforest : b.forest = .cons c sub .nil) (hneeds : c.kind.needsSemicolon = true)
    (hsemi : b.semicolon = true) :
    ∃ idle text after rest : Text, t = idle ++ (text ++ ';' :: (after ++ rest)) ∧
      idle.all isIdle = true ∧ after.all isIdle = true ∧ endsBlock rest = true ∧
      IsStatement text c.kind ∧ n = endWith b rest := by
  induction h with
  | finish =>
    cases hb
    cases hforest
  | fault => cases hb
  | @event x rest e n hx hrest ih =>
    cases hx with
    | comment =>
      obtain ⟨b', -, rfl⟩ := exists_of_current?_push hb
      obtain ⟨rfl, -, -⟩ := Forest.cons.inj hforest
      cases hneeds
    | @statement before text _ c' hspace ht hc =>
      obtain ⟨b', hb', rfl⟩ := exists_of_current?_push hb
      obtain ⟨rfl, rfl, hempty⟩ := Forest.cons.inj hforest
      obtain ⟨after, rest', rfl, hafter, hend, hn⟩ := hrest.exists_idle hb' hempty
      refine ⟨before, text, after, rest', by simp, all_isIdle_of_isAsciiSpace hspace, hafter, hend,
        ⟨ht.congr [], _, _, hc, rfl⟩, ?_⟩
      rw [hn]
      exact push_endWith ..
    | last =>
      obtain ⟨b', -, rfl⟩ := exists_of_current?_push hb
      obtain ⟨-, -, hempty⟩ := Forest.cons.inj hforest
      simp [Block.push, hempty, Forest.isEmpty] at hsemi
    | opening =>
      obtain ⟨inner, outer, rfl⟩ := exists_of_current?_enclose hb
      obtain ⟨rfl, -, -⟩ := Forest.cons.inj hforest
      rw [Content.enclosing, Statement.needsSemicolon_prelude] at hneeds
      cases hneeds
    | closing =>
      cases hb
      cases hforest
    | @stray before _ hspace =>
      obtain ⟨idle, text, after, rest', rfl, hidle, hafter, hend, htext, hn⟩ := ih hb
      refine ⟨before ++ ';' :: idle, text, after, rest', by simp, ?_, hafter, hend, htext, hn⟩
      simp [all_isIdle_of_isAsciiSpace hspace, hidle, isIdle]

/-- The text closes one block, whose only node has the given kind, and has no node behind it. -/
inductive HasLone (kind : Kind) (semicolon : Bool) : Nesting → Prop
  | intro {c : Content} {sub : Forest Content} {after place outerAfter : Text}
      {outerSemicolon : Bool} (hc : c.kind = kind) :
      HasLone kind semicolon ⟨[(⟨.cons c sub .nil, after, semicolon⟩, place)],
        .ok ⟨.nil, outerAfter, outerSemicolon⟩⟩

theorem HasLone.push_endWith {c : Content} {kind : Kind} (hc : c.kind = kind) (terminated : Bool)
    (after : Text) :
    HasLone kind terminated ((endWith (Block.blank after) ['\x7d']).push c .nil terminated) := by
  have hnil : ofText [] = ⟨[], .ok (Block.blank [])⟩ := ofText_of_isAsciiSpace rfl
  simp only [endWith, hnil]
  exact .intro hc

theorem all_isIdle_of_ofText {t : Text} {b : Block} (hclosed : (ofText t).closed = [])
    (hlast : (ofText t).last = .ok b) (hempty : b.forest = .nil) : t.all isIdle = true := by
  have hb : (ofText t).current? = some b := by
    rw [current?, hclosed, hlast]
    rfl
  obtain ⟨idle, rest, rfl, hidle, -, hrest⟩ := (reads_ofText t).exists_idle hb hempty
  cases rest with
  | nil => rwa [List.append_nil]
  | cons c cs =>
    rw [hrest] at hclosed
    cases hclosed

/-- In front of a semicolon and the closing brace, either the statement that the semicolon ends
stands last, or one with a semicolon of its own. -/
theorem HasLone.exists_statement {t : Text} {kind : Kind} (hneeds : kind.needsSemicolon = true)
    (h : (ofText (t ++ [';'] ++ ['\x7d'])).HasLone kind true) :
    ∃ idle text : Text, idle.all isIdle = true ∧ IsStatement text kind ∧
      (t = idle ++ text ∨
        ∃ after : Text, after.all isIdle = true ∧ t = idle ++ text ++ ';' :: after) := by
  have hreads := reads_ofText (t ++ [';'] ++ ['\x7d'])
  generalize ofText (t ++ [';'] ++ ['\x7d']) = n at h hreads
  cases h with
  | @intro c sub after place outerAfter outerSemicolon hc =>
  subst hc
  obtain ⟨idle, text, after, rest, ht, hidle, hafter, hend, htext, hrest⟩ :=
    hreads.exists_statement rfl rfl hneeds rfl
  refine ⟨idle, text, hidle, htext, ?_⟩
  cases rest with
  | nil => cases hrest
  | cons d behind =>
  simp only [endsBlock, decide_eq_true_eq] at hend
  subst hend
  obtain ⟨hclosed, hlast⟩ := Nesting.mk.inj hrest
  have hbehind := all_isIdle_of_ofText (List.cons.inj hclosed).2.symm hlast.symm rfl
  have hbrace : t ++ [';'] ++ ['\x7d'] = idle ++ text ++ ';' :: after ++ '\x7d' :: behind := by
    simpa using ht
  rcases eq_or_exists_of_append_singleton hbrace with ⟨-, hsemi⟩ | ⟨b, rfl, -⟩
  · rcases eq_or_exists_of_append_singleton hsemi with ⟨-, rfl⟩ | ⟨b, rfl, rfl⟩
    · exact .inl rfl
    · rw [List.all_append, Bool.and_eq_true] at hafter
      exact .inr ⟨b, hafter.1, rfl⟩
  · rw [List.all_append, Bool.and_eq_true] at hbehind
    cases hbehind.2

/-- Without the last semicolon the statement is still alone, if its block skips the blanks behind
it. -/
theorem hasLone_iff_of_hasLone {t : Text} {kind : Kind} (hneeds : kind.needsSemicolon = true)
    (h : (ofText (t ++ [';'] ++ ['\x7d'])).HasLone kind true) :
    (∃ semicolon, (ofText (t ++ ['\x7d'])).HasLone kind semicolon) ↔
      t.trailingBlanks.all isAsciiSpace = true := by
  have hend : endsBlock ['\x7d'] = true := rfl
  obtain ⟨idle, text, hidle, htext, rfl | ⟨after, hafter, rfl⟩⟩ := h.exists_statement hneeds
  all_goals obtain ⟨before, hb, hread⟩ := exists_ofText_idle hidle
  · obtain ⟨c, hc, hbrace⟩ := htext.ofText_brace hb []
    rw [List.append_assoc, hread, hbrace,
      trailingBlanks_append_of_trimRight_ne_nil idle htext.trimRight_ne_nil]
    constructor
    · rintro ⟨semicolon, hlone⟩
      rcases first_of_isBlankText (isBlankText_trailingBlanks text) hend with hspace | ⟨f, hf⟩
      · exact hspace
      · rw [ofText_of_fault hf] at hlone
        cases hlone
    · intro hspace
      refine ⟨false, ?_⟩
      rw [ofText_blank hspace rfl]
      exact .push_endWith hc ..
  · obtain ⟨c, hc, hsemi⟩ := htext.ofText_semicolon hb (after ++ ['\x7d'])
    obtain ⟨blanks, hblanks⟩ := exists_ofText_idle_endWith hafter hend
    refine iff_of_true ⟨true, ?_⟩ ?_
    · have happ : idle ++ text ++ ';' :: after ++ ['\x7d'] =
          idle ++ (text ++ ';' :: (after ++ ['\x7d'])) := by simp
      rw [happ, hread, hsemi, hblanks]
      exact .push_endWith hc ..
    · exact all_isAsciiSpace_trailingBlanks (idle ++ text) hafter

theorem toBlock_enclose {n : Nesting} {c : Content} {place : Text} {b : Block}
    (h : (n.enclose c place).toBlock = .ok b) :
    ∃ inner p outer, n = ⟨[(inner, p)], .ok outer⟩ ∧
      b = outer.push (c.enclosing inner) inner.forest false := by
  rcases n with ⟨_ | ⟨⟨inner, p⟩, _ | ⟨q, closed⟩⟩, f | outer⟩ <;> cases h
  exact ⟨inner, p, outer, rfl, rfl⟩

theorem ofText_rule (t : Text) :
    ofText ("a\x7b".toList ++ t) = (ofText t).enclose ⟨.rule ['a'], {}⟩ ('\x7b' :: t) := by
  have hends : EndsAt ['a'] ('\x7b' :: t) := ⟨rfl, rfl⟩
  exact ofText_of_spells (.opening (List.all_nil) hends)

end Nesting

namespace Stylesheet

/-- The only child of the root is a rule, and its only child is a declaration or an at-rule without
a block. -/
structure IsLone (s : Stylesheet) (rule child : NodeId) : Prop where
  children_root : s.children root = [rule]
  isRule : ∃ selector, s.kind rule = .rule selector
  children_rule : s.children rule = [child]
  needsSemicolon : (s.kind child).needsSemicolon = true

instance (k : Kind) : Decidable (∃ selector, k = .rule selector) :=
  match k with
  | .rule selector => isTrue ⟨selector, rfl⟩
  | .root => isFalse (by simp)
  | .atRule r => isFalse (by simp)
  | .declaration property value important => isFalse (by simp)
  | .comment text => isFalse (by simp)

instance (s : Stylesheet) (rule child : NodeId) : Decidable (s.IsLone rule child) :=
  decidable_of_iff (s.children root = [rule] ∧ (∃ selector, s.kind rule = .rule selector) ∧
      s.children rule = [child] ∧ (s.kind child).needsSemicolon = true)
    ⟨fun h => ⟨h.1, h.2.1, h.2.2.1, h.2.2.2⟩,
      fun h => ⟨h.children_root, h.isRule, h.children_rule, h.needsSemicolon⟩⟩

theorem hasLone_of_parse {t : Text} {s : Stylesheet} {rule child : NodeId}
    (h : parse ("a\x7b".toList ++ t) = .ok s) (hs : s.IsLone rule child) :
    (Nesting.ofText t).HasLone (s.kind child) (s.raws rule).semicolon := by
  obtain ⟨b, hb, rfl⟩ := exists_block_of_parse h
  have hforest := isForest_ofBlock b
  have hrule := hforest.contents_eq_singleton_iff.mpr ⟨rule, hs.children_root, rfl, rfl⟩
  have hchild := hforest.contents_eq_singleton_iff.mpr ⟨child, hs.children_rule, rfl, rfl⟩
  rw [contents_root_ofBlock, hchild] at hrule
  change (Nesting.ofText ("a\x7b".toList ++ t)).toBlock = .ok b at hb
  rw [Nesting.ofText_rule] at hb
  obtain ⟨inner, p, outer, hn, hpush⟩ := Nesting.toBlock_enclose hb
  have htrees := congrArg Block.forest hpush
  rw [hrule] at htrees
  obtain ⟨hcontent, hinner, houter⟩ := Forest.cons.inj htrees
  have hsemicolon : ((ofBlock b).raws rule).semicolon = inner.semicolon := by
    rw [raws, hcontent]
    rfl
  rw [hn, hsemicolon]
  rcases inner with ⟨forest, after, semicolon⟩
  rcases outer with ⟨outerForest, outerAfter, outerSemicolon⟩
  subst hinner houter
  exact .intro rfl

theorem exists_parse_of_hasLone {t : Text} {k : Kind} {semicolon : Bool}
    (h : (Nesting.ofText t).HasLone k semicolon) (hneeds : k.needsSemicolon = true) :
    ∃ s rule child, parse ("a\x7b".toList ++ t) = .ok s ∧ s.IsLone rule child ∧
      s.kind child = k := by
  generalize hn : Nesting.ofText t = n at h
  cases h with
  | @intro c sub after place outerAfter outerSemicolon hc =>
  let inner : Block := ⟨.cons c sub .nil, after, semicolon⟩
  let rule : Content := ⟨.rule ['a'], {}⟩
  let b : Block := ⟨.cons (rule.enclosing inner) inner.forest .nil, outerAfter, false⟩
  have hb : Block.ofText ("a\x7b".toList ++ t) = .ok b := by
    change (Nesting.ofText ("a\x7b".toList ++ t)).toBlock = .ok b
    rw [Nesting.ofText_rule, hn]
    rfl
  have hforest := isForest_ofBlock b
  obtain ⟨id, hroot, hrule, hinner⟩ :=
    hforest.contents_eq_singleton_iff.mp (contents_root_ofBlock b)
  obtain ⟨child, hchildren, hchild, -⟩ := hforest.contents_eq_singleton_iff.mp hinner
  have hkind : (ofBlock b).kind child = k := by rw [kind, hchild, hc]
  refine ⟨ofBlock b, id, child, by rw [parse, hb], ⟨hroot, ⟨['a'], ?_⟩, hchildren, ?_⟩, hkind⟩
  · rw [kind, hrule]
    rfl
  · rwa [hkind]

/-- The semicolon behind a lone declaration or at-rule can be left out exactly if all blanks in
front of it are ASCII spaces. -/
theorem final_semicolon_optional_iff {t : Text} {s : Stylesheet} {rule child : NodeId}
    (h : parse ("a\x7b".toList ++ t ++ ";\x7d".toList) = .ok s) (hs : s.IsLone rule child)
    (hsemi : (s.raws rule).semicolon = true) :
    (∃ s' rule' child', parse ("a\x7b".toList ++ t ++ "\x7d".toList) = .ok s' ∧
      s'.IsLone rule' child' ∧ s'.kind child' = s.kind child) ↔
      t.trailingBlanks.all isAsciiSpace = true := by
  have happ : "a\x7b".toList ++ t ++ ";\x7d".toList =
      "a\x7b".toList ++ (t ++ [';'] ++ ['\x7d']) := by simp
  rw [happ] at h
  have hlone := hasLone_of_parse h hs
  rw [hsemi] at hlone
  rw [← Nesting.hasLone_iff_of_hasLone hs.needsSemicolon hlone, List.append_assoc]
  constructor
  · rintro ⟨s', rule', child', h', hs', hkind⟩
    rw [← hkind]
    exact ⟨_, hasLone_of_parse h' hs'⟩
  · rintro ⟨semicolon, hlone'⟩
    exact exists_parse_of_hasLone hlone' hs.needsSemicolon

theorem final_semicolon_optional_after_escape :
    ∃ s s' rule' child', parse "a\x7b;b:c\\ ;\x7d".toList = .ok s ∧
      parse "a\x7b;b:c\\ \x7d".toList = .ok s' ∧ s'.IsLone rule' child' ∧
      s'.kind child' = s.kind ⟨2⟩ := by
  have hany : (parse "a\x7b;b:c\\ ;\x7d".toList).toOption.any
      (fun s => s.IsLone ⟨1⟩ ⟨2⟩ ∧ (s.raws ⟨1⟩).semicolon = true) = true := by decide +kernel
  obtain ⟨s, hs, hlone⟩ := exists_parse_of_any hany
  rw [decide_eq_true_eq] at hlone
  have hiff := final_semicolon_optional_iff (t := ";b:c\\ ".toList) hs hlone.1 hlone.2
  obtain ⟨s', rule', child', hs', hlone', hkind⟩ := hiff.mpr (by decide)
  exact ⟨s, s', rule', child', hs, hs', hlone', hkind⟩

/-- A no-break space in front of the closing brace is reported as an unknown word. -/
theorem final_semicolon_required_after_no_break_space :
    (∃ s, parse "a\x7bb:c\u00a0;\x7d".toList = .ok s ∧ s.IsLone ⟨1⟩ ⟨2⟩ ∧
      (s.raws ⟨1⟩).semicolon = true) ∧
    parse "a\x7bb:c\u00a0\x7d".toList = .error ⟨.unknownWord [], ⟨1, 6⟩⟩ := by
  have hany : (parse "a\x7bb:c\u00a0;\x7d".toList).toOption.any
      (fun s => s.IsLone ⟨1⟩ ⟨2⟩ ∧ (s.raws ⟨1⟩).semicolon = true) = true := by decide +kernel
  obtain ⟨s, hs, hlone⟩ := exists_parse_of_any hany
  rw [decide_eq_true_eq] at hlone
  exact ⟨⟨s, hs, hlone⟩, by decide +kernel⟩

end Stylesheet
end UtilityCss
