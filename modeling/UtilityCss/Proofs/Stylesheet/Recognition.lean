import UtilityCss.Proofs.Stylesheet.Legible
import UtilityCss.Proofs.Stylesheet.Outline

/-!
# The outline recognizes legible blocks

A text without blanks other than ASCII spaces is the text of a legible block exactly if its outline
leaves no block open and may be followed by a closing brace.
-/
namespace UtilityCss

open Text Event

namespace Outline

/-- A statement without a block makes a node exactly if it is sound. -/
theorem isSome_body?_iff {raws : Raws} {t : Text} (ht : ∀ c ∈ t.head?, isBlank c = false) :
    (Statement.body? raws t).isSome = true ↔ Standing.fresh.run t = .sound := by
  cases t with
  | nil => simp [Statement.body?_nil, Standing.run]
  | cons c t =>
    have hc : isBlank c = false := ht c rfl
    rw [Standing.run_cons, Standing.next]
    by_cases hat : c = '@'
    · subst hat
      rw [if_pos rfl, Standing.run_sound]
      simp [Statement.body?]
    · have hbody : Statement.body? raws (c :: t) = Statement.declaration? raws (c :: t) := by
        unfold Statement.body?
        split
        · rename_i heq
          cases heq
          exact absurd rfl hat
        · rfl
      rw [hbody, if_neg hat, Statement.declaration?, splitFirst?]
      by_cases hcolon : c = ':'
      · simp [hcolon, Standing.run_void, isBlankText]
      · rw [if_neg hcolon, if_neg hcolon, Standing.run_pending_eq_sound_iff]
        cases hsplit : splitFirst? ':' t with
        | none =>
          rw [splitFirst?_eq_none_iff] at hsplit
          simp [hsplit]
        | some p =>
          have hmem : ':' ∈ t := by
            by_contra hnot
            rw [splitFirst?_eq_none_iff.mpr hnot] at hsplit
            cases hsplit
          simp [hmem, isBlankText, hc]

theorem isSome_body?_trimRight {raws : Raws} {t : Text} (ht : ∀ c ∈ t.head?, isBlank c = false) :
    (Statement.body? raws t.trimRight).isSome = true ↔ Standing.fresh.run t = .sound := by
  have hhead : ∀ c ∈ t.trimRight.head?, isBlank c = false := by
    intro c hc
    cases t with
    | nil => cases hc
    | cons d t =>
      rw [trimRight_cons (ht d rfl)] at hc
      exact ht c hc
  rw [isSome_body?_iff hhead]
  cases t with
  | nil => rfl
  | cons d t =>
    have hne : trimRight (d :: t) ≠ [] := by
      rw [trimRight_cons (ht d rfl)]
      exact List.cons_ne_nil d _
    conv_rhs => rw [← trimRight_append_trailingBlanks (d :: t), Standing.run_append,
      Standing.run_of_isBlankText (Standing.run_ne_fresh hne .fresh)
        (isBlankText_trailingBlanks _)]

theorem run_statement {s : Scan.State} {t : Text} (h : s.passes t = true) (k : Nat)
    (st : Standing) :
    State.run ⟨k, .statement s st⟩ t = some ⟨k, .statement (s.run t) (st.run t)⟩ := by
  induction t generalizing s st with
  | nil => rfl
  | cons c t ih =>
    rw [Scan.State.passes, Bool.and_eq_true, Bool.not_eq_true'] at h
    have hstep : State.step ⟨k, .statement s st⟩ c =
        some ⟨k, .statement (s.step c) (st.next c)⟩ := by
      simp only [State.step, stepStatement, h.1, if_neg Bool.false_ne_true]
    rw [State.run_cons_of_step hstep]
    exact ih h.2 (st.next c)

theorem run_between {t : Text} (h : beginsStatement t = true) (hne : t ≠ ['/']) (k : Nat) :
    State.run ⟨k, .between⟩ t = State.run ⟨k, .statement .start .fresh⟩ t := by
  cases t with
  | nil => cases h
  | cons c t =>
    simp only [beginsStatement, Bool.and_eq_true, Bool.not_eq_true', bne_iff_ne] at h
    obtain ⟨⟨⟨hspace, hclose⟩, hsemi⟩, hcomment⟩ := h
    have hstep : c ≠ '/' → State.step ⟨k, .between⟩ c = stepStatement k .start .fresh c := by
      intro hslash
      simp only [State.step, hspace, if_neg hclose, if_neg hsemi, if_neg hslash,
        if_neg Bool.false_ne_true]
    by_cases hslash : c = '/'
    · subst hslash
      cases t with
      | nil => exact absurd rfl hne
      | cons d t =>
        have hstar : d ≠ '*' := by
          rintro rfl
          simp at hcomment
        have hd : State.step ⟨k, .slash⟩ d = stepStatement k ⟨0, .slash⟩ .pending d := by
          simp only [State.step, if_neg hstar]
        have hl : State.step ⟨k, .between⟩ '/' = some ⟨k, .slash⟩ := rfl
        have hr : State.step ⟨k, .statement .start .fresh⟩ '/' =
          some ⟨k, .statement ⟨0, .slash⟩ .pending⟩ := rfl
        rw [State.run_cons_of_step hl, State.run_cons_of_step hr, State.run_cons, hd]
        rfl
    · rw [State.run_cons, hstep hslash]
      rfl

/-- The outline of a statement up to and including what ends it. -/
theorem run_of_endsAt {text rest : Text} {c : Char} (h : EndsAt text (c :: rest)) (k : Nat) :
    State.run ⟨k, .between⟩ (text ++ [c]) =
      stepStatement k (Scan.State.start.run text) (Standing.fresh.run text) c := by
  have hends : EndsAt text [c] := h.congr []
  have hterminator := Scan.isTerminator_of_statement hends.scan
  have hne : text ++ [c] ≠ ['/'] := by
    intro heq
    cases text with
    | nil =>
      cases heq
      cases hterminator
    | cons d text =>
      have hlength := congrArg List.length heq
      simp at hlength
  rw [run_between hends.begins hne, State.run_append,
    run_statement (Scan.passes_of_statementFrom hends.scan), Option.bind_some,
    State.run_singleton]
  rfl

theorem head_of_endsAt {text rest : Text} (h : EndsAt text rest) (ht : AsciiBlanks text) :
    ∀ c ∈ text.head?, isBlank c = false := by
  intro c hc
  have hspace : isAsciiSpace c = false := by
    apply head_of_beginsStatement h.begins c
    cases text with
    | nil => cases hc
    | cons d text => exact hc
  cases hblank : isBlank c with
  | false => rfl
  | true =>
    rw [ht c (List.mem_of_mem_head? hc) hblank] at hspace
    cases hspace

theorem stopsAt_of_endsAt {text rest : Text} {c : Char} (h : EndsAt text (c :: rest)) :
    (Scan.State.start.run text).stopsAt c = true :=
  Scan.stopsAt_of_statementFrom h.scan

theorem run_opening {text rest : Text} (h : EndsAt text ('\x7b' :: rest)) (k : Nat) :
    State.run ⟨k, .between⟩ (text ++ ['\x7b']) = some ⟨k + 1, .between⟩ := by
  rw [run_of_endsAt h, stepStatement, if_pos (stopsAt_of_endsAt h), if_pos rfl]

theorem sound_of_body? {raws : Raws} {text rest : Text} {c : Content} (h : EndsAt text rest)
    (ht : AsciiBlanks text) (hc : Statement.body? raws text.trimRight = some c) :
    Standing.fresh.run text = .sound := by
  apply (isSome_body?_trimRight (head_of_endsAt h ht)).mp
  rw [hc]
  rfl

theorem run_semicolon {raws : Raws} {text rest : Text} {c : Content}
    (h : EndsAt text (';' :: rest)) (ht : AsciiBlanks text)
    (hc : Statement.body? raws text.trimRight = some c) (k : Nat) :
    State.run ⟨k, .between⟩ (text ++ [';']) = some ⟨k, .between⟩ := by
  rw [run_of_endsAt h, stepStatement, if_pos (stopsAt_of_endsAt h), sound_of_body? h ht hc]
  rfl

theorem run_closing {raws : Raws} {text rest : Text} {c : Content}
    (h : EndsAt text ('\x7d' :: rest)) (ht : AsciiBlanks text)
    (hc : Statement.body? raws text.trimRight = some c) (k : Nat) :
    State.run ⟨k + 1, .between⟩ (text ++ ['\x7d']) = some ⟨k, .between⟩ := by
  rw [run_of_endsAt h, stepStatement, if_pos (stopsAt_of_endsAt h), sound_of_body? h ht hc]
  rfl

theorem run_commentStar {t : Text} (hne : t ≠ []) (h : t.head? ≠ some '/') (k : Nat) :
    State.run ⟨k, .commentStar⟩ t = State.run ⟨k, .comment⟩ t := by
  cases t with
  | nil => exact absurd rfl hne
  | cons c t =>
    have hslash : c ≠ '/' := by
      rintro rfl
      exact h rfl
    rw [State.run_cons, State.run_cons]
    simp only [State.step, if_neg hslash]

theorem run_comment {t text rest : Text} (h : Scan.comment? t = some (text, rest)) (k : Nat) :
    State.run ⟨k, .comment⟩ t = State.run ⟨k, .between⟩ rest := by
  induction t generalizing text with
  | nil => simp [Scan.comment?] at h
  | cons c t ih =>
    rw [Scan.comment?] at h
    split_ifs at h with hend
    · cases h
      obtain ⟨rfl, hslash⟩ := hend
      cases t with
      | nil => cases hslash
      | cons d t =>
        cases hslash
        rfl
    · obtain ⟨p, hp, heq⟩ := Option.map_eq_some_iff.mp h
      cases heq
      rw [State.run_cons]
      by_cases hstar : c = '*'
      · have hne : t ≠ [] := by
          rintro rfl
          simp [Scan.comment?] at hp
        have hhead : t.head? ≠ some '/' := fun hslash => hend ⟨hstar, hslash⟩
        simp only [State.step, if_pos hstar, Option.bind_some]
        rw [run_commentStar hne hhead, ih hp]
      · simp only [State.step, if_neg hstar, Option.bind_some]
        exact ih hp

/-- A comment that does not close goes on to the end. -/
theorem run_comment_of_eq_none {t : Text} (h : Scan.comment? t = none) (k : Nat) :
    State.run ⟨k, .comment⟩ t = some ⟨k, .comment⟩ ∨
      State.run ⟨k, .comment⟩ t = some ⟨k, .commentStar⟩ := by
  induction t with
  | nil => exact .inl rfl
  | cons c t ih =>
    rw [Scan.comment?] at h
    split_ifs at h with hend
    have hrest := ih (Option.map_eq_none_iff.mp h)
    rw [State.run_cons]
    by_cases hstar : c = '*'
    · simp only [State.step, if_pos hstar, Option.bind_some]
      cases t with
      | nil => exact .inr rfl
      | cons d t =>
        rw [run_commentStar (List.cons_ne_nil d t) fun hslash => hend ⟨hstar, hslash⟩]
        exact hrest
    · simp only [State.step, if_neg hstar, Option.bind_some]
      exact hrest

theorem run_before {before : Text} (hb : before.all isAsciiSpace = true) (k : Nat) (t : Text) :
    State.run ⟨k, .between⟩ (before ++ t) = State.run ⟨k, .between⟩ t :=
  State.run_append_of_run ((State.settled_between k).run hb) t

theorem run_closesAtEnd {text : Text} (h : Scan.ClosesAtEnd text) (k : Nat) (rest : Text) :
    State.run ⟨k, .between⟩ ('/' :: '*' :: text ++ '*' :: '/' :: rest) =
      State.run ⟨k, .between⟩ rest :=
  run_comment (h rest) k

/-- The text of a legible block and its closing brace leave nothing open. -/
theorem run_legible {stop : Text} {b : Block} (h : b.Legible stop) (hstop : stop = ['\x7d'])
    (hblanks : AsciiBlanks b.text) (k : Nat) :
    State.run ⟨k + 1, .between⟩ (b.text ++ ['\x7d']) = some ⟨k, .between⟩ := by
  induction h generalizing k with
  | @blank _ after ha =>
    rw [Block.text_blank, run_before ha]
    rfl
  | @comment _ before text b hb ht _ ih =>
    have happ : before ++ '/' :: '*' :: text ++ ['*', '/'] ++ b.text ++ ['\x7d'] =
        before ++ ('/' :: '*' :: text ++ '*' :: '/' :: (b.text ++ ['\x7d'])) := by simp
    rw [Block.text_push_comment] at hblanks ⊢
    rw [happ, run_before hb, run_closesAtEnd ht]
    exact ih hstop (asciiBlanks_append.mp hblanks).2 k
  | @statement _ before text c b hb ht hc _ ih =>
    have happ : before ++ text ++ [';'] ++ b.text ++ ['\x7d'] =
        before ++ (text ++ [';'] ++ (b.text ++ ['\x7d'])) := by simp
    rw [Block.text_push_statement hc] at hblanks ⊢
    simp only [asciiBlanks_append] at hblanks
    obtain ⟨⟨⟨-, htext⟩, -⟩, hrest⟩ := hblanks
    rw [happ, run_before hb, State.run_append_of_run (run_semicolon ht htext hc (k + 1))]
    exact ih hstop hrest k
  | @last _ before text c hb ht _ _ hc =>
    have happ : before ++ text.trimRight ++ text.trailingBlanks ++ ['\x7d'] =
        before ++ (text ++ ['\x7d']) := by
      conv_rhs => rw [← trimRight_append_trailingBlanks text]
      simp only [List.append_assoc]
    rw [Block.text_push_last hc] at hblanks ⊢
    rw [List.append_assoc, trimRight_append_trailingBlanks] at hblanks
    rw [happ, run_before hb]
    subst hstop
    exact run_closing ht (asciiBlanks_append.mp hblanks).2 hc k
  | @opening _ before text inner b hb ht _ _ ihinner ihb =>
    have happ : before ++ text ++ '\x7b' :: inner.text ++ '\x7d' :: b.text ++ ['\x7d'] =
        before ++ (text ++ ['\x7b'] ++ (inner.text ++ ['\x7d'] ++ (b.text ++ ['\x7d']))) := by simp
    rw [Block.text_push_opening] at hblanks ⊢
    simp only [asciiBlanks_append, asciiBlanks_cons] at hblanks
    rw [happ, run_before hb, State.run_append_of_run (run_opening ht (k + 1)),
      State.run_append_of_run (ihinner rfl hblanks.1.2.2 (k + 1))]
    exact ihb hstop hblanks.2.2 k

def State.Closable (q : State) : Prop :=
  match q.phase with
  | .between => True
  | .statement s st => s.stopsAt '\x7d' = true ∧ st = .sound
  | _ => False

theorem run_statement_cases {s : Scan.State} {st : Standing} {k : Nat} {t : Text} {q : State}
    (h : State.run ⟨k, .statement s st⟩ t = some q) :
    (s.passes t = true ∧ q = ⟨k, .statement (s.run t) (st.run t)⟩) ∨
      ∃ text c rest r, t = text ++ c :: rest ∧ s.passes text = true ∧
        (s.run text).stopsAt c = true ∧ stepStatement k (s.run text) (st.run text) c = some r ∧
        r.run rest = some q := by
  induction t generalizing s st with
  | nil =>
    cases h
    exact .inl ⟨rfl, rfl⟩
  | cons c t ih =>
    rw [State.run_cons] at h
    obtain ⟨r, hr, hrun⟩ := Option.bind_eq_some_iff.mp h
    cases hstop : s.stopsAt c with
    | true => exact .inr ⟨[], c, t, r, rfl, rfl, hstop, hr, hrun⟩
    | false =>
      simp only [State.step, stepStatement, hstop, if_neg Bool.false_ne_true] at hr
      cases hr
      have hpasses : ∀ u, s.passes (c :: u) = (s.step c).passes u := by
        intro u
        rw [Scan.State.passes, hstop, Bool.not_false, Bool.true_and]
      rcases ih hrun with ⟨hall, hq⟩ | ⟨text, d, rest, r, rfl, htext, hd, hr, hrest⟩
      · rw [hpasses]
        exact .inl ⟨hall, hq⟩
      · exact .inr ⟨c :: text, d, rest, r, rfl, by rwa [hpasses], hd, hr, hrest⟩

theorem beginsStatement_append {t : Text} (h : beginsStatement t = true) (hne : t ≠ ['/'])
    (u : Text) : beginsStatement (t ++ u) = true := by
  match t with
  | [] => cases h
  | [c] =>
    have hslash : c ≠ '/' := by
      rintro rfl
      exact hne rfl
    simpa [beginsStatement, hslash] using h
  | _ :: _ :: _ => exact h

theorem endsAt_of_passes {text rest : Text} {c : Char}
    (h : beginsStatement (text ++ c :: rest) = true) (hpasses : Scan.State.start.passes text = true)
    (hstop : (Scan.State.start.run text).stopsAt c = true) : EndsAt text (c :: rest) where
  begins := h
  scan := Scan.statementFrom_of_stopsAt hpasses hstop ..

/-- Texts of legible blocks, one more than the number of braces that close them. -/
inductive Divides : Nat → Text → Prop
  | inner {b : Block} (hb : b.Legible ['\x7d']) : Divides 0 b.text
  | closing {b : Block} {k : Nat} {t : Text} (hb : b.Legible ['\x7d']) (ht : Divides k t) :
      Divides (k + 1) (b.text ++ '\x7d' :: t)

theorem Divides.push {k : Nat} {x t : Text}
    (hx : ∀ b : Block, b.Legible ['\x7d'] →
      ∃ b' : Block, b'.Legible ['\x7d'] ∧ b'.text = x ++ b.text)
    (h : Divides k t) : Divides k (x ++ t) := by
  cases h with
  | @inner b hb =>
    obtain ⟨b', hb', htext⟩ := hx b hb
    rw [← htext]
    exact .inner hb'
  | @closing b k t hb ht =>
    obtain ⟨b', hb', htext⟩ := hx b hb
    rw [← List.append_assoc, ← htext]
    exact .closing hb' ht

theorem Divides.comment {before text t : Text} {k : Nat} (hb : before.all isAsciiSpace = true)
    (ht : Scan.ClosesAtEnd text) (h : Divides k t) :
    Divides k (before ++ '/' :: '*' :: text ++ ['*', '/'] ++ t) :=
  h.push fun b hlegible => ⟨_, .comment hb ht hlegible, Block.text_push_comment before text b⟩

theorem exists_body?_of_sound (raws : Raws) {text rest : Text} (h : EndsAt text rest)
    (hblanks : AsciiBlanks text) (hsound : Standing.fresh.run text = .sound) :
    ∃ c, Statement.body? raws text.trimRight = some c :=
  Option.isSome_iff_exists.mp ((isSome_body?_trimRight (head_of_endsAt h hblanks)).mpr hsound)

theorem Divides.statement {before text t : Text} {k : Nat} (hb : before.all isAsciiSpace = true)
    (ht : EndsAt text [';']) (hblanks : AsciiBlanks text)
    (hsound : Standing.fresh.run text = .sound) (h : Divides k t) :
    Divides k (before ++ text ++ [';'] ++ t) := by
  obtain ⟨c, hc⟩ := exists_body?_of_sound { before := before, after := text.trailingBlanks } ht
    hblanks hsound
  exact h.push fun b hlegible => ⟨_, .statement hb ht hc hlegible, Block.text_push_statement hc b⟩

theorem exists_legible_of_last {before text : Text} (hb : before.all isAsciiSpace = true)
    (ht : EndsAt text ['\x7d']) (hblanks : AsciiBlanks text)
    (hsound : Standing.fresh.run text = .sound) :
    ∃ b : Block, b.Legible ['\x7d'] ∧ b.text = before ++ text := by
  obtain ⟨c, hc⟩ := exists_body?_of_sound { before := before } ht hblanks hsound
  have hafter : text.trailingBlanks.all isAsciiSpace = true := by
    rw [← trimRight_append_trailingBlanks text, asciiBlanks_append] at hblanks
    exact hblanks.2.all_isAsciiSpace (isBlankText_trailingBlanks text)
  refine ⟨_, .last hb ht rfl hafter hc, ?_⟩
  rw [Block.text_push_last hc, List.append_assoc, trimRight_append_trailingBlanks]

theorem Divides.opening {before text t : Text} {k : Nat} (hb : before.all isAsciiSpace = true)
    (ht : EndsAt text ['\x7b']) (h : Divides (k + 1) t) :
    Divides k (before ++ text ++ '\x7b' :: t) := by
  cases h with
  | @closing inner _ u hinner hu =>
    have happ : before ++ text ++ '\x7b' :: (inner.text ++ '\x7d' :: u) =
        before ++ text ++ '\x7b' :: inner.text ++ ['\x7d'] ++ u := by simp
    rw [happ]
    apply hu.push
    intro b hlegible
    refine ⟨_, .opening hb ht hinner hlegible, ?_⟩
    rw [Block.text_push_opening]
    simp

/-- What ends a statement passes on to what follows. -/
theorem divides_of_stepStatement {before text rest : Text} {c : Char} {k : Nat} {r : State}
    (hb : before.all isAsciiSpace = true) (ht : EndsAt text (c :: rest))
    (hblanks : AsciiBlanks text)
    (hr : stepStatement k (Scan.State.start.run text) (Standing.fresh.run text) c = some r) :
    ∃ j, r = ⟨j, .between⟩ ∧ (Divides j rest → Divides k (before ++ (text ++ c :: rest))) := by
  rw [stepStatement, if_pos (stopsAt_of_endsAt ht)] at hr
  by_cases hopen : c = '\x7b'
  · subst hopen
    cases hr
    refine ⟨k + 1, rfl, fun h => ?_⟩
    rw [← List.append_assoc]
    exact h.opening hb (ht.congr [])
  rw [if_neg hopen] at hr
  by_cases hsound : Standing.fresh.run text = .sound
  · rw [if_neg (not_not_intro hsound)] at hr
    by_cases hsemi : c = ';'
    · subst hsemi
      cases hr
      refine ⟨k, rfl, fun h => ?_⟩
      have hdivides := h.statement hb (ht.congr []) hblanks hsound
      rwa [List.append_assoc, List.append_assoc] at hdivides
    · have hclose : c = '\x7d' := by
        simpa [Scan.isTerminator, hopen, hsemi] using Scan.isTerminator_of_statement ht.scan
      subst hclose
      cases k with
      | zero => cases hr
      | succ k =>
        cases hr
        refine ⟨k, rfl, fun h => ?_⟩
        obtain ⟨b, hlegible, htext⟩ := exists_legible_of_last hb (ht.congr []) hblanks hsound
        rw [← List.append_assoc, ← htext]
        exact .closing hlegible h
  · rw [if_pos hsound] at hr
    cases hr

theorem exists_comment_of_run {t : Text} {k : Nat} {q : State}
    (h : State.run ⟨k, .comment⟩ t = some q) (hq : q.Closable) :
    ∃ text rest, t = text ++ '*' :: '/' :: rest ∧ Scan.ClosesAtEnd text ∧
      State.run ⟨k, .between⟩ rest = some q := by
  cases hread : Scan.comment? t with
  | none =>
    rcases run_comment_of_eq_none hread k with hopen | hopen
    · rw [hopen] at h
      cases h
      exact hq.elim
    · rw [hopen] at h
      cases h
      exact hq.elim
  | some p =>
    obtain ⟨text, rest⟩ := p
    rw [run_comment hread] at h
    exact ⟨text, rest, Scan.eq_append_of_comment? hread, Scan.closesAtEnd_of_comment? hread, h⟩

theorem divides_of_statement {before t : Text} (hb : before.all isAsciiSpace = true)
    (hbegins : beginsStatement t = true) (hblanks : AsciiBlanks t) {k : Nat} {q : State}
    (h : State.run ⟨k, .between⟩ t = some q) (hlevel : q.level = 0) (hq : q.Closable)
    (ih : ∀ {j : Nat} {rest : Text}, rest.length < t.length → AsciiBlanks rest →
      State.run ⟨j, .between⟩ rest = some q → Divides j rest) :
    Divides k (before ++ t) := by
  have hne : t ≠ ['/'] := by
    rintro rfl
    cases h
    exact hq.elim
  rw [run_between hbegins hne] at h
  rcases run_statement_cases h with
    ⟨hpasses, rfl⟩ | ⟨text, d, rest, r, rfl, hpasses, hstop, hr, hrun⟩
  · have hzero : k = 0 := hlevel
    have hends : EndsAt t ['\x7d'] :=
      endsAt_of_passes (beginsStatement_append hbegins hne _) hpasses hq.1
    obtain ⟨b, hlegible, htext⟩ := exists_legible_of_last hb hends hblanks hq.2
    rw [hzero, ← htext]
    exact .inner hlegible
  · rw [asciiBlanks_append, asciiBlanks_cons] at hblanks
    obtain ⟨j, rfl, hput⟩ := divides_of_stepStatement hb
      (endsAt_of_passes hbegins hpasses hstop) hblanks.1 hr
    have hlength : rest.length < (text ++ d :: rest).length := by
      rw [List.length_append, List.length_cons]
      omega
    exact hput (ih hlength hblanks.2.2 hrun)

/-- A text whose outline closes `k` blocks, and may be followed by one more closing brace. -/
theorem divides_of_run {t : Text} (hblanks : AsciiBlanks t) {k : Nat} {q : State}
    (h : State.run ⟨k, .between⟩ t = some q) (hlevel : q.level = 0) (hq : q.Closable) :
    Divides k t := by
  induction hlen : t.length using Nat.strong_induction_on generalizing t k with
  | _ n ih =>
    obtain ⟨happ, hb, hhead⟩ := takeWhile_dropWhile_first t
    generalize t.takeWhile isAsciiSpace = before at happ hb
    generalize t.dropWhile isAsciiSpace = u at happ hhead
    subst happ
    rw [run_before hb] at h
    rw [asciiBlanks_append] at hblanks
    rw [List.length_append] at hlen
    cases u with
    | nil =>
      cases h
      have hzero : k = 0 := hlevel
      rw [hzero, List.append_nil]
      exact .inner (.blank hb)
    | cons c u =>
      have hspace := hhead c rfl
      rw [List.length_cons] at hlen
      by_cases hclose : c = '\x7d'
      · subst hclose
        cases k with
        | zero => cases h
        | succ k =>
          have hrest := ih u.length (by omega) (asciiBlanks_cons.mp hblanks.2).2 h rfl
          exact .closing (.blank hb) hrest
      by_cases hsemi : c = ';'
      · subst hsemi
        cases h
      by_cases hcomment : c = '/' ∧ u.head? = some '*'
      · obtain ⟨rfl, hstar⟩ := hcomment
        cases u with
        | nil => cases hstar
        | cons d v =>
          cases hstar
          change State.run ⟨k, .comment⟩ v = some q at h
          obtain ⟨text, rest, rfl, hends, hrun⟩ := exists_comment_of_run h hq
          simp only [asciiBlanks_cons, asciiBlanks_append] at hblanks
          simp only [List.length_cons, List.length_append] at hlen
          have hrest := ih rest.length (by omega) hblanks.2.2.2.2.2.2 hrun rfl
          have hdivides := hrest.comment hb hends
          simpa using hdivides
      · have hbegins : beginsStatement (c :: u) = true :=
          beginsStatement_of_ne hspace hclose hsemi fun hslash hstar => hcomment ⟨hslash, hstar⟩
        refine divides_of_statement hb hbegins hblanks.2 h hlevel hq ?_
        intro j rest hlt hrest hrun
        rw [List.length_cons] at hlt
        exact ih rest.length (by omega) hrest hrun rfl

/-- What the outline finds closed is the text of a legible block. -/
theorem exists_legible_of_run {t : Text} (hblanks : AsciiBlanks t) {q : State}
    (h : State.run ⟨0, .between⟩ t = some q) (hlevel : q.level = 0) (hq : q.Closable) :
    ∃ b : Block, b.Legible ['\x7d'] ∧ b.text = t := by
  cases divides_of_run hblanks h hlevel hq with
  | inner hb => exact ⟨_, hb, rfl⟩

end Outline
end UtilityCss
