import UtilityCss.Proofs.Stylesheet.Scanning
import UtilityCss.Stylesheet.Printing

/-!
# The outline of a text

Whether braces match and every statement is sound shows one character at a time, with no need to
divide the text into nodes. The state is the number of open blocks and what the last character was
part of; there is no next state where reading fails or meets a stray semicolon.
-/
namespace UtilityCss.Outline

open Text

/-- What the characters of a statement so far say about the statement as a whole, should it end
without a block. -/
inductive Standing
  | fresh
  /-- It still needs a colon. -/
  | pending
  /-- It began with a colon. -/
  | void
  | sound
  deriving DecidableEq, Repr

def Standing.next : Standing → Char → Standing
  | fresh, c => if c = '@' then sound else if c = ':' then void else pending
  | pending, c => if c = ':' then sound else pending
  | void, _ => void
  | sound, _ => sound

def Standing.run (st : Standing) (t : Text) : Standing := t.foldl next st

inductive Phase
  | between
  /-- Just after a slash that may open a comment. -/
  | slash
  | comment
  | commentStar
  | statement (scan : Scan.State) (standing : Standing)
  deriving DecidableEq, Repr

structure State where
  level : Nat
  phase : Phase
  deriving DecidableEq, Repr

/-- The state after a closing brace. -/
def close : Nat → Option State
  | 0 => none
  | k + 1 => some ⟨k, .between⟩

def stepStatement (k : Nat) (s : Scan.State) (st : Standing) (c : Char) : Option State :=
  if s.stopsAt c then
    if c = '\x7b' then some ⟨k + 1, .between⟩
    else if st ≠ .sound then none
    else if c = ';' then some ⟨k, .between⟩
    else close k
  else some ⟨k, .statement (s.step c) (st.next c)⟩

namespace State

def step (q : State) (c : Char) : Option State :=
  match q.phase with
  | .between =>
    if isAsciiSpace c then some q
    else if c = '\x7d' then close q.level
    else if c = ';' then none
    else if c = '/' then some ⟨q.level, .slash⟩
    else stepStatement q.level .start .fresh c
  | .slash =>
    if c = '*' then some ⟨q.level, .comment⟩ else stepStatement q.level ⟨0, .slash⟩ .pending c
  | .comment => some (if c = '*' then ⟨q.level, .commentStar⟩ else q)
  | .commentStar =>
    some (if c = '/' then ⟨q.level, .between⟩ else if c = '*' then q else ⟨q.level, .comment⟩)
  | .statement s st => stepStatement q.level s st c

def run : State → Text → Option State
  | q, [] => some q
  | q, c :: t => (q.step c).bind (run · t)

@[simp] theorem run_nil (q : State) : q.run [] = some q := rfl

theorem run_cons (q : State) (c : Char) (t : Text) : q.run (c :: t) = (q.step c).bind (run · t) :=
  rfl

theorem run_cons_of_step {q q' : State} {c : Char} (h : q.step c = some q') (t : Text) :
    q.run (c :: t) = q'.run t := by
  rw [run_cons, h, Option.bind_some]

theorem run_singleton (q : State) (c : Char) : q.run [c] = q.step c := by
  rw [run_cons]
  cases q.step c <;> rfl

theorem run_append (q : State) (a b : Text) : q.run (a ++ b) = (q.run a).bind (run · b) := by
  induction a generalizing q with
  | nil => rfl
  | cons c a ih =>
    rw [List.cons_append, run_cons, run_cons]
    cases h : q.step c with
    | none => rfl
    | some q' => exact ih q'

theorem run_append_of_run {q q' : State} {a : Text} (h : q.run a = some q') (b : Text) :
    q.run (a ++ b) = q'.run b := by
  rw [run_append, h, Option.bind_some]

end State

theorem Standing.next_of_isBlank {st : Standing} (hst : st ≠ .fresh) {c : Char}
    (hc : isBlank c = true) : st.next c = st := by
  have hcolon : c ≠ ':' := ne_of_isBlank hc rfl
  cases st with
  | fresh => exact absurd rfl hst
  | pending => exact if_neg hcolon
  | void => rfl
  | sound => rfl

/-- A blank makes no statement sound that was not sound before. -/
theorem Standing.eq_sound_of_next {st : Standing} {c : Char} (hc : isBlank c = true)
    (h : st.next c = .sound) : st = .sound := by
  cases st with
  | fresh =>
    have hat : c ≠ '@' := ne_of_isBlank hc rfl
    have hcolon : c ≠ ':' := ne_of_isBlank hc rfl
    rw [next, if_neg hat, if_neg hcolon] at h
    cases h
  | pending => rwa [next_of_isBlank (by simp) hc] at h
  | void => cases h
  | sound => rfl

theorem Standing.next_ne_fresh (st : Standing) (c : Char) : st.next c ≠ .fresh := by
  cases st with
  | fresh =>
    simp only [next]
    split_ifs <;> simp
  | pending =>
    simp only [next]
    split_ifs <;> simp
  | void => simp [next]
  | sound => simp [next]

theorem Standing.run_cons (st : Standing) (c : Char) (t : Text) :
    st.run (c :: t) = (st.next c).run t := rfl

theorem Standing.run_append (st : Standing) (a b : Text) :
    st.run (a ++ b) = (st.run a).run b := List.foldl_append

theorem Standing.run_of_isBlankText {st : Standing} (hst : st ≠ .fresh) {t : Text}
    (ht : t.isBlankText = true) : st.run t = st := by
  induction t with
  | nil => rfl
  | cons c t ih =>
    rw [isBlankText, List.all_cons, Bool.and_eq_true] at ht
    rw [run_cons, next_of_isBlank hst ht.1, ih ht.2]

theorem Standing.run_void (t : Text) : void.run t = void := by
  induction t with
  | nil => rfl
  | cons c t ih => exact ih

theorem Standing.run_sound (t : Text) : sound.run t = sound := by
  induction t with
  | nil => rfl
  | cons c t ih => exact ih

theorem Standing.run_pending_eq_sound_iff {t : Text} : pending.run t = sound ↔ ':' ∈ t := by
  induction t with
  | nil => simp [run]
  | cons c t ih =>
    rw [run_cons, List.mem_cons]
    by_cases hc : c = ':'
    · simp [hc, next, run_sound]
    · rw [next, if_neg hc, ih]
      exact (or_iff_right fun heq => hc heq.symm).symm

theorem Standing.run_ne_fresh {t : Text} (ht : t ≠ []) (st : Standing) : st.run t ≠ .fresh := by
  induction t generalizing st with
  | nil => exact absurd rfl ht
  | cons c t ih =>
    rw [run_cons]
    cases t with
    | nil => exact next_ne_fresh st c
    | cons d t => exact ih (List.cons_ne_nil d t) (st.next c)

theorem stepStatement_of_isBlank (k : Nat) (s : Scan.State) (st : Standing) {c : Char}
    (hc : isBlank c = true) :
    stepStatement k s st c = some ⟨k, .statement (s.step c) (st.next c)⟩ := by
  rw [stepStatement, Scan.State.stopsAt_eq_false_of_isBlank s hc, if_neg Bool.false_ne_true]

def State.Sane (q : State) : Prop :=
  match q.phase with
  | .statement s _ => s.Sane
  | _ => True

theorem sane_of_stepStatement {k : Nat} {s : Scan.State} {st : Standing} {c : Char} {q : State}
    (hs : s.Sane) (h : stepStatement k s st c = some q) : q.Sane := by
  unfold stepStatement close at h
  split at h
  · split_ifs at h
    · cases h
      exact trivial
    · cases h
      exact trivial
    · split at h <;> cases h
      exact trivial
  · cases h
    exact hs.step c

theorem State.Sane.step {q q' : State} {c : Char} (hq : q.Sane) (h : q.step c = some q') :
    q'.Sane := by
  rcases q with ⟨k, phase⟩
  cases phase with
  | between =>
    simp only [State.step, close] at h
    split_ifs at h
    · cases h
      exact trivial
    · split at h <;> cases h
      exact trivial
    · cases h
      exact trivial
    · exact sane_of_stepStatement (s := .start) trivial h
  | slash =>
    simp only [State.step] at h
    split_ifs at h
    · cases h
      exact trivial
    · exact sane_of_stepStatement (s := ⟨0, .slash⟩) trivial h
  | comment =>
    simp only [State.step] at h
    split_ifs at h <;> cases h <;> exact trivial
  | commentStar =>
    simp only [State.step] at h
    split_ifs at h <;> cases h <;> exact trivial
  | statement s st => exact sane_of_stepStatement hq h

theorem State.Sane.run {q q' : State} {t : Text} (hq : q.Sane) (h : q.run t = some q') :
    q'.Sane := by
  induction t generalizing q with
  | nil =>
    cases h
    exact hq
  | cons c t ih =>
    rw [run_cons] at h
    obtain ⟨r, hr, hrun⟩ := Option.bind_eq_some_iff.mp h
    exact ih (hq.step hr) hrun

structure State.Settled (q : State) : Prop where
  sane : q.Sane
  step : ∀ c, isAsciiSpace c = true → q.step c = some q

theorem State.settled_between (k : Nat) : Settled ⟨k, .between⟩ where
  sane := trivial
  step := by
    intro c hc
    simp [State.step, hc]

/-- Nowhere does a blank make reading fail, and after it no further blank changes anything. -/
theorem State.Sane.step_of_isAsciiSpace {q : State} (hq : q.Sane) {c : Char}
    (hc : isAsciiSpace c = true) : ∃ q', q.step c = some q' ∧ q'.Settled := by
  have hblank : isBlank c = true := isBlank_of_isAsciiSpace hc
  have hstar : ∀ {a : Char}, isAsciiSpace a = true → a ≠ '*' := fun ha =>
    ne_of_isBlank (isBlank_of_isAsciiSpace ha) rfl
  have hsettled : ∀ (k : Nat) (s : Scan.State) (st : Standing), s.Sane →
      Settled ⟨k, .statement (s.step c) (st.next c)⟩ := by
    intro k s st hs
    refine ⟨hs.step c, fun d hd => ?_⟩
    have hd' : isBlank d = true := isBlank_of_isAsciiSpace hd
    have hstep := stepStatement_of_isBlank k (s.step c) (st.next c) hd'
    rw [hs.step_step hblank hd', Standing.next_of_isBlank (st.next_ne_fresh c) hd'] at hstep
    exact hstep
  rcases q with ⟨k, phase⟩
  cases phase with
  | between => exact ⟨_, (settled_between k).step c hc, settled_between k⟩
  | slash =>
    refine ⟨_, ?_, hsettled k ⟨0, .slash⟩ .pending trivial⟩
    simp only [State.step, if_neg (hstar hc), stepStatement_of_isBlank _ _ _ hblank]
  | comment =>
    refine ⟨⟨k, .comment⟩, ?_, trivial, fun d hd => ?_⟩
    · simp only [State.step, if_neg (hstar hc)]
    · simp only [State.step, if_neg (hstar hd)]
  | commentStar =>
    have hslash : c ≠ '/' := ne_of_isBlank hblank rfl
    refine ⟨⟨k, .comment⟩, ?_, trivial, fun d hd => ?_⟩
    · simp only [State.step, if_neg hslash, if_neg (hstar hc)]
    · simp only [State.step, if_neg (hstar hd)]
  | statement s st => exact ⟨_, stepStatement_of_isBlank k s st hblank, hsettled k s st hq⟩

theorem State.Settled.run {q : State} (hq : q.Settled) {t : Text}
    (ht : t.all isAsciiSpace = true) : q.run t = some q := by
  induction t with
  | nil => rfl
  | cons c t ih =>
    rw [List.all_cons, Bool.and_eq_true] at ht
    rw [run_cons_of_step (hq.step c ht.1), ih ht.2]

theorem State.Settled.run_indentLine {q : State} (hq : q.Settled) {line : Text}
    (hline : AsciiBlanks line) : q.run (indentLine line) = q.run line := by
  unfold indentLine
  split_ifs with hblank
  · rw [hq.run (hline.all_isAsciiSpace hblank)]
    rfl
  · rw [run_cons_of_step (hq.step ' ' rfl), run_cons_of_step (hq.step ' ' rfl)]

theorem State.Settled.run_intercalate_indentLine {q : State} (hq : q.Settled) {lines : List Text}
    (hlines : AsciiBlanks (['\n'].intercalate lines)) :
    q.run (['\n'].intercalate (lines.map indentLine)) = q.run (['\n'].intercalate lines) := by
  induction lines generalizing q with
  | nil => rfl
  | cons line rest ih =>
    cases rest with
    | nil =>
      rw [List.intercalate_singleton] at hlines
      rw [List.map_singleton, List.intercalate_singleton, List.intercalate_singleton,
        hq.run_indentLine hlines]
    | cons next rest =>
      rw [List.intercalate_cons_cons, List.append_assoc, asciiBlanks_append] at hlines
      rw [List.map_cons, List.map_cons, List.intercalate_cons_cons, List.intercalate_cons_cons,
        List.append_assoc, List.append_assoc, run_append, hq.run_indentLine hlines.1, run_append]
      cases hrun : q.run line with
      | none => rfl
      | some r =>
        obtain ⟨r', hstep, hsettled⟩ := (hq.sane.run hrun).step_of_isAsciiSpace (c := '\n') rfl
        rw [Option.bind_some, Option.bind_some, List.singleton_append, List.singleton_append,
          run_cons_of_step hstep, run_cons_of_step hstep, ← List.map_cons]
        exact ih hsettled (asciiBlanks_append.mp hlines.2).2

theorem State.Settled.run_indent {q : State} (hq : q.Settled) {t : Text} (ht : AsciiBlanks t) :
    q.run (indent t) = q.run t := by
  have hjoin : ['\n'].intercalate (t.splitOn '\n') = t := List.intercalate_splitOn '\n'
  rw [indent, hq.run_intercalate_indentLine (by rwa [hjoin]), hjoin]

/-- The second state is the first, or a sound statement goes on in it where the first one has begun
something new. So it is behind a backslash that escapes the semicolon meant to end the statement. -/
inductive State.Joined : State → State → Prop
  | same (q : State) : Joined q q
  | between (k : Nat) : Joined ⟨k, .between⟩ ⟨k, .statement .start .sound⟩
  | slash (k : Nat) : Joined ⟨k, .slash⟩ ⟨k, .statement ⟨0, .slash⟩ .sound⟩
  | comment (k : Nat) : Joined ⟨k, .comment⟩ ⟨k, .statement ⟨0, .comment⟩ .sound⟩
  | commentStar (k : Nat) : Joined ⟨k, .commentStar⟩ ⟨k, .statement ⟨0, .commentStar⟩ .sound⟩
  | statement (k : Nat) (s : Scan.State) (st : Standing) :
      Joined ⟨k, .statement s st⟩ ⟨k, .statement s .sound⟩

theorem joined_of_stepStatement {k : Nat} {s : Scan.State} {st : Standing} {c : Char} {q : State}
    (h : stepStatement k s st c = some q) :
    ∃ r, stepStatement k s .sound c = some r ∧ q.Joined r := by
  by_cases hstop : s.stopsAt c = true
  · -- The terminator acts alike, and a brace that opens a block acts so on any statement.
    have hsame : stepStatement k s .sound c = some q := by
      unfold stepStatement at h ⊢
      rw [if_pos hstop] at h ⊢
      by_cases hopen : c = '\x7b'
      · rwa [if_pos hopen] at h ⊢
      · rw [if_neg hopen] at h ⊢
        by_cases hst : st = .sound
        · rwa [hst] at h
        · rw [if_pos hst] at h
          cases h
    exact ⟨q, hsame, .same q⟩
  · unfold stepStatement at h ⊢
    rw [if_neg hstop] at h ⊢
    cases h
    exact ⟨_, rfl, .statement k _ _⟩

theorem State.Joined.step {q r q' : State} {c : Char} (h : q.Joined r) (hq : q.step c = some q') :
    ∃ r', r.step c = some r' ∧ q'.Joined r' := by
  cases h with
  | same => exact ⟨q', hq, .same q'⟩
  | between k =>
    simp only [State.step] at hq ⊢
    split_ifs at hq with hspace hclose hsemi hslash
    · cases hq
      have hblank := isBlank_of_isAsciiSpace hspace
      have hstart : Scan.State.start.step c = .start := Scan.State.stepCode_of_isBlank _ hblank
      rw [stepStatement_of_isBlank k _ _ hblank, hstart]
      exact ⟨_, rfl, .between k⟩
    · subst hclose
      exact ⟨q', hq, .same q'⟩
    · cases hq
      subst hslash
      exact ⟨_, rfl, .slash k⟩
    · exact joined_of_stepStatement hq
  | slash k =>
    simp only [State.step] at hq ⊢
    split_ifs at hq with hstar
    · cases hq
      subst hstar
      exact ⟨_, rfl, .comment k⟩
    · exact joined_of_stepStatement hq
  | comment k =>
    simp only [State.step] at hq ⊢
    split_ifs at hq with hstar
    · cases hq
      subst hstar
      exact ⟨_, rfl, .commentStar k⟩
    · cases hq
      refine ⟨⟨k, .statement ⟨0, .comment⟩ .sound⟩, ?_, .comment k⟩
      simp [stepStatement, Scan.State.stopsAt, Scan.State.inCode, Scan.State.step, hstar,
        Standing.next]
  | commentStar k =>
    simp only [State.step] at hq ⊢
    split_ifs at hq with hslash hstar
    · cases hq
      subst hslash
      exact ⟨_, rfl, .between k⟩
    · cases hq
      subst hstar
      exact ⟨_, rfl, .commentStar k⟩
    · cases hq
      refine ⟨⟨k, .statement ⟨0, .comment⟩ .sound⟩, ?_, .comment k⟩
      simp [stepStatement, Scan.State.stopsAt, Scan.State.inCode, Scan.State.step, hslash, hstar,
        Standing.next]
  | statement k s st => exact joined_of_stepStatement hq

theorem State.Joined.run {q r q' : State} {t : Text} (h : q.Joined r) (hq : q.run t = some q') :
    ∃ r', r.run t = some r' ∧ q'.Joined r' := by
  induction t generalizing q r with
  | nil =>
    cases hq
    exact ⟨r, rfl, h⟩
  | cons c t ih =>
    rw [run_cons] at hq
    obtain ⟨p, hp, hrun⟩ := Option.bind_eq_some_iff.mp hq
    obtain ⟨u, hu, hjoined⟩ := h.step hp
    rw [run_cons_of_step hu]
    exact ih hjoined hrun

theorem State.Joined.trans {q r u : State} (h : q.Joined r) (h' : r.Joined u) : q.Joined u := by
  cases h with
  | same => exact h'
  | between k =>
    cases h' with
    | same => exact .between k
    | statement => exact .between k
  | slash k =>
    cases h' with
    | same => exact .slash k
    | statement => exact .slash k
  | comment k =>
    cases h' with
    | same => exact .comment k
    | statement => exact .comment k
  | commentStar k =>
    cases h' with
    | same => exact .commentStar k
    | statement => exact .commentStar k
  | statement k s st =>
    cases h' with
    | same => exact .statement k s st
    | statement => exact .statement k s st

theorem State.Joined.settled {k : Nat} {r : State} (h : Joined ⟨k, .between⟩ r) : r.Settled := by
  cases h with
  | same => exact settled_between k
  | between =>
    refine ⟨trivial, fun c hc => ?_⟩
    have hblank := isBlank_of_isAsciiSpace hc
    have hstart : Scan.State.start.step c = .start := Scan.State.stepCode_of_isBlank _ hblank
    have hstep := stepStatement_of_isBlank k .start .sound hblank
    rw [hstart] at hstep
    exact hstep

end UtilityCss.Outline
