import Mathlib
import UtilityCss.Text.Segment

/-!
# Pieces and the texts they make up

The pieces of a text, joined by the separator, are the text, and none of them can be cut further.
Pieces that no separator cuts, of which all but the last leave nothing open, are the pieces of the
text that they make up. Where nothing is open, a separator cuts off what stands before it.
-/
namespace UtilityCss.Segment

namespace State

def uncut (sep : Char) : State → Text → Bool
  | _, [] => true
  | s, c :: cs => !s.cutsAt sep c && (s.step c).uncut sep cs

@[simp] theorem run_nil (s : State) : s.run [] = s := rfl

@[simp] theorem run_cons (s : State) (c : Char) (t : Text) : s.run (c :: t) = (s.step c).run t :=
  rfl

theorem run_append (s : State) (a b : Text) : s.run (a ++ b) = (s.run a).run b := by
  simp [run]

theorem uncut_append (sep : Char) (s : State) (a b : Text) :
    s.uncut sep (a ++ b) = (s.uncut sep a && (s.run a).uncut sep b) := by
  induction a generalizing s with
  | nil => rfl
  | cons c a ih => simp only [List.cons_append, uncut, ih, run_cons, Bool.and_assoc]

/-- What is open after a text while it is being cut: a separator that cuts is passed over, also
where it is a bracket, a quote or a backslash. -/
def scan (sep : Char) : State → Text → State
  | s, [] => s
  | s, c :: cs => if s.cutsAt sep c then s.scan sep cs else (s.step c).scan sep cs

theorem scan_of_uncut {sep : Char} {s : State} {t : Text} (h : s.uncut sep t = true) :
    s.scan sep t = s.run t := by
  induction t generalizing s with
  | nil => rfl
  | cons c t ih =>
    simp only [uncut, Bool.and_eq_true, Bool.not_eq_true'] at h
    simp [scan, h.1, ih h.2]

end State

variable {sep : Char}

theorem splitFrom_of_uncut {s : State} {t : Text} (h : s.uncut sep t = true) :
    splitFrom sep s t = [t] := by
  induction t generalizing s with
  | nil => rfl
  | cons c t ih =>
    rw [State.uncut, Bool.and_eq_true, Bool.not_eq_true'] at h
    simp [splitFrom, h.1, ih h.2]

/-- Where nothing is open, a separator divides a text into parts that are cut on their own. -/
theorem splitFrom_append {s : State} {a : Text} (h : s.scan sep a = .start) (b : Text) :
    splitFrom sep s (a ++ sep :: b) = splitFrom sep s a ++ split sep b := by
  induction a generalizing s with
  | nil =>
    obtain rfl : s = .start := h
    simp [splitFrom, State.cutsAt, split]
  | cons c a ih =>
    rw [State.scan] at h
    rw [List.cons_append, splitFrom, splitFrom]
    split_ifs at h ⊢ with hcut
    · simp [ih h]
    · obtain ⟨p, ps, hp⟩ := List.exists_cons_of_ne_nil (splitFrom_ne_nil sep (s.step c) a)
      simp [ih h, hp]

inductive Separated (sep : Char) : List Text → Prop
  | last {p : Text} (h : State.start.uncut sep p = true) : Separated sep [p]
  | cons {p : Text} {ps : List Text} (h : State.start.uncut sep p = true)
      (hrun : State.start.run p = .start) (rest : Separated sep ps) : Separated sep (p :: ps)

theorem join_cons {p : Text} {ps : List Text} (h : ps ≠ []) :
    join sep (p :: ps) = p ++ sep :: join sep ps := by
  obtain ⟨q, ps, rfl⟩ := List.exists_cons_of_ne_nil h
  rw [join, List.intercalate_cons_cons, List.append_assoc]
  rfl

theorem join_append_last (sep : Char) (ps : List Text) (p t : Text) :
    join sep (ps ++ [p ++ t]) = join sep (ps ++ [p]) ++ t := by
  induction ps with
  | nil => simp [join]
  | cons q ps ih =>
    rw [List.cons_append, List.cons_append, join_cons (by simp), join_cons (by simp), ih,
      List.append_assoc, List.cons_append]

theorem Separated.ne_nil {ps : List Text} (h : Separated sep ps) : ps ≠ [] := by
  cases h <;> simp

/-- Joined pieces are cut where they were joined. -/
theorem Separated.split_join {ps : List Text} (h : Separated sep ps) :
    split sep (join sep ps) = ps := by
  induction h with
  | @last p h =>
    have hjoin : join sep [p] = p := List.intercalate_singleton
    rw [hjoin, split, splitFrom_of_uncut h]
  | cons h hrun rest ih =>
    have hscan := (State.scan_of_uncut h).trans hrun
    rw [join_cons rest.ne_nil, split, splitFrom_append hscan, splitFrom_of_uncut h, ih]
    rfl

theorem separated_cons_iff {p : Text} {ps : List Text} :
    Separated sep (p :: ps) ↔
      State.start.uncut sep p = true ∧
        (ps = [] ∨ (State.start.run p = .start ∧ Separated sep ps)) := by
  constructor
  · intro h
    cases h with
    | last h => exact ⟨h, .inl rfl⟩
    | cons h hrun rest => exact ⟨h, .inr ⟨hrun, rest⟩⟩
  · rintro ⟨h, rfl | ⟨hrun, rest⟩⟩
    · exact .last h
    · exact .cons h hrun rest

theorem Separated.uncut_of_mem {ps : List Text} (h : Separated sep ps) {p : Text} (hp : p ∈ ps) :
    State.start.uncut sep p = true := by
  induction h with
  | last h =>
    obtain rfl := List.mem_singleton.mp hp
    exact h
  | cons h _ _ ih =>
    rcases List.mem_cons.mp hp with rfl | hp
    · exact h
    · exact ih hp

theorem Separated.uncut_last {ps : List Text} {p : Text} (h : Separated sep (ps ++ [p])) :
    State.start.uncut sep p = true :=
  h.uncut_of_mem (by simp)

theorem Separated.replace_last {ps : List Text} {p q : Text} (h : Separated sep (ps ++ [p]))
    (hq : State.start.uncut sep q = true) : Separated sep (ps ++ [q]) := by
  induction ps with
  | nil => exact .last hq
  | cons a ps ih =>
    obtain ⟨ha, hnil | ⟨hrun, rest⟩⟩ := separated_cons_iff.mp h
    · simp at hnil
    · exact .cons ha hrun (ih rest)

/-- The first piece goes on from the state in which the text began, and the others are separated. -/
theorem splitFrom_cases (sep : Char) (s : State) (t : Text) :
    ∃ p ps, splitFrom sep s t = p :: ps ∧ s.uncut sep p = true ∧
      ((ps = [] ∧ p = t) ∨
        (s.run p = .start ∧ Separated sep ps ∧ t = p ++ sep :: join sep ps)) := by
  induction t generalizing s with
  | nil => exact ⟨[], [], rfl, rfl, .inl ⟨rfl, rfl⟩⟩
  | cons c t ih =>
    by_cases hcut : s.cutsAt sep c = true
    · obtain ⟨p, ps, hsplit, hp, hrest⟩ := ih s
      have hstart : s = .start ∧ c = sep := by simpa [State.cutsAt] using hcut
      obtain ⟨rfl, rfl⟩ := hstart
      refine ⟨[], p :: ps, ?_, rfl, .inr ⟨rfl, ?_, ?_⟩⟩
      · rw [splitFrom, if_pos hcut, hsplit]
      · rcases hrest with ⟨rfl, -⟩ | ⟨hrun, hps, -⟩
        · exact .last hp
        · exact .cons hp hrun hps
      · rcases hrest with ⟨rfl, rfl⟩ | ⟨-, hps, rfl⟩
        · simp [join]
        · rw [join_cons hps.ne_nil]
          rfl
    · obtain ⟨p, ps, hsplit, hp, hrest⟩ := ih (s.step c)
      refine ⟨c :: p, ps, ?_, ?_, ?_⟩
      · rw [splitFrom, if_neg hcut, hsplit, List.modifyHead_cons]
      · rw [State.uncut, hp, Bool.and_true, Bool.not_eq_true']
        simpa using hcut
      · rcases hrest with ⟨rfl, rfl⟩ | ⟨hrun, hps, rfl⟩
        · exact .inl ⟨rfl, rfl⟩
        · exact .inr ⟨hrun, hps, rfl⟩

/-- The pieces of a text are separated and make it up. -/
theorem separated_split (sep : Char) (t : Text) :
    Separated sep (split sep t) ∧ join sep (split sep t) = t := by
  obtain ⟨p, ps, hsplit, hp, ⟨rfl, rfl⟩ | ⟨hrun, hps, rfl⟩⟩ := splitFrom_cases sep .start t
  · rw [split, hsplit]
    exact ⟨.last hp, List.intercalate_singleton⟩
  · rw [split, hsplit, join_cons hps.ne_nil]
    exact ⟨.cons hp hrun hps, rfl⟩

theorem mem_of_mem_join {d : Char} {ps : List Text} {p : Text} (hp : p ∈ ps) (hd : d ∈ p) :
    d ∈ join sep ps := by
  induction ps with
  | nil => cases hp
  | cons q ps ih =>
    cases ps with
    | nil =>
      rw [List.mem_singleton.mp hp] at hd
      simpa [join] using hd
    | cons q' ps =>
      rw [join_cons (List.cons_ne_nil q' ps), List.mem_append]
      rcases List.mem_cons.mp hp with rfl | hp
      · exact .inl hd
      · exact .inr (List.mem_cons_of_mem _ (ih hp))

theorem mem_of_mem_split {d : Char} {t p : Text} (hp : p ∈ split sep t) (hd : d ∈ p) :
    d ∈ t := by
  rw [← (separated_split sep t).2]
  exact mem_of_mem_join hp hd

def State.Sane (s : State) : Prop :=
  (∀ c ∈ s.closing, c ∈ [')', ']', '\x7d']) ∧
    ∀ q, s.mode = .quoted q ∨ s.mode = .quotedEscaped q → Text.isQuote q = true

theorem mem_of_closer? {c close : Char} (h : closer? c = some close) :
    close ∈ [')', ']', '\x7d'] := by
  unfold closer? at h
  split at h <;> cases h <;> simp

theorem State.Sane.step {s : State} (h : s.Sane) (c : Char) : (s.step c).Sane := by
  obtain ⟨hclosing, hquote⟩ := h
  rcases s with ⟨closing, mode⟩
  cases mode with
  | escaped => exact ⟨hclosing, by simp [State.step]⟩
  | quotedEscaped q => exact ⟨hclosing, by simpa [State.step] using hquote⟩
  | quoted q =>
    simp only [State.step]
    split_ifs
    · exact ⟨hclosing, by simpa using hquote⟩
    · exact ⟨hclosing, by simp⟩
    · exact ⟨hclosing, hquote⟩
  | plain =>
    simp only [State.step]
    split_ifs with hescape hmark
    · exact ⟨hclosing, by simp⟩
    · refine ⟨hclosing, fun q hq => ?_⟩
      rcases hq with hq | hq <;> cases hq
      exact hmark
    · cases hcloser : closer? c with
      | none => exact ⟨fun d hd => hclosing d (List.mem_of_mem_tail hd), hquote⟩
      | some close => exact ⟨List.forall_mem_cons.mpr ⟨mem_of_closer? hcloser, hclosing⟩, hquote⟩
    · cases hcloser : closer? c with
      | none => exact ⟨hclosing, hquote⟩
      | some close => exact ⟨List.forall_mem_cons.mpr ⟨mem_of_closer? hcloser, hclosing⟩, hquote⟩

theorem State.Sane.run {s : State} (h : s.Sane) (t : Text) : (s.run t).Sane := by
  induction t generalizing s with
  | nil => exact h
  | cons c t ih => exact ih (h.step c)

theorem State.sane_start : start.Sane := ⟨by simp [start], by simp [start]⟩

/-- After an opening bracket a colon is an ordinary character, whether or not it is in a string. -/
theorem State.Sane.step_bracket_colon {s : State} (h : s.Sane) :
    (s.step '[').step ':' = s.step '[' := by
  have hcolon : ∀ closing : List Char, (∀ c ∈ closing, c ∈ [')', ']', '\x7d']) →
      State.step ⟨closing, .plain⟩ ':' = ⟨closing, .plain⟩ := by
    intro closing hclosing
    have hhead : closing.head? ≠ some ':' := by
      intro heq
      have hmem := hclosing ':' (List.mem_of_mem_head? heq)
      simp at hmem
    simp [State.step, Text.isQuote, closer?, hhead]
  obtain ⟨hclosing, hquote⟩ := h
  rcases s with ⟨closing, mode⟩
  cases mode with
  | escaped => exact hcolon closing hclosing
  | plain =>
    refine hcolon (']' :: closing) fun c hc => ?_
    rcases List.mem_cons.mp hc with rfl | hc
    · simp
    · exact hclosing c hc
  | quoted q =>
    have hq : Text.isQuote q = true := hquote q (.inl rfl)
    have hbracket : '[' ≠ q := by
      rintro rfl
      cases hq
    have hmark : ':' ≠ q := by
      rintro rfl
      cases hq
    simp [State.step, hbracket, hmark]
  | quotedEscaped q =>
    have hq : Text.isQuote q = true := hquote q (.inr rfl)
    have hmark : ':' ≠ q := by
      rintro rfl
      cases hq
    simp [State.step, hmark]

theorem uncut_of_bracket_colon {a b : Text}
    (h : State.start.uncut sep (a ++ '[' :: ':' :: b) = true) :
    State.start.uncut sep (a ++ '[' :: b) = true ∧
      State.start.run (a ++ '[' :: b) = State.start.run (a ++ '[' :: ':' :: b) := by
  have hstep := (State.sane_start.run a).step_bracket_colon
  constructor
  · simp only [State.uncut_append, State.uncut, Bool.and_eq_true, hstep] at h ⊢
    exact ⟨h.1, h.2.1, h.2.2.2⟩
  · simp only [State.run_append, State.run_cons, hstep]

end UtilityCss.Segment
