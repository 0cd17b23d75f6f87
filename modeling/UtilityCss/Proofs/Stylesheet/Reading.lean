import UtilityCss.Proofs.Stylesheet.Scanning
import UtilityCss.Proofs.Stylesheet.Spelling

/-!
# Reading one event after the other

Each event is spelled by the characters it takes, and whether they spell it depends on what follows
only where a brace or the end cuts a statement short.
-/
namespace UtilityCss

namespace Event

open Text

/-- A statement, and nothing else, begins with the first character. -/
def beginsStatement : Text → Bool
  | [] => false
  | c :: cs => !isAsciiSpace c && c != '\x7d' && c != ';' && !(c == '/' && cs.head? == some '*')

def endsBlock : Text → Bool
  | [] => true
  | c :: _ => c = '\x7d'

/-- A statement begins with `text` and goes on to where `rest` begins. -/
structure EndsAt (text rest : Text) : Prop where
  begins : beginsStatement (text ++ rest) = true
  scan : Scan.statement (text ++ rest) = .ok (text, rest)

inductive Spells : Text → Event → Text → Prop
  | comment {before text rest : Text} (hb : before.all isAsciiSpace = true)
      (ht : Scan.ClosesAtEnd text) :
      Spells (before ++ '/' :: '*' :: text ++ ['*', '/'])
        (.comment ⟨.comment text, { before := before }⟩) rest
  | statement {before text rest : Text} {c : Content} (hb : before.all isAsciiSpace = true)
      (ht : EndsAt text (';' :: rest))
      (hc : Statement.body? { before := before, after := text.trailingBlanks } text.trimRight =
        some c) :
      Spells (before ++ text ++ [';']) (.statement c true) rest
  | last {before text rest : Text} {c : Content} (hb : before.all isAsciiSpace = true)
      (ht : EndsAt text rest) (hrest : endsBlock rest = true)
      (hc : Statement.body? { before := before } text.trimRight = some c) :
      Spells (before ++ text.trimRight) (.statement c false) (text.trailingBlanks ++ rest)
  | opening {before text rest : Text} (hb : before.all isAsciiSpace = true)
      (ht : EndsAt text ('\x7b' :: rest)) :
      Spells (before ++ text ++ ['\x7b'])
        (.opening (Statement.prelude before text) ('\x7b' :: rest)) rest
  | closing {before rest : Text} (hb : before.all isAsciiSpace = true) :
      Spells (before ++ ['\x7d']) (.closing before ('\x7d' :: rest)) rest
  | stray {before rest : Text} (hb : before.all isAsciiSpace = true) :
      Spells (before ++ [';']) (.stray before) rest

theorem head_of_beginsStatement {t : Text} (h : beginsStatement t = true) :
    ∀ c ∈ t.head?, isAsciiSpace c = false := by
  intro c hc
  cases t with
  | nil => cases hc
  | cons d ds =>
    cases hc
    simp only [beginsStatement, Bool.and_eq_true, Bool.not_eq_true'] at h
    exact h.1.1.1

theorem ofText_of_beginsStatement {t : Text} (h : beginsStatement t = true) (before : Text) :
    ofText before t = ofStatement before t := by
  unfold ofText
  split
  · cases h
  · simp [beginsStatement] at h
  · simp [beginsStatement] at h
  · simp [beginsStatement] at h
  · rfl

theorem beginsStatement_of_ne {c : Char} {cs : Text} (hspace : isAsciiSpace c = false)
    (hclose : c ≠ '\x7d') (hsemi : c ≠ ';') (hcomment : c = '/' → cs.head? ≠ some '*') :
    beginsStatement (c :: cs) = true := by
  have hstar : (c == '/' && cs.head? == some '*') = false := by
    by_cases hc : c = '/'
    · simp [hc, hcomment hc]
    · simp [hc]
  simp [beginsStatement, hspace, hclose, hsemi, hstar]

theorem beginsStatement_of_forall_ne {t : Text} (hspace : ∀ c ∈ t.head?, isAsciiSpace c = false)
    (hnil : t = [] → False) (hclose : ∀ rest, t = '\x7d' :: rest → False)
    (hsemi : ∀ rest, t = ';' :: rest → False) (hcomment : ∀ rest, t = '/' :: '*' :: rest → False) :
    beginsStatement t = true := by
  cases t with
  | nil => exact absurd rfl hnil
  | cons c cs =>
    refine beginsStatement_of_ne (hspace c rfl) ?_ ?_ ?_
    · rintro rfl
      exact hclose cs rfl
    · rintro rfl
      exact hsemi cs rfl
    · rintro rfl hstar
      cases cs with
      | nil => cases hstar
      | cons d ds =>
        cases hstar
        exact hcomment ds rfl

theorem first_of_head {before t : Text} (hb : before.all isAsciiSpace = true)
    (ht : ∀ c ∈ t.head?, isAsciiSpace c = false) : first (before ++ t) = ofText before t := by
  rw [first, takeWhile_asciiSpace_append hb ht, dropWhile_asciiSpace_append hb ht]

theorem first_of_beginsStatement {before t : Text} (hb : before.all isAsciiSpace = true)
    (ht : beginsStatement t = true) : first (before ++ t) = ofStatement before t := by
  rw [first_of_head hb (head_of_beginsStatement ht), ofText_of_beginsStatement ht]

theorem beginsStatement_congr {text rest : Text} {c : Char} (hc : Scan.isTerminator c = true)
    (h : beginsStatement (text ++ c :: rest) = true) (rest' : Text) :
    beginsStatement (text ++ c :: rest') = true := by
  match text with
  | [] =>
    have hslash : c ≠ '/' := by
      rintro rfl
      cases hc
    simpa [beginsStatement, hslash] using h
  | [d] => exact h
  | d :: e :: _ => exact h

theorem EndsAt.congr {text rest : Text} {c : Char} (h : EndsAt text (c :: rest)) (rest' : Text) :
    EndsAt text (c :: rest') where
  begins := beginsStatement_congr (Scan.isTerminator_of_statement h.scan) h.begins rest'
  scan := Scan.statement_congr h.scan rest'

theorem first_of_isAsciiSpace {after : Text} (ha : after.all isAsciiSpace = true) :
    first after = .finish after := by
  have h := first_of_head (t := []) ha fun c hc => nomatch hc
  rwa [List.append_nil] at h

theorem ofStatement_of_block {text rest : Text} (h : EndsAt text ('\x7b' :: rest))
    (before : Text) :
    ofStatement before (text ++ '\x7b' :: rest) =
      .event (.opening (Statement.prelude before text) ('\x7b' :: rest)) rest := by
  rw [ofStatement, h.scan]
  rfl

theorem ofStatement_of_semicolon {text rest : Text} (h : EndsAt text (';' :: rest))
    (before : Text) :
    ofStatement before (text ++ ';' :: rest) =
      ofBody before text.trimRight text.trailingBlanks (text ++ ';' :: rest) true rest := by
  rw [ofStatement, h.scan]
  rfl

theorem ofStatement_of_endsBlock {text rest : Text} (hrest : endsBlock rest = true)
    (h : Scan.statement (text ++ rest) = .ok (text, rest)) (before : Text) :
    ofStatement before (text ++ rest) =
      ofBody before text.trimRight [] (text ++ rest) false (text.trailingBlanks ++ rest) := by
  rw [ofStatement, h]
  cases rest with
  | nil => rfl
  | cons c cs =>
    simp only [endsBlock, decide_eq_true_eq] at hrest
    subst hrest
    rfl

theorem first_of_spells {x rest : Text} {e : Event} (h : Spells x e rest) :
    first (x ++ rest) = .event e rest := by
  cases h with
  | @comment before text _ hb ht =>
    have happ : before ++ '/' :: '*' :: text ++ ['*', '/'] ++ rest =
        before ++ '/' :: '*' :: (text ++ '*' :: '/' :: rest) := by simp
    rw [happ, first_of_head hb fun c hc => by cases hc; rfl]
    simp [ofText, ht rest]
  | @statement before text _ c hb ht hc =>
    have happ : before ++ text ++ [';'] ++ rest = before ++ (text ++ ';' :: rest) := by simp
    rw [happ, first_of_beginsStatement hb ht.begins, ofStatement_of_semicolon ht, ofBody, hc]
  | @last before text rest c hb ht hrest hc =>
    have happ : before ++ text.trimRight ++ (text.trailingBlanks ++ rest) =
        before ++ (text ++ rest) := by
      conv_rhs => rw [← trimRight_append_trailingBlanks text]
      simp only [List.append_assoc]
    rw [happ, first_of_beginsStatement hb ht.begins, ofStatement_of_endsBlock hrest ht.scan,
      ofBody, hc]
  | @opening before text _ hb ht =>
    have happ : before ++ text ++ ['\x7b'] ++ rest = before ++ (text ++ '\x7b' :: rest) := by simp
    rw [happ, first_of_beginsStatement hb ht.begins, ofStatement_of_block ht]
  | @closing before _ hb =>
    rw [List.append_assoc, first_of_head hb fun c hc => by cases hc; rfl]
    rfl
  | @stray before _ hb =>
    rw [List.append_assoc, first_of_head hb fun c hc => by cases hc; rfl]
    rfl

theorem takeWhile_dropWhile_first (source : Text) :
    source.takeWhile isAsciiSpace ++ source.dropWhile isAsciiSpace = source ∧
      (source.takeWhile isAsciiSpace).all isAsciiSpace = true ∧
      ∀ c ∈ (source.dropWhile isAsciiSpace).head?, isAsciiSpace c = false := by
  refine ⟨List.takeWhile_append_dropWhile, List.all_takeWhile, ?_⟩
  intro c hc
  have := List.head?_dropWhile_not isAsciiSpace source
  rw [hc] at this
  simpa using this

theorem eq_event_of_ofBody {before t after place rest rest' : Text} {terminated : Bool} {e : Event}
    (h : ofBody before t after place terminated rest = .event e rest') :
    ∃ c, Statement.body? { before := before, after := after } t = some c ∧
      e = .statement c terminated ∧ rest' = rest := by
  unfold ofBody at h
  split at h
  · cases h
  · rename_i c hc
    cases h
    exact ⟨c, hc, rfl, rfl⟩

theorem spells_of_ofStatement {before t rest : Text} {e : Event}
    (hb : before.all isAsciiSpace = true) (ht : beginsStatement t = true)
    (h : ofStatement before t = .event e rest) :
    ∃ x, before ++ t = x ++ rest ∧ Spells x e rest := by
  unfold ofStatement at h
  split at h
  · cases h
  · rename_i text rest' heq
    have happ := Scan.eq_append_of_statement heq
    subst happ
    cases h
    exact ⟨before ++ text ++ ['\x7b'], by simp, .opening hb ⟨ht, heq⟩⟩
  · rename_i text rest' heq
    have happ := Scan.eq_append_of_statement heq
    subst happ
    obtain ⟨c, hc, rfl, rfl⟩ := eq_event_of_ofBody h
    exact ⟨before ++ text ++ [';'], by simp, .statement hb ⟨ht, heq⟩ hc⟩
  · rename_i text rest' hopen hsemi heq
    have happ := Scan.eq_append_of_statement heq
    subst happ
    obtain ⟨c, hc, rfl, rfl⟩ := eq_event_of_ofBody h
    refine ⟨before ++ text.trimRight, ?_, .last hb ⟨ht, heq⟩ ?_ hc⟩
    · conv_lhs => rw [← trimRight_append_trailingBlanks text]
      simp only [List.append_assoc]
    · cases rest' with
      | nil => rfl
      | cons d ds =>
        have hd := Scan.isTerminator_of_statement heq
        have hne : d ≠ '\x7b' := by
          rintro rfl
          exact hopen ds rfl
        have hne' : d ≠ ';' := by
          rintro rfl
          exact hsemi ds rfl
        simpa [Scan.isTerminator, hne, hne', endsBlock] using hd

theorem spells_of_first {source rest : Text} {e : Event} (h : first source = .event e rest) :
    ∃ x, source = x ++ rest ∧ Spells x e rest := by
  obtain ⟨happ, hb, hhead⟩ := takeWhile_dropWhile_first source
  unfold first at h
  conv in source = _ => rw [← happ]
  generalize source.takeWhile isAsciiSpace = before at *
  generalize source.dropWhile isAsciiSpace = t at *
  unfold ofText at h
  split at h
  · cases h
  · cases h
    exact ⟨before ++ ['\x7d'], by simp, .closing hb⟩
  · cases h
    exact ⟨before ++ [';'], by simp, .stray hb⟩
  · split at h
    · cases h
    · rename_i text rest' heq
      cases h
      refine ⟨before ++ '/' :: '*' :: text ++ ['*', '/'], ?_,
        .comment hb (Scan.closesAtEnd_of_comment? heq)⟩
      rw [Scan.eq_append_of_comment? heq]
      simp
  · rename_i hnil hclose hsemi hcomment
    exact spells_of_ofStatement hb (beginsStatement_of_forall_ne hhead hnil hclose hsemi hcomment) h

theorem eq_of_first_eq_finish {source after : Text} (h : first source = .finish after) :
    source = after ∧ after.all isAsciiSpace = true := by
  obtain ⟨happ, hb, -⟩ := takeWhile_dropWhile_first source
  unfold first ofText at h
  split at h
  · rename_i heq
    cases h
    rw [heq, List.append_nil] at happ
    exact ⟨happ.symm, hb⟩
  · cases h
  · cases h
  · split at h <;> cases h
  · unfold ofStatement ofBody at h
    repeat' split at h
    all_goals cases h

/-- Where a statement was cut short, either only ASCII spaces stand before the end of the block, or
reading fails. -/
theorem first_of_isBlankText {blanks rest : Text} (hblank : blanks.isBlankText = true)
    (hrest : endsBlock rest = true) :
    blanks.all isAsciiSpace = true ∨ ∃ f, first (blanks ++ rest) = .fault f := by
  obtain ⟨happ, hb, hhead⟩ := takeWhile_dropWhile_first blanks
  cases ht : blanks.dropWhile isAsciiSpace with
  | nil =>
    rw [ht, List.append_nil] at happ
    rw [happ] at hb
    exact .inl hb
  | cons c cs =>
    rw [ht] at happ hhead
    have hblank' : isBlankText (c :: cs) = true := by
      rw [← happ, isBlankText_append, Bool.and_eq_true] at hblank
      exact hblank.2
    have hc : isBlank c = true := by
      simp only [isBlankText, List.all_cons, Bool.and_eq_true] at hblank'
      exact hblank'.1
    have hne : ∀ d : Char, isBlank d = false → c ≠ d := fun d => ne_of_isBlank hc
    have hbegins : beginsStatement (c :: (cs ++ rest)) = true :=
      beginsStatement_of_ne (hhead c rfl) (hne _ rfl) (hne _ rfl) fun hslash =>
        absurd hslash (hne _ rfl)
    have hscan : Scan.statement (c :: cs ++ rest) = .ok (c :: cs, rest) := by
      have hpasses := Scan.State.passes_of_isBlankText .start hblank'
      have hrun := Scan.State.run_code_of_isBlankText 0 hblank'
      cases rest with
      | nil =>
        rw [List.append_nil]
        exact Scan.statementFrom_of_fault?_eq_none hpasses (by rw [Scan.State.start, hrun]; rfl) _
      | cons d ds =>
        simp only [endsBlock, decide_eq_true_eq] at hrest
        subst hrest
        exact Scan.statementFrom_of_stopsAt hpasses (by rw [Scan.State.start, hrun]; rfl) ..
    have hfault := ofStatement_of_endsBlock hrest hscan (blanks.takeWhile isAsciiSpace)
    rw [ofBody, trimRight_of_isBlankText hblank', Statement.body?_nil] at hfault
    refine .inr ⟨⟨.unknownWord (trim []), c :: cs ++ rest⟩, ?_⟩
    rw [← happ, List.append_assoc, List.cons_append, first_of_beginsStatement hb hbegins]
    exact hfault

end Event

theorem EventStream.ofText_eq (t : Text) :
    ofText t =
      match Event.first t with
      | .finish after => .finish after
      | .fault f => .fault f
      | .event e rest => .next e (ofText rest) := by
  rw [ofText]
  split <;> rename_i h <;> rw [h]

end UtilityCss
