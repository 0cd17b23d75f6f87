import UtilityCss.Stylesheet.Scan
import UtilityCss.Stylesheet.Statement

/-!
# Events

The text of a stylesheet as a sequence of events: comments, statements, and blocks that open and
close. Whether blocks match is not looked at here. Blanks before an event belong to it, and those
after the last one are kept by the end. A semicolon with no statement before it is an event of its
own, which leaves no trace in a stylesheet.
-/
namespace UtilityCss

inductive Event
  | comment (content : Content)
  /-- A statement without a block, and whether a semicolon ended it. -/
  | statement (content : Content) (terminated : Bool)
  /-- The brace that opens the block of a node begins `place`. -/
  | opening (content : Content) (place : Text)
  /-- The brace that closes a block begins `place`. -/
  | closing (before place : Text)
  | stray (before : Text)
  deriving DecidableEq, Repr

inductive EventStream
  | finish (after : Text)
  | fault (f : LocatedFault)
  | next (e : Event) (rest : EventStream)

namespace Event

/-- The first event of a text, if it does not end or go wrong before. -/
inductive First
  | finish (after : Text)
  | fault (f : LocatedFault)
  | event (e : Event) (rest : Text)

/-- The event of a statement without a block whose scanned text is `t`, and which stands at the
beginning of `place`. -/
def ofBody (before t after place : Text) (terminated : Bool) (rest : Text) : First :=
  match Statement.body? { before := before, after := after } t with
  | none => .fault ⟨.unknownWord t.trim, place⟩
  | some content => .event (.statement content terminated) rest

/-- The event of the statement at the beginning of `t`. Where a brace or the end cuts a statement
short, the blanks after it belong to what comes next. -/
def ofStatement (before t : Text) : First :=
  match Scan.statement t with
  | .error f => .fault f
  | .ok (text, '\x7b' :: rest) =>
    .event (.opening (Statement.prelude before text) ('\x7b' :: rest)) rest
  | .ok (text, ';' :: rest) => ofBody before text.trimRight text.trailingBlanks t true rest
  | .ok (text, rest) => ofBody before text.trimRight [] t false (text.trailingBlanks ++ rest)

def ofText (before t : Text) : First :=
  match t with
  | [] => .finish before
  | '\x7d' :: rest => .event (.closing before t) rest
  | ';' :: rest => .event (.stray before) rest
  | '/' :: '*' :: rest =>
    match Scan.comment? rest with
    | none => .fault ⟨.unclosedComment, t⟩
    | some (text, rest) => .event (.comment ⟨.comment text, { before := before }⟩) rest
  | _ => ofStatement before t

def first (source : Text) : First :=
  ofText (source.takeWhile Text.isAsciiSpace) (source.dropWhile Text.isAsciiSpace)

theorem eq_rest_of_ofBody {before t after place rest rest' : Text} {terminated : Bool} {e : Event}
    (h : ofBody before t after place terminated rest = .event e rest') : t ≠ [] ∧ rest' = rest := by
  simp only [ofBody] at h
  split at h
  · cases h
  · rename_i heq
    cases h
    refine ⟨?_, rfl⟩
    rintro rfl
    simp [Statement.body?_nil] at heq

theorem length_lt_of_ofStatement {before t rest : Text} {e : Event}
    (h : ofStatement before t = .event e rest) : rest.length < t.length := by
  simp only [ofStatement] at h
  split at h
  · cases h
  · rename_i heq
    cases h
    rw [Scan.eq_append_of_statement heq]
    simp only [List.length_append, List.length_cons]
    omega
  · rename_i heq
    obtain ⟨-, rfl⟩ := eq_rest_of_ofBody h
    rw [Scan.eq_append_of_statement heq]
    simp only [List.length_append, List.length_cons]
    omega
  · rename_i text _ _ _ heq
    obtain ⟨hne, rfl⟩ := eq_rest_of_ofBody h
    have hpos := List.length_pos_iff.2 hne
    have hlen := congrArg List.length (Text.trimRight_append_trailingBlanks text)
    rw [Scan.eq_append_of_statement heq]
    simp only [List.length_append] at hlen ⊢
    omega

theorem length_lt_of_ofText {before t rest : Text} {e : Event}
    (h : ofText before t = .event e rest) : rest.length < t.length := by
  simp only [ofText] at h
  split at h
  · cases h
  · cases h
    simp
  · cases h
    simp
  · split at h
    · cases h
    · rename_i heq
      cases h
      have := Scan.length_lt_of_comment? heq
      simp only [List.length_cons]
      omega
  · exact length_lt_of_ofStatement h

theorem length_lt_of_first {source rest : Text} {e : Event} (h : first source = .event e rest) :
    rest.length < source.length :=
  Nat.lt_of_lt_of_le (length_lt_of_ofText h) (List.dropWhile_sublist _).length_le

end Event

def EventStream.ofText (source : Text) : EventStream :=
  match _h : Event.first source with
  | .finish after => .finish after
  | .fault f => .fault f
  | .event e rest => .next e (EventStream.ofText rest)
termination_by source.length
decreasing_by exact Event.length_lt_of_first _h

end UtilityCss
