import UtilityCss.Proofs.Text.Bytes

/-!
# Positions tell places apart

A position is found by counting line feeds and the characters behind the last of them. On the way
through a text it only grows, a line counting more than any column, so two places of one text never
have the same position. Lines and columns lead back to the place.
-/
namespace UtilityCss

namespace Text

def IsBoundary (t : Text) (offset : Nat) : Prop :=
  ∃ front rest, t = front ++ rest ∧ front.byteLength = offset

instance (t : Text) (offset : Nat) : Decidable (t.IsBoundary offset) :=
  decidable_of_iff ((t.from? offset).isSome = true) <| by
    simp only [Option.isSome_iff_exists, from?_eq_some_iff, IsBoundary]
    exact exists_comm

theorem IsBoundary.exists_slice {t : Text} {start stop : Nat} (hstart : t.IsBoundary start)
    (hstop : t.IsBoundary stop) (h : start < stop) :
    ∃ part, t.IsSlice start stop part ∧ part ≠ [] := by
  obtain ⟨a, b, rfl, rfl⟩ := hstart
  obtain ⟨a', b', happ, rfl⟩ := hstop
  rcases List.append_eq_append_iff.mp happ with ⟨part, rfl, rfl⟩ | ⟨part, rfl, rfl⟩
  · refine ⟨part, ⟨a, b', (List.append_assoc ..).symm, rfl, rfl⟩, ?_⟩
    rintro rfl
    rw [List.append_nil] at h
    omega
  · rw [byteLength_append] at h
    omega

theorem takeBytes?_of_le {t : Text} {n : Nat} (h : t.byteLength ≤ n) :
    t.takeBytes? n = some t := by
  induction t generalizing n with
  | nil => cases n <;> rfl
  | cons c t ih =>
    rw [byteLength_cons] at h
    have hpos := c.utf8Size_pos
    rw [takeBytes?_cons (by omega), if_pos (by omega), ih (by omega), Option.map_some]

theorem slice?_min (t : Text) (n : Nat) :
    t.slice? 0 (min n t.byteLength) = t.takeBytes? n := by
  rw [slice?, if_pos ⟨Nat.zero_le _, Nat.min_le_right ..⟩, from?, Option.bind_some, Nat.sub_zero]
  rcases Nat.le_total n t.byteLength with hle | hle
  · rw [Nat.min_eq_left hle]
  · rw [Nat.min_eq_right hle, takeBytes?_of_le hle, takeBytes?_of_le (Nat.le_refl _)]

end Text

namespace Position

open Text

attribute [ext] Position

instance : PartialOrder Position :=
  PartialOrder.lift (fun p => toLex (p.line, p.column)) fun _ _ h =>
    have hfields := Prod.mk.inj (toLex.injective h)
    Position.ext hfields.1 hfields.2

theorem lt_iff {p q : Position} :
    p < q ↔ p.line < q.line ∨ p.line = q.line ∧ p.column < q.column :=
  Prod.Lex.toLex_lt_toLex

theorem lt_advance (p : Position) (c : Char) : p < p.advance c := by
  rw [lt_iff, advance]
  split_ifs
  · exact .inl (Nat.lt_succ_self _)
  · exact .inr ⟨rfl, Nat.lt_succ_self _⟩

theorem le_foldl_advance (p : Position) (t : Text) : p ≤ t.foldl advance p := by
  induction t generalizing p with
  | nil => exact le_rfl
  | cons c t ih => exact (lt_advance p c).le.trans (ih _)

theorem after_lt_after_append (a : Text) {b : Text} (hb : b ≠ []) : after a < after (a ++ b) := by
  obtain ⟨c, b, rfl⟩ := List.exists_cons_of_ne_nil hb
  rw [after_append, List.foldl_cons]
  exact (lt_advance _ c).trans_le (le_foldl_advance _ b)

theorem foldl_advance_of_notMem (p : Position) {t : Text} (ht : '\n' ∉ t) :
    t.foldl advance p = ⟨p.line, p.column + t.length⟩ := by
  induction t generalizing p with
  | nil => rfl
  | cons c t ih =>
    rw [List.mem_cons, not_or] at ht
    rw [List.foldl_cons, ih _ ht.2, advance, if_neg (Ne.symm ht.1), List.length_cons,
      Nat.add_assoc, Nat.add_comm 1]

theorem foldl_advance_add_line (n : Nat) (p : Position) (t : Text) :
    t.foldl advance ⟨n + p.line, p.column⟩ =
      ⟨n + (t.foldl advance p).line, (t.foldl advance p).column⟩ := by
  induction t generalizing p with
  | nil => rfl
  | cons c t ih =>
    have hstep : advance ⟨n + p.line, p.column⟩ c =
        ⟨n + (p.advance c).line, (p.advance c).column⟩ := by
      unfold advance
      split_ifs <;> rfl
    rw [List.foldl_cons, List.foldl_cons, hstep, ih]

theorem after_of_notMem {t : Text} (ht : '\n' ∉ t) : after t = ⟨1, t.length + 1⟩ := by
  rw [after, foldl_advance_of_notMem _ ht, start, Nat.add_comm]

/-- Behind a line feed counting starts again, except that the lines add up. -/
theorem after_append_newline (a b : Text) :
    after (a ++ '\n' :: b) = ⟨(after a).line + (after b).line, (after b).column⟩ := by
  rw [after_append, List.foldl_cons]
  exact foldl_advance_add_line (after a).line start b

theorem line_advance (p : Position) (c : Char) :
    (p.advance c).line = p.line + if c = '\n' then 1 else 0 := by
  unfold advance
  split_ifs <;> rfl

theorem line_foldl_advance (p : Position) (t : Text) :
    (t.foldl advance p).line = p.line + t.count '\n' := by
  induction t generalizing p with
  | nil => rfl
  | cons c t ih =>
    rw [List.foldl_cons, ih, line_advance, List.count_cons]
    simp only [beq_iff_eq]
    omega

theorem line_after (t : Text) : (after t).line = t.count '\n' + 1 := by
  rw [after, line_foldl_advance, start, Nat.add_comm]

theorem line_after_eq_one_iff {t : Text} : (after t).line = 1 ↔ '\n' ∉ t := by
  rw [line_after, Nat.add_eq_right, List.count_eq_zero]

theorem after_eq_on_first_line_iff {t : Text} {columns : Nat} :
    after t = ⟨1, columns + 1⟩ ↔ '\n' ∉ t ∧ t.length = columns := by
  constructor
  · intro h
    have hline := line_after_eq_one_iff.mp (congrArg line h)
    rw [after_of_notMem hline] at h
    exact ⟨hline, Nat.succ.inj (congrArg column h)⟩
  · rintro ⟨hline, rfl⟩
    exact after_of_notMem hline

/-- The position at a byte offset, counted in the text before it: the line from all line feeds, and
the column from the characters behind the last one, which is searched for from the end. -/
def counted? (source : Text) (offset : Nat) : Option Position := do
  let before ← source.slice? 0 (min offset source.byteLength)
  let line ← before.from? (((before.findLast? '\n').map (· + 1)).getD 0)
  return ⟨before.count '\n' + 1, line.length + 1⟩

/-- The search from the end leads to the beginning of the line in which a text ends. -/
theorem exists_last_line (t : Text) :
    ∃ line, t.from? (((t.findLast? '\n').map (· + 1)).getD 0) = some line ∧
      after t = ⟨t.count '\n' + 1, line.length + 1⟩ := by
  cases hsplit : t.splitLast? '\n' with
  | none =>
    have hline := splitLast?_eq_none_iff.mp hsplit
    refine ⟨t, ?_, ?_⟩
    · simp [findLast?, hsplit, from?]
    · rw [after_of_notMem hline, List.count_eq_zero_of_not_mem hline]
  | some p =>
    obtain ⟨above, line⟩ := p
    have happ := eq_append_of_splitLast? hsplit
    have hline := notMem_of_splitLast? hsplit
    have hwidth : above.byteLength + 1 = byteLength (above ++ ['\n']) :=
      (byteLength_append_singleton (by decide) above).symm
    refine ⟨line, ?_, ?_⟩
    · rw [findLast?, hsplit, Option.map_some, Option.map_some, Option.getD_some, hwidth, happ,
        List.append_cons above '\n' line, from?_byteLength]
    · rw [← line_after, happ, after_append_newline, after_of_notMem hline]

theorem ofByteOffset?_eq_counted? (source : Text) (offset : Nat) :
    ofByteOffset? source offset = counted? source offset := by
  rw [ofByteOffset?, counted?, slice?_min]
  cases source.takeBytes? offset with
  | none => rfl
  | some before =>
    obtain ⟨line, hline, hafter⟩ := exists_last_line before
    simp [hline, hafter]

/-- The beginning of a text with so many line feeds in it and so many characters behind them, which
all have to stand in one line. -/
def upTo? : (lines columns : Nat) → Text → Option Text
  | 0, columns, t =>
    let line := t.takeWhile (· ≠ '\n')
    if columns ≤ line.length then some (line.take columns) else none
  | lines + 1, columns, t =>
    (t.splitFirst? '\n').bind fun p => (upTo? lines columns p.2).map (p.1 ++ '\n' :: ·)

def byteOffset? (source : Text) : Position → Option Nat
  | ⟨line + 1, column + 1⟩ => (upTo? line column source).map byteLength
  | _ => none

theorem upTo?_zero_eq_some_iff {columns : Nat} {t front : Text} :
    upTo? 0 columns t = some front ↔ front <+: t ∧ '\n' ∉ front ∧ front.length = columns := by
  constructor
  · intro h
    rw [upTo?] at h
    split_ifs at h with hle
    obtain rfl := Option.some.inj h
    refine ⟨(List.take_prefix ..).trans (List.takeWhile_prefix _), fun hmem => ?_,
      List.length_take_of_le hle⟩
    simpa using List.mem_takeWhile_imp (List.mem_of_mem_take hmem)
  · rintro ⟨⟨rest, rfl⟩, hline, rfl⟩
    have hwhile : (front ++ rest).takeWhile (· ≠ '\n') = front ++ rest.takeWhile (· ≠ '\n') :=
      List.takeWhile_append_of_pos fun c hc => by
        simpa using fun heq : c = '\n' => hline (heq ▸ hc)
    rw [upTo?, hwhile, if_pos (by simp), List.take_left]

theorem upTo?_succ_eq_some_iff {lines columns : Nat} {t front : Text} :
    upTo? (lines + 1) columns t = some front ↔
      ∃ a b rest, t = a ++ '\n' :: rest ∧ '\n' ∉ a ∧ upTo? lines columns rest = some b ∧
        front = a ++ '\n' :: b := by
  constructor
  · intro h
    obtain ⟨⟨a, rest⟩, hsplit, h⟩ := Option.bind_eq_some_iff.mp h
    obtain ⟨b, hb, rfl⟩ := Option.map_eq_some_iff.mp h
    exact ⟨a, b, rest, eq_append_of_splitFirst? hsplit, notMem_of_splitFirst? hsplit, hb, rfl⟩
  · rintro ⟨a, b, rest, rfl, ha, hb, rfl⟩
    rw [upTo?, splitFirst?_append_cons ha, Option.bind_some, hb, Option.map_some]

theorem upTo?_eq_some_iff {lines columns : Nat} {t front : Text} :
    upTo? lines columns t = some front ↔
      front <+: t ∧ after front = ⟨lines + 1, columns + 1⟩ := by
  induction lines generalizing t front with
  | zero => rw [upTo?_zero_eq_some_iff, after_eq_on_first_line_iff]
  | succ lines ih =>
    rw [upTo?_succ_eq_some_iff]
    constructor
    · rintro ⟨a, b, rest, rfl, ha, hb, rfl⟩
      obtain ⟨hbegin, hafter⟩ := ih.mp hb
      refine ⟨(List.prefix_append_right_inj a).mpr (List.cons_prefix_cons.mpr ⟨rfl, hbegin⟩), ?_⟩
      rw [after_append_newline, after_of_notMem ha, hafter, Nat.add_comm]
    · rintro ⟨⟨rest, rfl⟩, hafter⟩
      have hmem : '\n' ∈ front := by
        by_contra hline
        rw [after_of_notMem hline] at hafter
        cases hafter
      obtain ⟨a, b, rfl, ha⟩ := List.eq_append_cons_of_mem hmem
      rw [after_append_newline, after_of_notMem ha, Nat.add_comm 1] at hafter
      obtain ⟨hlines, hcolumns⟩ := Position.ext_iff.mp hafter
      have hb : after b = ⟨lines + 1, columns + 1⟩ := Position.ext (Nat.succ.inj hlines) hcolumns
      exact ⟨a, b, b ++ rest, List.append_assoc .., ha,
        ih.mpr ⟨List.prefix_append b rest, hb⟩, rfl⟩

theorem byteOffset?_eq_some_iff {source : Text} {p : Position} {offset : Nat} :
    p.byteOffset? source = some offset ↔
      ∃ front rest, source = front ++ rest ∧ front.byteLength = offset ∧ after front = p := by
  constructor
  · intro h
    unfold byteOffset? at h
    split at h
    · obtain ⟨front, hfront, rfl⟩ := Option.map_eq_some_iff.mp h
      obtain ⟨⟨rest, happ⟩, hafter⟩ := upTo?_eq_some_iff.mp hfront
      exact ⟨front, rest, happ.symm, rfl, hafter⟩
    · cases h
  · rintro ⟨front, rest, rfl, rfl, rfl⟩
    obtain ⟨line, -, hafter⟩ := exists_last_line front
    have hfront : upTo? (front.count '\n') line.length (front ++ rest) = some front :=
      upTo?_eq_some_iff.mpr ⟨List.prefix_append front rest, hafter⟩
    rw [hafter, byteOffset?, hfront, Option.map_some]

/-- Positions are faithful. A position is counted in the text before its offset. Of two offsets that
lie between characters the later one has the later position, so that no two of them share a line and
a column, and a line and a column lead back to their offset and to no other. -/
theorem ofByteOffset?_faithful (source : Text) :
    (∀ offset, ofByteOffset? source offset = counted? source offset) ∧
      (∀ m n, source.IsBoundary m → source.IsBoundary n → m < n →
        ∃ p q, ofByteOffset? source m = some p ∧ ofByteOffset? source n = some q ∧ p < q) ∧
      ∀ offset p, p.byteOffset? source = some offset ↔
        source.IsBoundary offset ∧ ofByteOffset? source offset = some p := by
  refine ⟨ofByteOffset?_eq_counted? source, ?_, ?_⟩
  · intro m n hm hn h
    obtain ⟨part, ⟨before, rest, rfl, rfl, rfl⟩, hpart⟩ := hm.exists_slice hn h
    refine ⟨after before, after (before ++ part), ?_, ofByteOffset?_byteLength ..,
      after_lt_after_append before hpart⟩
    rw [List.append_assoc]
    exact ofByteOffset?_byteLength ..
  · intro offset p
    rw [byteOffset?_eq_some_iff]
    constructor
    · rintro ⟨front, rest, rfl, rfl, rfl⟩
      exact ⟨⟨front, rest, rfl, rfl⟩, ofByteOffset?_byteLength ..⟩
    · rintro ⟨⟨front, rest, rfl, rfl⟩, hposition⟩
      rw [ofByteOffset?_byteLength] at hposition
      exact ⟨front, rest, rfl, rfl, Option.some.inj hposition⟩

/-- The end of a line behind a character of two bytes, and the beginning of the empty line below. -/
theorem ofByteOffset?_faithful_at_line_feed :
    let source : Text := "é\n\nb".toList
    source.IsBoundary 2 ∧ source.IsBoundary 3 ∧ ofByteOffset? source 2 = some ⟨1, 2⟩ ∧
      ofByteOffset? source 3 = some ⟨2, 1⟩ ∧ (⟨1, 2⟩ : Position) < ⟨2, 1⟩ ∧
      byteOffset? source ⟨2, 1⟩ = some 3 ∧ counted? source 1 = none := by
  intro source
  have hend : source.IsBoundary 2 := by decide
  have hnext : source.IsBoundary 3 := by decide
  have hposition : ofByteOffset? source 2 = some ⟨1, 2⟩ := by decide
  have hposition' : ofByteOffset? source 3 = some ⟨2, 1⟩ := by decide
  obtain ⟨hcounted, horder, hback⟩ := ofByteOffset?_faithful source
  refine ⟨hend, hnext, hposition, hposition', ?_, (hback 3 _).mpr ⟨hnext, hposition'⟩, ?_⟩
  · obtain ⟨p, q, hp, hq, hlt⟩ := horder 2 3 hend hnext (by decide)
    rw [hposition] at hp
    rw [hposition'] at hq
    cases hp
    cases hq
    exact hlt
  · rw [← hcounted]
    decide

end Position
end UtilityCss
