import UtilityCss.Proofs.Text.Cutting
import UtilityCss.Proofs.Text.Offsets
import UtilityCss.Proofs.Text.Trimming

/-!
# Bytes of a text

The UTF-8 form of a text, read by offset. A byte below 128 is an ASCII character; all bytes of other
characters are above. A text can be cut only at an offset between two of its characters.
-/
namespace UtilityCss

namespace Text

def bytes (t : Text) : List UInt8 := t.flatMap String.utf8EncodeChar

/-- The first byte of a character. -/
def lead (c : Char) : UInt8 := (String.utf8EncodeChar c).headD 0

/-- What stands from a byte offset on. There is nothing past the end or inside a character. -/
def from? : Nat → Text → Option Text
  | 0, t => some t
  | _ + 1, [] => none
  | n + 1, c :: cs => if c.utf8Size ≤ n + 1 then from? (n + 1 - c.utf8Size) cs else none

/-- What stands between two byte offsets, which have to be in order and between characters. -/
def slice? (start stop : Nat) (t : Text) : Option Text :=
  if start ≤ stop ∧ stop ≤ t.byteLength then (t.from? start).bind (takeBytes? (stop - start))
  else none

def find? (t : Text) (p : Char → Bool) : Option Nat :=
  if t.any p then some (byteLength (t.takeWhile (!p ·))) else none

def findLast? (t : Text) (mark : Char) : Option Nat :=
  (t.splitLast? mark).map fun p => byteLength p.1

def findWord? : (t word : Text) → Option Nat
  | [], word => if word.isEmpty then some 0 else none
  | c :: cs, word =>
    if word.isPrefixOf (c :: cs) then some 0
    else (findWord? cs word).map fun offset => c.utf8Size + offset

def leadingWidth (t : Text) : Nat := t.byteLength - t.trimLeft.byteLength

theorem bytes_cons (c : Char) (t : Text) : bytes (c :: t) = String.utf8EncodeChar c ++ bytes t :=
  List.flatMap_cons

theorem bytes_append (a b : Text) : bytes (a ++ b) = bytes a ++ bytes b := List.flatMap_append

theorem length_bytes (t : Text) : t.bytes.length = t.byteLength := by
  induction t with
  | nil => rfl
  | cons c t ih => rw [bytes_cons, List.length_append, String.length_utf8EncodeChar, ih, byteLength]

theorem byteLength_cons (c : Char) (t : Text) :
    byteLength (c :: t) = c.utf8Size + byteLength t := rfl

theorem byteLength_pos {t : Text} (h : t ≠ []) : 0 < t.byteLength := by
  cases t with
  | nil => exact absurd rfl h
  | cons c t => exact Nat.add_pos_left c.utf8Size_pos _

theorem from?_cons {n : Nat} (hn : 0 < n) (c : Char) (t : Text) :
    from? n (c :: t) = if c.utf8Size ≤ n then from? (n - c.utf8Size) t else none := by
  obtain ⟨m, rfl⟩ := Nat.exists_eq_add_one_of_ne_zero hn.ne'
  rfl

theorem from?_byteLength (a b : Text) : from? a.byteLength (a ++ b) = some b := by
  induction a with
  | nil => rw [byteLength, List.nil_append, from?]
  | cons c a ih =>
    have hpos : 0 < byteLength (c :: a) := byteLength_pos (List.cons_ne_nil c a)
    have hle : c.utf8Size ≤ byteLength (c :: a) := Nat.le_add_right ..
    have hrest : byteLength (c :: a) - c.utf8Size = byteLength a := Nat.add_sub_cancel_left ..
    rw [List.cons_append, from?_cons hpos, if_pos hle, hrest, ih]

theorem slice?_byteLength (a b c : Text) :
    slice? a.byteLength (a ++ b).byteLength (a ++ b ++ c) = some b := by
  have horder : a.byteLength ≤ (a ++ b).byteLength ∧
      (a ++ b).byteLength ≤ (a ++ b ++ c).byteLength := by
    rw [byteLength_append (a ++ b), byteLength_append a]
    omega
  have hwidth : (a ++ b).byteLength - a.byteLength = b.byteLength := by
    rw [byteLength_append]
    omega
  rw [slice?, if_pos horder, hwidth, List.append_assoc, from?_byteLength, Option.bind_some,
    takeBytes?_byteLength]

/-- The source can be cut exactly at the offsets that are lengths of what stands before them. -/
theorem from?_eq_some_iff {t rest : Text} {n : Nat} :
    t.from? n = some rest ↔ ∃ front, t = front ++ rest ∧ front.byteLength = n := by
  constructor
  · intro h
    induction t generalizing n with
    | nil =>
      cases n with
      | zero =>
        cases h
        exact ⟨[], rfl, rfl⟩
      | succ n => cases h
    | cons c t ih =>
      rcases Nat.eq_zero_or_pos n with rfl | hn
      · cases h
        exact ⟨[], rfl, rfl⟩
      · rw [from?_cons hn] at h
        split_ifs at h with hle
        obtain ⟨front, rfl, hfront⟩ := ih h
        refine ⟨c :: front, rfl, ?_⟩
        rw [byteLength_cons, hfront]
        omega
  · rintro ⟨front, rfl, rfl⟩
    exact from?_byteLength front rest

theorem utf8EncodeChar_of_lt {c : Char} (h : c.toNat < 128) :
    String.utf8EncodeChar c = [c.toUInt8] := by
  have hle : c.val.toNat ≤ 127 := Nat.le_of_lt_succ h
  unfold String.utf8EncodeChar
  rw [if_pos hle]
  rfl

theorem le_of_mem_utf8EncodeChar {c : Char} (h : 128 ≤ c.toNat) :
    ∀ b ∈ String.utf8EncodeChar c, 128 ≤ b.toNat := by
  have hval : c.val.toNat = c.toNat := rfl
  unfold String.utf8EncodeChar
  dsimp only
  split_ifs
  all_goals
    simp only [List.forall_mem_cons, List.not_mem_nil, false_implies, implies_true, and_true,
      UInt8.toNat_ofNat', hval]
    omega

theorem lead_cons_tail (c : Char) :
    String.utf8EncodeChar c = lead c :: (String.utf8EncodeChar c).tail := by
  have hne : String.utf8EncodeChar c ≠ [] := by
    rw [← List.length_pos_iff, String.length_utf8EncodeChar]
    exact c.utf8Size_pos
  cases hbytes : String.utf8EncodeChar c with
  | nil => exact absurd hbytes hne
  | cons b bs => rw [lead, hbytes, List.headD_cons, List.tail_cons]

theorem toNat_lead_of_lt {c : Char} (h : c.toNat < 128) : (lead c).toNat = c.toNat := by
  rw [lead, utf8EncodeChar_of_lt h]
  change c.toNat % 2 ^ 8 = c.toNat
  omega

theorem le_lead {c : Char} (h : 128 ≤ c.toNat) : 128 ≤ (lead c).toNat := by
  apply le_of_mem_utf8EncodeChar h
  rw [lead_cons_tail c]
  exact List.mem_cons_self

/-- One byte tells an ASCII character from all others. -/
theorem lead_eq_iff {c d : Char} (hd : d.toNat < 128) : lead c = lead d ↔ c = d := by
  rw [← UInt8.toNat_inj, toNat_lead_of_lt hd]
  constructor
  · intro h
    by_cases hc : c.toNat < 128
    · rw [toNat_lead_of_lt hc] at h
      exact Char.toNat_inj.mp h
    · have hle := le_lead (Nat.le_of_not_lt hc)
      omega
  · rintro rfl
    exact toNat_lead_of_lt hd

theorem getElem?_bytes (a b : Text) : (a ++ b).bytes[a.byteLength]? = b.head?.map lead := by
  rw [bytes_append, ← length_bytes, List.getElem?_append_right (Nat.le_refl _), Nat.sub_self]
  cases b with
  | nil => rfl
  | cons c b =>
    rw [bytes_cons, lead_cons_tail]
    rfl

theorem lt_length_bytes (a : Text) (c : Char) (t : Text) :
    a.byteLength < (a ++ c :: t).bytes.length := by
  have hpos := c.utf8Size_pos
  rw [length_bytes, byteLength_append, byteLength_cons]
  omega

theorem getElem_bytes {a : Text} {c : Char} {t : Text}
    (h : a.byteLength < (a ++ c :: t).bytes.length) :
    (a ++ c :: t).bytes[a.byteLength] = lead c := by
  have hget := getElem?_bytes a (c :: t)
  rw [List.getElem?_eq_getElem h] at hget
  exact Option.some.inj hget

theorem ne_lead_of_large {b : UInt8} (hb : 128 ≤ b.toNat) {d : Char} (hd : d.toNat < 128) :
    b ≠ lead d := by
  rintro rfl
  rw [toNat_lead_of_lt hd] at hb
  omega

theorem toNat_lt_of_isQuote {q : Char} (hq : isQuote q = true) : q.toNat < 128 := by
  simp only [isQuote, Bool.or_eq_true, decide_eq_true_eq] at hq
  rcases hq with rfl | rfl <;> decide

/-- Inside a character stand no ASCII bytes. -/
theorem exists_byte_inside (a : Text) (c : Char) (b : Text) {k : Nat} (hk : 0 < k)
    (hlt : k < c.utf8Size) :
    ∃ x, (a ++ c :: b).bytes[a.byteLength + k]? = some x ∧ 128 ≤ x.toNat := by
  have hlength : k < (String.utf8EncodeChar c).length := by
    rwa [String.length_utf8EncodeChar]
  have hlarge : 128 ≤ c.toNat := by
    by_contra hsmall
    rw [utf8EncodeChar_of_lt (Nat.lt_of_not_le hsmall), List.length_singleton] at hlength
    omega
  refine ⟨(String.utf8EncodeChar c)[k], ?_, le_of_mem_utf8EncodeChar hlarge _ ?_⟩
  · rw [bytes_append, ← length_bytes, List.getElem?_append_right (Nat.le_add_right ..),
      Nat.add_sub_cancel_left, bytes_cons, List.getElem?_append_left hlength,
      List.getElem?_eq_getElem hlength]
  · exact List.getElem_mem hlength

theorem utf8Size_of_lt {c : Char} (h : c.toNat < 128) : c.utf8Size = 1 := by
  rw [← String.length_utf8EncodeChar, utf8EncodeChar_of_lt h, List.length_singleton]

theorem byteLength_append_singleton {c : Char} (h : c.toNat < 128) (a : Text) :
    byteLength (a ++ [c]) = a.byteLength + 1 := by
  rw [byteLength_append, byteLength_cons, utf8Size_of_lt h, byteLength]

theorem getElem?_bytes_succ_eq_iff {c d : Char} (hc : c.toNat < 128) (hd : d.toNat < 128)
    (a t : Text) :
    (a ++ c :: t).bytes[a.byteLength + 1]? = some (lead d) ↔ t.head? = some d := by
  rw [← byteLength_append_singleton hc, List.append_cons, getElem?_bytes, Option.map_eq_some_iff]
  constructor
  · rintro ⟨e, he, heq⟩
    rwa [(lead_eq_iff hd).mp heq] at he
  · exact fun h => ⟨d, h, rfl⟩

/-- What passes over every byte above the ASCII ones passes over the rest of a character. -/
theorem eq_of_inside {α : Type} {f : Nat → α} {a t : Text} {c : Char}
    (hf : ∀ i b, (a ++ c :: t).bytes[i]? = some b → 128 ≤ b.toNat → f i = f (i + 1)) :
    f (a.byteLength + 1) = f (a ++ [c]).byteLength := by
  have hwalk : ∀ n, 1 + n ≤ c.utf8Size → f (a.byteLength + 1) = f (a.byteLength + (1 + n)) := by
    intro n hn
    induction n with
    | zero => rfl
    | succ n ih =>
      obtain ⟨b, hb, hlarge⟩ := exists_byte_inside a c t (k := 1 + n) (by omega) (by omega)
      rw [ih (by omega), hf _ b hb hlarge]
      rfl
  have hpos := c.utf8Size_pos
  rw [hwalk (c.utf8Size - 1) (by omega), byteLength_append, byteLength_cons, byteLength]
  congr 1
  omega

theorem getD_find? (p : Char → Bool) (t : Text) :
    (t.find? p).getD t.byteLength = byteLength (t.takeWhile (!p ·)) := by
  rw [find?]
  split_ifs with hany
  · rfl
  · have hall : ∀ c ∈ t, (!p c) = true := by
      intro c hc
      rw [Bool.not_eq_true, List.any_eq_false] at hany
      simpa using hany c hc
    rw [List.takeWhile_eq_self_iff.mpr hall]
    rfl

theorem find?_eq_map_splitFirst? (mark : Char) (t : Text) :
    t.find? (· = mark) = (t.splitFirst? mark).map fun p => byteLength p.1 := by
  have hsplit : t.splitFirst? mark = none ↔ mark ∉ t := splitFirst?_eq_none_iff
  cases h : t.splitFirst? mark with
  | none =>
    rw [find?, if_neg]
    · rfl
    · simpa using hsplit.mp h
  | some p =>
    have happ := eq_append_of_splitFirst? h
    have hmark := notMem_of_splitFirst? h
    have hwhile : t.takeWhile (fun c => !decide (c = mark)) = p.1 := by
      rw [happ, takeWhile_append_cons (by simp)]
      apply List.takeWhile_eq_self_iff.mpr
      intro c hc
      have hne : c ≠ mark := fun heq => hmark (heq ▸ hc)
      simpa using hne
    rw [find?, if_pos (by simp [happ]), hwhile]
    rfl

end Text
end UtilityCss
