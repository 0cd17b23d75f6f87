import UtilityCss.Proofs.Text.Bytes
import UtilityCss.Proofs.Text.Segmenting

/-!
# Cutting a text by byte offsets

The pieces of a text can be found by offsets into its bytes. Two bytes are skipped at a backslash,
which may lead inside a character or past the end, and the pieces are slices of the text. For an
ASCII separator every slice that is asked for exists, and the pieces are those found by characters.
-/
namespace UtilityCss.Segment

open Text

namespace Bytewise

/-- The offset of the quote that closes a string, or one past the end of the text. -/
def quoteEnd (bytes : List UInt8) (quote : UInt8) (i : Nat) : Nat :=
  if h : i < bytes.length then
    if bytes[i] = quote then i
    else if bytes[i] = lead '\\' then quoteEnd bytes quote (i + 2)
    else quoteEnd bytes quote (i + 1)
  else i
termination_by bytes.length - i

theorem le_quoteEnd (bytes : List UInt8) (quote : UInt8) (i : Nat) :
    i ≤ quoteEnd bytes quote i := by
  fun_induction quoteEnd bytes quote i <;> omega

/-- The pieces from the offset `i` on, the current one of which began at `last`. -/
def pieces? (t : Text) (sep : UInt8) (closing : List UInt8) (last i : Nat) : Option (List Text) :=
  if h : i < t.bytes.length then
    let b := t.bytes[i]
    if closing = [] ∧ b = sep then do
      let piece ← t.slice? last i
      let rest ← pieces? t sep closing (i + 1) (i + 1)
      return piece :: rest
    else if b = lead '\\' then pieces? t sep closing last (i + 2)
    else if b = lead '\x22' ∨ b = lead '\x27' then
      pieces? t sep closing last (quoteEnd t.bytes b (i + 1) + 1)
    else if b = lead '(' then pieces? t sep (lead ')' :: closing) last (i + 1)
    else if b = lead '[' then pieces? t sep (lead ']' :: closing) last (i + 1)
    else if b = lead '\x7b' then pieces? t sep (lead '\x7d' :: closing) last (i + 1)
    else if b = lead ')' ∨ b = lead ']' ∨ b = lead '\x7d' then
      pieces? t sep (if closing.head? = some b then closing.tail else closing) last (i + 1)
    else pieces? t sep closing last (i + 1)
  else (t.from? (min last t.byteLength)).map fun piece => [piece]
termination_by t.bytes.length - i
decreasing_by
  all_goals have := le_quoteEnd t.bytes t.bytes[i] (i + 1)
  all_goals omega

def split? (sep : UInt8) (t : Text) : Option (List Text) := pieces? t sep [] 0 0

variable {sep : Char}

theorem quoteEnd_inside {q : Char} (hq : isQuote q = true) (a : Text) (c : Char) (t : Text) :
    quoteEnd (a ++ c :: t).bytes (lead q) (a.byteLength + 1) =
      quoteEnd (a ++ c :: t).bytes (lead q) (a ++ [c]).byteLength := by
  refine eq_of_inside (t := t) fun i b hb hlarge => ?_
  obtain ⟨hlt, rfl⟩ := List.getElem?_eq_some_iff.mp hb
  rw [quoteEnd, dif_pos hlt, if_neg (ne_lead_of_large hlarge (toNat_lt_of_isQuote hq)),
    if_neg (ne_lead_of_large hlarge (by decide))]

theorem pieces?_inside (hsep : sep.toNat < 128) (closing : List UInt8) (last : Nat) (a : Text)
    (c : Char) (t : Text) :
    pieces? (a ++ c :: t) (lead sep) closing last (a.byteLength + 1) =
      pieces? (a ++ c :: t) (lead sep) closing last (a ++ [c]).byteLength := by
  refine eq_of_inside (t := t) fun i b hb hlarge => ?_
  obtain ⟨hlt, rfl⟩ := List.getElem?_eq_some_iff.mp hb
  have hne : ∀ d : Char, d.toNat < 128 → (a ++ c :: t).bytes[i] ≠ lead d :=
    fun d hd => ne_lead_of_large hlarge hd
  rw [pieces?, dif_pos hlt]
  simp [hne sep hsep, hne '\\' (by decide), hne '\x22' (by decide), hne '\x27' (by decide),
    hne '(' (by decide), hne '[' (by decide), hne '\x7b' (by decide), hne ')' (by decide),
    hne ']' (by decide), hne '\x7d' (by decide)]

theorem pieces?_of_length_le {t : Text} {i : Nat} (h : t.bytes.length ≤ i) (b : UInt8)
    (closing : List UInt8) (last : Nat) :
    pieces? t b closing last i =
      (t.from? (min last t.byteLength)).map fun piece => [piece] := by
  rw [pieces?, dif_neg (Nat.not_lt_of_le h)]

/-- What is open behind a character that is neither a backslash nor a quote. -/
def nested (closing : List Char) (c : Char) : List Char :=
  match closer? c with
  | some close => close :: closing
  | none => if closing.head? = some c then closing.tail else closing

theorem step_plain {c : Char} (hescape : c ≠ '\\') (hquote : ¬isQuote c = true)
    (closing : List Char) :
    State.step ⟨closing, .plain⟩ c = ⟨nested closing c, .plain⟩ := by
  simp only [State.step, if_neg hescape, if_neg hquote, nested]
  cases closer? c with
  | some close => rfl
  | none =>
    dsimp only
    split_ifs <;> rfl

theorem nested_of_closes {c : Char} (hc : c = ')' ∨ c = ']' ∨ c = '\x7d') (closing : List Char) :
    nested closing c = if closing.head? = some c then closing.tail else closing := by
  rcases hc with rfl | rfl | rfl <;> rfl

theorem head?_map_lead_iff {c : Char} (hc : c = ')' ∨ c = ']' ∨ c = '\x7d')
    {closing : List Char} :
    (closing.map lead).head? = some (lead c) ↔ closing.head? = some c := by
  have hsmall : c.toNat < 128 := by
    rcases hc with rfl | rfl | rfl <;> decide
  cases closing with
  | nil => simp
  | cons d closing => simp [lead_eq_iff hsmall]

theorem pieces?_cons (hsep : sep.toNat < 128) {closing : List Char}
    (hclosing : ∀ d ∈ closing, d ∈ [')', ']', '\x7d']) {c : Char}
    (hcut : ¬(closing = [] ∧ c = sep)) (last : Nat) (a t : Text) :
    pieces? (a ++ c :: t) (lead sep) (closing.map lead) last a.byteLength =
      if c = '\\' then
        pieces? (a ++ c :: t) (lead sep) (closing.map lead) last (a.byteLength + 2)
      else if isQuote c then
        pieces? (a ++ c :: t) (lead sep) (closing.map lead) last
          (quoteEnd (a ++ c :: t).bytes (lead c) (a.byteLength + 1) + 1)
      else pieces? (a ++ c :: t) (lead sep) ((nested closing c).map lead) last
        (a.byteLength + 1) := by
  have hbyte : ∀ d : Char, d.toNat < 128 → (lead c = lead d ↔ c = d) := fun d hd => lead_eq_iff hd
  have hcut' : ¬(closing.map lead = [] ∧ lead c = lead sep) := by
    rwa [List.map_eq_nil_iff, hbyte sep hsep]
  rw [pieces?, dif_pos (lt_length_bytes a c t)]
  simp only [getElem_bytes, if_neg hcut', hbyte '\\' (by decide), hbyte '\x22' (by decide),
    hbyte '\x27' (by decide), hbyte '(' (by decide), hbyte '[' (by decide),
    hbyte '\x7b' (by decide), hbyte ')' (by decide), hbyte ']' (by decide),
    hbyte '\x7d' (by decide), isQuote, Bool.or_eq_true, decide_eq_true_eq]
  split_ifs with hescape hquote hround hsquare hcurly hclose hhead
  · rfl
  · rfl
  · rw [hround]
    rfl
  · rw [hsquare]
    rfl
  · rw [hcurly]
    rfl
  · rw [nested_of_closes hclose, if_pos ((head?_map_lead_iff hclose).mp hhead), List.map_tail]
  · rw [nested_of_closes hclose, if_neg fun h => hhead ((head?_map_lead_iff hclose).mpr h)]
  · have hcloser : closer? c = none := by
      unfold closer?
      split <;> simp_all
    have hwaits : closing.head? ≠ some c :=
      fun h => hclose (by simpa using hclosing c (List.mem_of_mem_head? h))
    rw [nested, hcloser, if_neg hwaits]

/-- The pieces from an offset on at which something may be open. -/
def resume? (t : Text) (sep : Char) (s : State) (last i : Nat) : Option (List Text) :=
  pieces? t (lead sep) (s.closing.map lead) last <|
    match s.mode with
    | .plain => i
    | .escaped => i + 1
    | .quoted q => quoteEnd t.bytes (lead q) i + 1
    | .quotedEscaped q => quoteEnd t.bytes (lead q) (i + 1) + 1

theorem resume?_step (hsep : sep.toNat < 128) {s : State} (hs : s.Sane) {c : Char}
    (hcut : s.cutsAt sep c = false) (last : Nat) (a t : Text) :
    resume? (a ++ c :: t) sep s last a.byteLength =
      resume? (a ++ c :: t) sep (s.step c) last (a ++ [c]).byteLength := by
  obtain ⟨closing, mode⟩ := s
  have hlt := lt_length_bytes a c t
  cases mode with
  | escaped => exact pieces?_inside hsep _ last a c t
  | quotedEscaped q =>
    have hq : isQuote q = true := hs.2 q (.inr rfl)
    simp only [resume?, State.step, quoteEnd_inside hq]
  | quoted q =>
    have hq : isQuote q = true := hs.2 q (.inl rfl)
    have hne : q ≠ '\\' := by
      rintro rfl
      cases hq
    have hquote := lead_eq_iff (c := c) (toNat_lt_of_isQuote hq)
    have hescape := lead_eq_iff (c := c) (d := '\\') (by decide)
    simp only [State.step]
    split_ifs with hc hc'
    · subst hc
      simp only [resume?]
      rw [quoteEnd, dif_pos hlt, getElem_bytes, if_neg (by simpa [hquote] using hne.symm),
        if_pos rfl, byteLength_append_singleton (by decide)]
    · subst hc'
      simp only [resume?]
      rw [quoteEnd, dif_pos hlt, getElem_bytes, if_pos rfl,
        byteLength_append_singleton (toNat_lt_of_isQuote hq)]
    · simp only [resume?]
      rw [quoteEnd, dif_pos hlt, getElem_bytes, if_neg (by simpa [hquote] using hc'),
        if_neg (by simpa [hescape] using hc), quoteEnd_inside hq]
  | plain =>
    have hcut' : ¬(closing = [] ∧ c = sep) := by simpa [State.cutsAt, State.start] using hcut
    rw [resume?, pieces?_cons hsep hs.1 hcut']
    split_ifs with hescape hquote
    · subst hescape
      rw [resume?, byteLength_append_singleton (by decide)]
      rfl
    · have hstep : State.step ⟨closing, .plain⟩ c = ⟨closing, .quoted c⟩ := by
        simp [State.step, hescape, hquote]
      rw [hstep, resume?, byteLength_append_singleton (toNat_lt_of_isQuote hquote)]
    · rw [step_plain hescape hquote, resume?, pieces?_inside hsep]

/-- Behind the last character the current piece ends, whatever is open. -/
theorem resume?_nil (sep : Char) (s : State) (a p : Text) :
    resume? (a ++ p) sep s a.byteLength (a ++ p).byteLength = some [p] := by
  have hend : (a ++ p).bytes.length = (a ++ p).byteLength := length_bytes (a ++ p)
  have hlast : min a.byteLength (a ++ p).byteLength = a.byteLength :=
    Nat.min_eq_left (by rw [byteLength_append]; exact Nat.le_add_right ..)
  rw [resume?, pieces?_of_length_le, hlast, from?_byteLength, Option.map_some]
  cases s.mode with
  | plain => exact hend.le
  | escaped => exact hend.le.trans (Nat.le_succ _)
  | quoted q => exact hend.le.trans ((le_quoteEnd ..).trans (Nat.le_succ _))
  | quotedEscaped q =>
    exact hend.le.trans ((Nat.le_succ _).trans ((le_quoteEnd ..).trans (Nat.le_succ _)))

theorem pieces?_of_cut (hsep : sep.toNat < 128) (a p t : Text) :
    pieces? (a ++ p ++ sep :: t) (lead sep) [] a.byteLength (a ++ p).byteLength =
      (pieces? (a ++ p ++ sep :: t) (lead sep) [] (a ++ p ++ [sep]).byteLength
        (a ++ p ++ [sep]).byteLength).map (p :: ·) := by
  rw [pieces?, dif_pos (lt_length_bytes (a ++ p) sep t)]
  simp only [getElem_bytes, and_self, if_true, slice?_byteLength,
    byteLength_append_singleton hsep, Option.bind_eq_bind, Option.bind_some, Option.pure_def]
  rw [Option.map_eq_bind]
  rfl

theorem modifyHead_nil_append (pieces : List Text) : pieces.modifyHead ([] ++ ·) = pieces := by
  cases pieces <;> rfl

/-- The pieces from an offset on are those from the state in which the scan is there. -/
theorem resume?_eq (hsep : sep.toNat < 128) {s : State} (hs : s.Sane) (a p t : Text) :
    resume? (a ++ p ++ t) sep s a.byteLength (a ++ p).byteLength =
      some ((splitFrom sep s t).modifyHead (p ++ ·)) := by
  induction t generalizing s a p with
  | nil => rw [List.append_nil, resume?_nil, splitFrom, List.modifyHead_cons, List.append_nil]
  | cons c t ih =>
    cases hcut : s.cutsAt sep c with
    | true =>
      have hstart : s = .start ∧ c = sep := by simpa [State.cutsAt] using hcut
      obtain ⟨rfl, rfl⟩ := hstart
      have hrest := ih State.sane_start (a ++ p ++ [c]) []
      rw [List.append_nil, ← List.append_cons] at hrest
      calc resume? (a ++ p ++ c :: t) c .start a.byteLength (a ++ p).byteLength
          = (resume? (a ++ p ++ c :: t) c .start (a ++ p ++ [c]).byteLength
              (a ++ p ++ [c]).byteLength).map (p :: ·) := pieces?_of_cut hsep a p t
        _ = some (p :: splitFrom c .start t) := by
          rw [hrest, modifyHead_nil_append, Option.map_some]
        _ = some ((splitFrom c .start (c :: t)).modifyHead (p ++ ·)) := by
          rw [splitFrom, if_pos hcut, List.modifyHead_cons, List.append_nil]
    | false =>
      have hsplit : splitFrom sep s (c :: t) =
          (splitFrom sep (s.step c) t).modifyHead (c :: ·) := by
        rw [splitFrom, if_neg (by simp [hcut])]
      rw [resume?_step hsep hs hcut, List.append_cons, List.append_assoc a p [c],
        ih (hs.step c), hsplit, List.modifyHead_modifyHead]
      congr 2
      funext q
      exact List.append_assoc ..

/-- An ASCII separator may be looked for among the bytes. -/
theorem split?_eq (hsep : sep.toNat < 128) (t : Text) :
    split? (lead sep) t = some (split sep t) := by
  have hsplit := resume?_eq hsep State.sane_start [] [] t
  rwa [modifyHead_nil_append] at hsplit

end Bytewise

/-- Cutting loses nothing and leaves nothing to be cut, whatever the separator is. Up to a separator
before which everything is closed, a text is cut as if it ended there, and behind it as if it began
there. An ASCII separator may be looked for among the bytes. -/
theorem split_lossless_and_atomic (sep : Char) :
    (sep.toNat < 128 → ∀ t, Bytewise.split? (lead sep) t = some (split sep t)) ∧
      (∀ t, join sep (split sep t) = t) ∧
      (∀ t, ∀ p ∈ split sep t, split sep p = [p]) ∧
      ∀ a b, State.start.scan sep a = .start →
        split sep (a ++ sep :: b) = split sep a ++ split sep b := by
  refine ⟨Bytewise.split?_eq, fun t => (separated_split sep t).2, fun t p hp => ?_,
    fun a b ha => ?_⟩
  · exact splitFrom_of_uncut ((separated_split sep t).1.uncut_of_mem hp)
  · exact splitFrom_append ha b

/-- The separator is a quote, and the text before it ends with an escaped character. -/
theorem split_lossless_and_atomic_at_quotes :
    State.start.scan '\x22' "x\x22(\x22)\x22)\\é".toList = .start ∧
      Bytewise.split? (lead '\x22') "x\x22(\x22)\x22)\\é".toList =
        some ["x".toList, "(\x22)\x22)\\é".toList] ∧
      split '\x22' "x\x22(\x22)\x22)\\é\x22\x22".toList =
        ["x".toList, "(\x22)\x22)\\é".toList, [], []] ∧
      split '\x22' "(\x22)\x22)\\é".toList = ["(\x22)\x22)\\é".toList] ∧
      join '\x22' ["x".toList, "(\x22)\x22)\\é".toList] = "x\x22(\x22)\x22)\\é".toList := by
  obtain ⟨hbytes, hjoin, hatomic, happend⟩ := split_lossless_and_atomic '\x22'
  have hscan : State.start.scan '\x22' "x\x22(\x22)\x22)\\é".toList = .start := by decide
  have hsplit : split '\x22' "x\x22(\x22)\x22)\\é".toList =
      ["x".toList, "(\x22)\x22)\\é".toList] := by decide
  have hfound := hbytes (by decide) "x\x22(\x22)\x22)\\é".toList
  have hwhole := happend _ "\x22".toList hscan
  have hparts := hjoin "x\x22(\x22)\x22)\\é".toList
  rw [hsplit] at hfound hwhole hparts
  have hpiece : "(\x22)\x22)\\é".toList ∈ split '\x22' "x\x22(\x22)\x22)\\é".toList := by
    rw [hsplit]
    simp
  exact ⟨hscan, hfound, hwhole, hatomic _ _ hpiece, hparts⟩

end UtilityCss.Segment
