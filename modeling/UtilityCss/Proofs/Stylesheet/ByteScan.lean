import UtilityCss.Proofs.Text.Bytes
import UtilityCss.Proofs.Stylesheet.Tokenwise

/-!
# The end of a statement by byte offsets

The scan of a statement can go by offsets into the bytes of the source. Two bytes are skipped at a
backslash, which may lead inside a character, and a comment is looked for in a slice of the source,
which exists only between characters. Such a scan never asks for a slice that does not exist, and
finds what the scan by characters finds.
-/
namespace UtilityCss.Bytewise

open Text

inductive Terminator
  | semicolon
  | openBrace
  | closeBrace
  | sourceEnd
  deriving DecidableEq, Repr

def isSpaceByte (b : UInt8) : Bool :=
  b = lead '\t' || b = lead '\n' || b = lead '\x0c' || b = lead '\r' || b = lead ' '

def skipSpaces (bytes : List UInt8) (i : Nat) : Nat :=
  i + ((bytes.drop i).takeWhile isSpaceByte).length

/-- A fault at an offset, which has to lie between characters. -/
def faultAt? {α : Type} (source : Text) (fault : Fault) (i : Nat) :
    Option (Except LocatedFault α) :=
  (source.from? i).map fun rest => .error ⟨fault, rest⟩

/-- The offset past the quote that closes a string, from an offset inside the string on. -/
def closingQuote? (bytes : List UInt8) (quote : UInt8) (i : Nat) : Option Nat :=
  if h : i < bytes.length then
    if bytes[i] = lead '\\' then closingQuote? bytes quote (i + 2)
    else if bytes[i] = quote then some (i + 1)
    else closingQuote? bytes quote (i + 1)
  else none
termination_by bytes.length - i

def stringEnd? (source : Text) (quote : UInt8) (start : Nat) : Option (Except LocatedFault Nat) :=
  match closingQuote? source.bytes quote (start + 1) with
  | some stop => some (.ok stop)
  | none => faultAt? source .unclosedString start

def commentEnd? (source : Text) (start : Nat) : Option (Except LocatedFault Nat) := do
  match (← source.from? (start + 2)).findWord? ['*', '/'] with
  | some offset => some (.ok (start + 2 + offset + 2))
  | none => faultAt? source .unclosedComment start

theorem lt_of_closingQuote? {bytes : List UInt8} {quote : UInt8} {i stop : Nat}
    (h : closingQuote? bytes quote i = some stop) : i < stop := by
  fun_induction closingQuote? bytes quote i with
  | case1 i _ _ ih => exact Nat.lt_of_succ_lt (Nat.lt_of_succ_lt (ih h))
  | case2 i _ _ _ =>
    cases h
    exact Nat.lt_succ_self i
  | case3 i _ _ _ ih => exact Nat.lt_of_succ_lt (ih h)
  | case4 => cases h

theorem lt_of_stringEnd? {source : Text} {quote : UInt8} {start stop : Nat}
    (h : stringEnd? source quote start = some (.ok stop)) : start < stop := by
  unfold stringEnd? at h
  split at h
  · rename_i heq
    cases h
    exact Nat.lt_of_succ_lt (lt_of_closingQuote? heq)
  · obtain ⟨_, _, heq⟩ := Option.map_eq_some_iff.mp h
    cases heq

theorem lt_of_commentEnd? {source : Text} {start stop : Nat}
    (h : commentEnd? source start = some (.ok stop)) : start < stop := by
  obtain ⟨rest, -, h⟩ := Option.bind_eq_some_iff.mp h
  split at h
  · cases h
    omega
  · obtain ⟨_, _, heq⟩ := Option.map_eq_some_iff.mp h
    cases heq

/-- The offset at which the statement ends that is read at `i`, and what ends it. -/
def statementEnd? (source : Text) (depth i : Nat) :
    Option (Except LocatedFault (Nat × Terminator)) :=
  if h : i < source.bytes.length then
    let b := source.bytes[i]
    if b = lead '\\' then statementEnd? source depth (min (i + 2) source.bytes.length)
    else if b = lead '\x22' ∨ b = lead '\x27' then
      match _h : stringEnd? source b i with
      | none => none
      | some (.error f) => some (.error f)
      | some (.ok stop) => statementEnd? source depth stop
    else if b = lead '/' ∧ source.bytes[i + 1]? = some (lead '*') then
      match _h : commentEnd? source i with
      | none => none
      | some (.error f) => some (.error f)
      | some (.ok stop) => statementEnd? source depth stop
    else if b = lead '(' ∨ b = lead '[' then statementEnd? source (depth + 1) (i + 1)
    else if b = lead ')' ∨ b = lead ']' then statementEnd? source (depth - 1) (i + 1)
    else if b = lead ';' ∧ depth = 0 then some (.ok (i, .semicolon))
    else if b = lead '\x7b' ∧ depth = 0 then some (.ok (i, .openBrace))
    else if b = lead '\x7d' ∧ depth = 0 then some (.ok (i, .closeBrace))
    else statementEnd? source depth (i + 1)
  else some (.ok (source.bytes.length, .sourceEnd))
termination_by source.bytes.length - i
decreasing_by
  · omega
  · have := lt_of_stringEnd? _h
    omega
  · have := lt_of_commentEnd? _h
    omega
  all_goals omega

theorem closingQuote?_of_ne {bytes : List UInt8} {quote b : UInt8} {i : Nat}
    (hb : bytes[i]? = some b) (hescape : b ≠ lead '\\') (hquote : b ≠ quote) :
    closingQuote? bytes quote i = closingQuote? bytes quote (i + 1) := by
  obtain ⟨hlt, rfl⟩ := List.getElem?_eq_some_iff.mp hb
  rw [closingQuote?, dif_pos hlt, if_neg hescape, if_neg hquote]

theorem closingQuote?_inside {q : Char} (hq : isQuote q = true) (a : Text) (c : Char) (t : Text) :
    closingQuote? (a ++ c :: t).bytes (lead q) (a.byteLength + 1) =
      closingQuote? (a ++ c :: t).bytes (lead q) (a ++ [c]).byteLength :=
  eq_of_inside fun _ _ hb hlarge => closingQuote?_of_ne hb (ne_lead_of_large hlarge (by decide))
    (ne_lead_of_large hlarge (toNat_lt_of_isQuote hq))

theorem closingQuote?_eq {q : Char} (hq : isQuote q = true) (a t : Text) :
    closingQuote? (a ++ t).bytes (lead q) a.byteLength =
      (Scan.string? q t).map fun p => a.byteLength + byteLength p.1 := by
  have hsmall := toNat_lt_of_isQuote hq
  fun_induction Scan.string? q t generalizing a with
  | case1 =>
    rw [closingQuote?, dif_neg]
    · rfl
    · rw [List.append_nil, length_bytes]
      omega
  | case2 =>
    rw [closingQuote?, dif_pos (lt_length_bytes a '\\' []), getElem_bytes, if_pos rfl,
      closingQuote?, dif_neg]
    · rfl
    · rw [length_bytes, byteLength_append_singleton (by decide)]
      omega
  | case3 c t ih =>
    have hback : (a ++ ['\\']).byteLength = a.byteLength + 1 :=
      byteLength_append_singleton (by decide) a
    have happ : a ++ ['\\'] ++ [c] ++ t = a ++ '\\' :: c :: t := by simp
    have hinside := closingQuote?_inside hq (a ++ ['\\']) c t
    have hrest := ih (a ++ ['\\'] ++ [c])
    rw [hback, ← List.append_cons a] at hinside
    rw [happ] at hrest
    rw [closingQuote?, dif_pos (lt_length_bytes a '\\' (c :: t)), getElem_bytes, if_pos rfl,
      hinside, hrest, Option.map_map]
    refine Option.map_congr fun p _ => ?_
    rw [byteLength_append, hback, byteLength_cons, byteLength, Function.comp_apply,
      byteLength_cons, byteLength_cons, utf8Size_of_lt (c := '\\') (by decide)]
    omega
  | case4 t =>
    have hne : lead q ≠ lead '\\' := by
      rw [Ne, lead_eq_iff (by decide)]
      rintro rfl
      cases hq
    rw [closingQuote?, dif_pos (lt_length_bytes a q t), getElem_bytes, if_neg hne, if_pos rfl,
      Option.map_some, byteLength_cons, utf8Size_of_lt hsmall, byteLength]
  | case5 c t hnil hcons hc ih =>
    have hescape : lead c ≠ lead '\\' := by
      rw [Ne, lead_eq_iff (by decide)]
      rintro rfl
      cases t with
      | nil => exact hnil rfl rfl
      | cons c t => exact hcons c t rfl rfl
    have hne : lead c ≠ lead q := by
      rwa [Ne, lead_eq_iff hsmall]
    have hrest := ih (a ++ [c])
    rw [← List.append_cons] at hrest
    rw [closingQuote?_of_ne (by rw [getElem?_bytes]; rfl) hescape hne, closingQuote?_inside hq,
      hrest, Option.map_map]
    refine Option.map_congr fun p _ => ?_
    rw [byteLength_append, byteLength_cons, byteLength, Function.comp_apply, byteLength_cons]
    omega

theorem faultAt?_eq {α : Type} (a t : Text) (fault : Fault) :
    faultAt? (a ++ t) fault a.byteLength = some (.error ⟨fault, t⟩ : Except LocatedFault α) := by
  rw [faultAt?, from?_byteLength]
  rfl

theorem findWord?_eq (t : Text) :
    findWord? t ['*', '/'] = (Scan.comment? t).map fun p => byteLength p.1 := by
  induction t with
  | nil => rfl
  | cons c t ih =>
    have hclose := Scan.isPrefixOf_close_iff c t
    rw [findWord?, Scan.comment?]
    by_cases hend : c = '*' ∧ t.head? = some '/'
    · rw [if_pos (hclose.mpr hend), if_pos hend]
      rfl
    · rw [if_neg (hclose.not.mpr hend), if_neg hend, ih, Option.map_map, Option.map_map]
      rfl

theorem commentEnd?_eq (a t : Text) :
    commentEnd? (a ++ '/' :: '*' :: t) a.byteLength =
      match Scan.comment? t with
      | none => some (.error ⟨.unclosedComment, '/' :: '*' :: t⟩)
      | some (x, _) => some (.ok (a ++ ('/' :: '*' :: x ++ ['*', '/'])).byteLength) := by
  have happ : a ++ '/' :: '*' :: t = a ++ ['/', '*'] ++ t := by simp
  have hstart : (a ++ ['/', '*']).byteLength = a.byteLength + 2 := byteLength_append ..
  have hfrom := from?_byteLength (a ++ ['/', '*']) t
  rw [hstart, ← happ] at hfrom
  rw [commentEnd?, hfrom, Option.bind_eq_bind, Option.bind_some, findWord?_eq]
  cases Scan.comment? t with
  | none => exact faultAt?_eq ..
  | some p =>
    have hwidth : (a ++ ('/' :: '*' :: p.1 ++ ['*', '/'])).byteLength =
        a.byteLength + 2 + p.1.byteLength + 2 := by
      have hopen : byteLength ['/', '*'] = 2 := rfl
      have hclose : byteLength ['*', '/'] = 2 := rfl
      have hbody : '/' :: '*' :: p.1 ++ ['*', '/'] = ['/', '*'] ++ p.1 ++ ['*', '/'] := by simp
      rw [byteLength_append, hbody, byteLength_append, byteLength_append, hopen, hclose]
      omega
    change some (Except.ok (a.byteLength + 2 + p.1.byteLength + 2)) = _
    rw [← hwidth]

theorem stringEnd?_eq {q : Char} (hq : isQuote q = true) (a t : Text) :
    stringEnd? (a ++ q :: t) (lead q) a.byteLength =
      match Scan.string? q t with
      | none => some (.error ⟨.unclosedString, q :: t⟩)
      | some (x, _) => some (.ok (a ++ q :: x).byteLength) := by
  have hsmall := toNat_lt_of_isQuote hq
  have hclosing := closingQuote?_eq hq (a ++ [q]) t
  rw [byteLength_append_singleton hsmall, ← List.append_cons] at hclosing
  rw [stringEnd?, hclosing]
  cases Scan.string? q t with
  | none => exact faultAt?_eq ..
  | some p =>
    have hwidth : (a ++ q :: p.1).byteLength = a.byteLength + 1 + p.1.byteLength := by
      rw [List.append_cons, byteLength_append, byteLength_append_singleton hsmall]
    change some (Except.ok (a.byteLength + 1 + p.1.byteLength)) = _
    rw [← hwidth]

def specials : List Char := ['\\', '\x22', '\x27', '/', '(', '[', ')', ']', ';', '\x7b', '\x7d']

def isOrdinary (b : UInt8) : Bool := specials.all (b ≠ lead ·)

theorem special_of_mem {d : Char} (hd : d ∈ specials) :
    d.toNat < 128 ∧ Scan.isSpecial d = true := by
  have hall : specials.all (fun e => e.toNat < 128 && Scan.isSpecial e) = true := rfl
  simpa using List.all_eq_true.mp hall d hd

theorem isOrdinary_of_large {b : UInt8} (hb : 128 ≤ b.toNat) : isOrdinary b = true := by
  apply List.all_eq_true.mpr
  intro d hd
  simpa using ne_lead_of_large hb (special_of_mem hd).1

theorem isOrdinary_lead {c : Char} (hc : Scan.isSpecial c = false) :
    isOrdinary (lead c) = true := by
  apply List.all_eq_true.mpr
  intro d hd
  obtain ⟨hsmall, htrue⟩ := special_of_mem hd
  have hne : lead c ≠ lead d := by
    rw [Ne, lead_eq_iff hsmall]
    rintro rfl
    rw [hc] at htrue
    cases htrue
  simpa using hne

theorem statementEnd?_of_isOrdinary {source : Text} {i : Nat} {b : UInt8}
    (hb : source.bytes[i]? = some b) (ho : isOrdinary b = true) (depth : Nat) :
    statementEnd? source depth i = statementEnd? source depth (i + 1) := by
  obtain ⟨hlt, rfl⟩ := List.getElem?_eq_some_iff.mp hb
  have hne : ∀ d ∈ specials, source.bytes[i] ≠ lead d := by
    intro d hd
    simpa using List.all_eq_true.mp ho d hd
  simp only [specials, List.forall_mem_cons] at hne
  rw [statementEnd?, dif_pos hlt]
  simp [hne]

def resume (source : Text) (depth : Nat) :
    Except LocatedFault Nat → Option (Except LocatedFault (Nat × Terminator))
  | .error f => some (.error f)
  | .ok stop => statementEnd? source depth stop

/-- What the scan does at a character that it looks for. -/
theorem statementEnd?_cons (a : Text) (c : Char) (t : Text) (depth : Nat) :
    statementEnd? (a ++ c :: t) depth a.byteLength =
      if c = '\\' then
        statementEnd? (a ++ c :: t) depth (min (a.byteLength + 2) (a ++ c :: t).byteLength)
      else if c = '\x22' ∨ c = '\x27' then
        (stringEnd? (a ++ c :: t) (lead c) a.byteLength).bind (resume (a ++ c :: t) depth)
      else if c = '/' ∧ (a ++ c :: t).bytes[a.byteLength + 1]? = some (lead '*') then
        (commentEnd? (a ++ c :: t) a.byteLength).bind (resume (a ++ c :: t) depth)
      else if c = '(' ∨ c = '[' then
        statementEnd? (a ++ c :: t) (depth + 1) (a.byteLength + 1)
      else if c = ')' ∨ c = ']' then
        statementEnd? (a ++ c :: t) (depth - 1) (a.byteLength + 1)
      else if c = ';' ∧ depth = 0 then some (.ok (a.byteLength, .semicolon))
      else if c = '\x7b' ∧ depth = 0 then some (.ok (a.byteLength, .openBrace))
      else if c = '\x7d' ∧ depth = 0 then some (.ok (a.byteLength, .closeBrace))
      else statementEnd? (a ++ c :: t) depth (a.byteLength + 1) := by
  have hlead : ∀ d : Char, d.toNat < 128 → (lead c = lead d ↔ c = d) := fun d => lead_eq_iff
  rw [statementEnd?, dif_pos (lt_length_bytes a c t)]
  simp only [getElem_bytes, length_bytes, hlead '\\' (by decide), hlead '\x22' (by decide),
    hlead '\x27' (by decide), hlead '/' (by decide), hlead '(' (by decide), hlead '[' (by decide),
    hlead ')' (by decide), hlead ']' (by decide), hlead ';' (by decide), hlead '\x7b' (by decide),
    hlead '\x7d' (by decide)]
  congr
  · split <;> rename_i heq <;> rw [getElem_bytes] at heq <;> rw [heq] <;> rfl
  · split <;> rename_i heq <;> rw [heq] <;> rfl

def Terminator.ofRest : Text → Terminator
  | [] => .sourceEnd
  | ';' :: _ => .semicolon
  | '\x7b' :: _ => .openBrace
  | _ => .closeBrace

def ending (n : Nat) (r : Except LocatedFault (Text × Text)) :
    Except LocatedFault (Nat × Terminator) :=
  r.map fun p => (n + byteLength p.1, .ofRest p.2)

theorem ending_prepend (n : Nat) (x : Text) (r : Except LocatedFault (Text × Text)) :
    ending n (Scan.prepend x r) = ending (n + x.byteLength) r := by
  cases r with
  | error f => rfl
  | ok p =>
    change Except.ok (n + byteLength (x ++ p.1), _) =
      Except.ok (n + byteLength x + byteLength p.1, _)
    rw [byteLength_append, Nat.add_assoc]

/-- The bytes of a character at which the scan just goes on. -/
theorem statementEnd?_inside (a : Text) (c : Char) (t : Text) (depth : Nat) :
    statementEnd? (a ++ c :: t) depth (a.byteLength + 1) =
      statementEnd? (a ++ c :: t) depth (a ++ [c]).byteLength :=
  eq_of_inside fun _ _ hb hlarge =>
    statementEnd?_of_isOrdinary hb (isOrdinary_of_large hlarge) depth

theorem statementEnd?_string {q : Char} (hq : isQuote q = true) (a t : Text) (depth : Nat) :
    statementEnd? (a ++ q :: t) depth a.byteLength =
      (stringEnd? (a ++ q :: t) (lead q) a.byteLength).bind (resume (a ++ q :: t) depth) := by
  simp only [isQuote, Bool.or_eq_true, decide_eq_true_eq] at hq
  rw [statementEnd?_cons]
  rcases hq with rfl | rfl <;> rfl

theorem statementEnd?_slash (a t : Text) (depth : Nat) :
    statementEnd? (a ++ '/' :: t) depth a.byteLength =
      if t.head? = some '*' then
        (commentEnd? (a ++ '/' :: t) a.byteLength).bind (resume (a ++ '/' :: t) depth)
      else statementEnd? (a ++ '/' :: t) depth (a.byteLength + 1) := by
  have hstar := getElem?_bytes_succ_eq_iff (c := '/') (d := '*') (by decide) (by decide) a t
  rw [statementEnd?_cons]
  simp [hstar]

theorem statementEnd?_append {d : Nat} {rest : Text} {r : Except LocatedFault (Text × Text)}
    (h : ∀ a : Text, statementEnd? (a ++ rest) d a.byteLength = some (ending a.byteLength r))
    (a x : Text) :
    statementEnd? (a ++ (x ++ rest)) d (a ++ x).byteLength =
      some (ending a.byteLength (Scan.prepend x r)) := by
  rw [← List.append_assoc, h, ending_prepend, byteLength_append]

theorem statementEnd?_append_singleton {d : Nat} {t : Text} {c : Char}
    {r : Except LocatedFault (Text × Text)}
    (h : ∀ a : Text, statementEnd? (a ++ t) d a.byteLength = some (ending a.byteLength r))
    (hc : c.toNat < 128) (a : Text) :
    statementEnd? (a ++ c :: t) d (a.byteLength + 1) =
      some (ending a.byteLength (Scan.prepend [c] r)) := by
  rw [← byteLength_append_singleton hc]
  exact statementEnd?_append h a [c]

/-- The scan by offsets finds what the scan by characters finds, and all slices that it asks for
exist. -/
theorem statementEnd?_eq_of_tokenwise {d : Nat} {t : Text} {r : Except LocatedFault (Text × Text)}
    (h : Scan.Tokenwise d t r) (a : Text) :
    statementEnd? (a ++ t) d a.byteLength = some (ending a.byteLength r) := by
  induction h generalizing a with
  | finish d =>
    rw [List.append_nil, statementEnd?, dif_neg (by rw [length_bytes]; omega), length_bytes]
    rfl
  | @stop c t hc =>
    simp only [Scan.isTerminator, Bool.or_eq_true, decide_eq_true_eq] at hc
    rw [statementEnd?_cons]
    rcases hc with (rfl | rfl) | rfl <;> rfl
  | @pass d c t r hc hr ih =>
    simp only [Scan.isTerminator, Bool.or_eq_true, decide_eq_true_eq] at hc
    rw [statementEnd?_cons]
    rcases hc with (rfl | rfl) | rfl <;> exact statementEnd?_append_singleton ih (by decide) a
  | openEscape d =>
    have hwidth : (a ++ ['\\']).byteLength = a.byteLength + 1 :=
      byteLength_append_singleton (by decide) a
    rw [statementEnd?_cons, if_pos rfl, statementEnd?, dif_neg (by rw [length_bytes]; omega),
      length_bytes, hwidth]
    rfl
  | @escape d c t r hr ih =>
    -- The second of the two bytes that are skipped is the first one of the escaped character.
    have hback : (a ++ ['\\']).byteLength = a.byteLength + 1 :=
      byteLength_append_singleton (by decide) a
    have hskip : min (a.byteLength + 2) (a ++ '\\' :: c :: t).byteLength = a.byteLength + 2 := by
      have hpos := c.utf8Size_pos
      rw [byteLength_append, byteLength_cons, byteLength_cons,
        utf8Size_of_lt (c := '\\') (by decide)]
      omega
    have hinside := statementEnd?_inside (a ++ ['\\']) c t d
    rw [hback, ← List.append_cons, List.append_assoc] at hinside
    rw [statementEnd?_cons, if_pos rfl, hskip, hinside]
    exact statementEnd?_append ih a ['\\', c]
  | @openString d q t hq ht =>
    rw [statementEnd?_string hq, stringEnd?_eq hq, ht]
    rfl
  | @string d q t x rest r hq ht hr ih =>
    have happ := Scan.eq_append_of_string? ht
    rw [statementEnd?_string hq, stringEnd?_eq hq, ht, happ]
    exact statementEnd?_append ih a (q :: x)
  | @openComment d t ht =>
    rw [statementEnd?_slash, List.head?_cons, if_pos rfl, commentEnd?_eq, ht]
    rfl
  | @comment d t x rest r ht hr ih =>
    have happ : '/' :: '*' :: t = '/' :: '*' :: x ++ ['*', '/'] ++ rest := by
      rw [Scan.eq_append_of_comment? ht]
      simp
    rw [statementEnd?_slash, List.head?_cons, if_pos rfl, commentEnd?_eq, ht, happ]
    exact statementEnd?_append ih a _
  | @slash d t r ht hr ih =>
    rw [statementEnd?_slash, if_neg ht]
    exact statementEnd?_append_singleton ih (by decide) a
  | @opening d c t r hc hr ih =>
    rw [statementEnd?_cons]
    rcases hc with rfl | rfl <;> exact statementEnd?_append_singleton ih (by decide) a
  | @closing d c t r hc hr ih =>
    rw [statementEnd?_cons]
    rcases hc with rfl | rfl <;> exact statementEnd?_append_singleton ih (by decide) a
  | @other d c t r hc hr ih =>
    have hb : (a ++ c :: t).bytes[a.byteLength]? = some (lead c) := getElem?_bytes a (c :: t)
    rw [statementEnd?_of_isOrdinary hb (isOrdinary_lead hc), statementEnd?_inside]
    exact statementEnd?_append ih a [c]

theorem statementEnd?_eq (a t : Text) :
    statementEnd? (a ++ t) 0 a.byteLength = some (ending a.byteLength (Scan.statement t)) :=
  statementEnd?_eq_of_tokenwise (Scan.tokenwise_statementFrom 0 t t) a

end UtilityCss.Bytewise
