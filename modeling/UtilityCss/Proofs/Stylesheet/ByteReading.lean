import UtilityCss.Proofs.Stylesheet.ByteScan
import UtilityCss.Proofs.Stylesheet.Places

/-!
# Reading by byte offsets

A stylesheet read by offsets into its bytes, with every slice of the source and of a statement taken
where the offsets say. A slice that does not exist would stop the reading. That never happens, and
what is read is the stylesheet that reading by characters gives, or the same fault.
-/
namespace UtilityCss.Bytewise

open Text Event

def splitAtRule? (rest : Text) : Option (Text × Text × Text) := do
  let nameEnd := (rest.find? Statement.endsName).getD rest.byteLength
  let name ← rest.slice? 0 nameEnd
  let afterNameEnd := nameEnd + leadingWidth (← rest.from? nameEnd)
  return (name, ← rest.slice? nameEnd afterNameEnd, ← rest.from? afterNameEnd)

def splitImportant? (value : Text) : Option (Text × Text) :=
  match value.findLast? '!' with
  | none => some (value, [])
  | some bang => do
    if Statement.isImportant (← value.from? (bang + 1)) then
      let head := (← value.slice? 0 bang).trimRight
      return (head, ← value.from? head.byteLength)
    else return (value, [])

def declaration? (raws : Raws) (body : Text) : Option (Option Content) :=
  match body.find? (· = ':') with
  | none => some none
  | some colon => do
    let front ← body.slice? 0 colon
    if front.isBlankText then return none
    else
      let property := front.trimRight
      let valueStart := colon + 1 + leadingWidth (← body.from? (colon + 1))
      let parts ← splitImportant? (← body.from? valueStart)
      let between ← body.slice? property.byteLength valueStart
      return some
        { kind := .declaration property parts.1 (!parts.2.isEmpty)
          raws := { raws with between := between, important := parts.2 } }

def blockless? (before text : Text) : Option (Option Content) := do
  let body := text.trimRight
  let raws : Raws := { before := before, after := ← text.from? body.byteLength }
  match body with
  | '@' :: rest => do
    let parts ← splitAtRule? rest
    return some ⟨.atRule ⟨parts.1, parts.2.2, false⟩, { raws with afterName := parts.2.1 }⟩
  | _ => declaration? raws body

def prelude? (before text : Text) : Option Content := do
  let body := text.trimRight
  let raws : Raws := { before := before, between := ← text.from? body.byteLength }
  match body with
  | '@' :: rest => do
    let parts ← splitAtRule? rest
    return ⟨.atRule ⟨parts.1, parts.2.2, true⟩, { raws with afterName := parts.2.1 }⟩
  | _ => return ⟨.rule body, raws⟩

theorem leadingWidth_eq (t : Text) : leadingWidth t = t.leadingBlanks.byteLength := by
  have hwhole := congrArg byteLength (leadingBlanks_append_trimLeft t)
  rw [byteLength_append] at hwhole
  rw [leadingWidth]
  omega

theorem slice?_zero (a b : Text) : slice? 0 a.byteLength (a ++ b) = some a :=
  slice?_byteLength [] a b

theorem from?_trimRight (t : Text) : t.from? t.trimRight.byteLength = some t.trailingBlanks := by
  have h := from?_byteLength t.trimRight t.trailingBlanks
  rwa [trimRight_append_trailingBlanks] at h

theorem splitAtRule?_eq (t : Text) :
    splitAtRule? t =
      some (t.takeWhile (!Statement.endsName ·),
        leadingBlanks (t.dropWhile (!Statement.endsName ·)),
        trimLeft (t.dropWhile (!Statement.endsName ·))) := by
  have hend := getD_find? Statement.endsName t
  have happ : t.takeWhile (!Statement.endsName ·) ++ t.dropWhile (!Statement.endsName ·) = t :=
    List.takeWhile_append_dropWhile
  generalize t.takeWhile (!Statement.endsName ·) = name at hend happ ⊢
  generalize t.dropWhile (!Statement.endsName ·) = rest at happ ⊢
  subst happ
  have hrest := leadingBlanks_append_trimLeft rest
  have hslice := slice?_byteLength name (leadingBlanks rest) (trimLeft rest)
  have hfrom := from?_byteLength (name ++ leadingBlanks rest) (trimLeft rest)
  rw [List.append_assoc, hrest, byteLength_append] at hslice hfrom
  simp only [splitAtRule?, hend, slice?_zero, from?_byteLength, leadingWidth_eq, hslice, hfrom,
    Option.bind_eq_bind, Option.bind_some]
  rfl

theorem splitImportant?_eq (value : Text) :
    splitImportant? value = some (Statement.splitImportant value) := by
  rw [splitImportant?, Statement.splitImportant, findLast?]
  cases hsplit : value.splitLast? '!' with
  | none => rfl
  | some p =>
    obtain ⟨front, mark⟩ := p
    have happ := eq_append_of_splitLast? hsplit
    have hmark := from?_byteLength (front ++ ['!']) mark
    rw [byteLength_append_singleton (by decide), ← List.append_cons, ← happ] at hmark
    have hfront := slice?_zero front ('!' :: mark)
    rw [← happ] at hfront
    have htrim := from?_byteLength front.trimRight (front.trailingBlanks ++ '!' :: mark)
    rw [← List.append_assoc, trimRight_append_trailingBlanks, ← happ] at htrim
    simp only [Option.map_some, hmark, Option.bind_eq_bind, Option.bind_some]
    split_ifs with himportant
    · simp only [hfront, htrim, Option.bind_some]
      rfl
    · rfl

theorem declaration?_eq (raws : Raws) (body : Text) :
    declaration? raws body = some (Statement.declaration? raws body) := by
  rw [declaration?, Statement.declaration?, find?_eq_map_splitFirst?]
  cases hsplit : body.splitFirst? ':' with
  | none => rfl
  | some p =>
    obtain ⟨front, rest⟩ := p
    have happ := eq_append_of_splitFirst? hsplit
    have hfront := slice?_zero front (':' :: rest)
    rw [← happ] at hfront
    have hcolon := byteLength_append_singleton (c := ':') (by decide) front
    have hrest := from?_byteLength (front ++ [':']) rest
    rw [hcolon, ← List.append_cons, ← happ] at hrest
    have hwhole : front.trimRight ++ (front.trailingBlanks ++ ':' :: rest.leadingBlanks) ++
        rest.trimLeft = body := by
      rw [happ]
      conv_rhs => rw [← trimRight_append_trailingBlanks front, ← leadingBlanks_append_trimLeft rest]
      simp
    have hwidth :
        (front.trimRight ++ (front.trailingBlanks ++ ':' :: rest.leadingBlanks)).byteLength =
          front.byteLength + 1 + rest.leadingBlanks.byteLength := by
      rw [← List.append_assoc, trimRight_append_trailingBlanks, List.append_cons, byteLength_append,
        hcolon]
    have hvalue := from?_byteLength
      (front.trimRight ++ (front.trailingBlanks ++ ':' :: rest.leadingBlanks)) rest.trimLeft
    have hbetween := slice?_byteLength front.trimRight
      (front.trailingBlanks ++ ':' :: rest.leadingBlanks) rest.trimLeft
    rw [hwhole, hwidth] at hvalue hbetween
    simp only [Option.map_some, hfront, Option.bind_eq_bind, Option.bind_some]
    split_ifs with hblank
    · rfl
    · simp only [hrest, leadingWidth_eq, hvalue, splitImportant?_eq, hbetween, Option.bind_some]
      rfl

theorem blockless?_eq (before text : Text) :
    blockless? before text =
      some (Statement.body? { before := before, after := text.trailingBlanks } text.trimRight) := by
  simp only [blockless?, from?_trimRight, Option.bind_eq_bind, Option.bind_some]
  generalize text.trimRight = body
  split
  · rw [splitAtRule?_eq]
    rfl
  · rename_i hat
    rw [Statement.body?]
    · exact declaration?_eq ..
    · exact hat

theorem prelude?_eq (before text : Text) :
    prelude? before text = some (Statement.prelude before text) := by
  simp only [prelude?, from?_trimRight, Option.bind_eq_bind, Option.bind_some]
  split
  · rename_i rest hat
    rw [splitAtRule?_eq, Statement.prelude, hat]
    rfl
  · rename_i hat
    rw [Statement.prelude]
    split
    · rename_i rest heq
      exact absurd heq (hat rest)
    · rfl

/-- What is read at an offset, with the offset behind an event. -/
inductive Step
  | finish (after : Text)
  | fault (f : LocatedFault)
  | event (e : Event) (next : Nat)

def bodyAt? (source before text : Text) (start : Nat) (terminated : Bool) (next : Nat) :
    Option Step := do
  match ← blockless? before text with
  | none => return .fault ⟨.unknownWord text.trimRight.trim, ← source.from? start⟩
  | some content => return .event (.statement content terminated) next

def endedAt? (source before : Text) (start stop : Nat) (terminator : Terminator) :
    Option Step := do
  let text ← source.slice? start stop
  match terminator with
  | .openBrace =>
    return .event (.opening (← prelude? before text) (← source.from? stop)) (stop + 1)
  | .semicolon => bodyAt? source before text start true (stop + 1)
  | .closeBrace | .sourceEnd =>
    let trimmed := text.trimRight
    bodyAt? source before trimmed start false (start + trimmed.byteLength)

def statementAt? (source before : Text) (start : Nat) : Option Step := do
  match ← statementEnd? source 0 start with
  | .error f => return .fault f
  | .ok (stop, terminator) => endedAt? source before start stop terminator

def commentAt? (source before : Text) (start : Nat) : Option Step := do
  match ← commentEnd? source start with
  | .error f => return .fault f
  | .ok stop =>
    let text ← source.slice? (start + 2) (stop - 2)
    return .event (.comment ⟨.comment text, { before := before }⟩) stop

def stepAt? (source : Text) (pos : Nat) : Option Step := do
  let start := skipSpaces source.bytes pos
  let before ← source.slice? pos start
  match source.bytes[start]? with
  | none => return .finish before
  | some b =>
    if b = lead '\x7d' then
      return .event (.closing before (← source.from? start)) (start + 1)
    else if b = lead ';' then return .event (.stray before) (start + 1)
    else if b = lead '/' ∧ source.bytes[start + 1]? = some (lead '*') then
      commentAt? source before start
    else statementAt? source before start

/-- The events from an offset on. An event takes something of the source, which is tested here only
so that the reading is seen to end. -/
def streamFrom? (source : Text) (pos : Nat) : Option EventStream :=
  match stepAt? source pos with
  | none => none
  | some (.finish after) => some (.finish after)
  | some (.fault f) => some (.fault f)
  | some (.event e next) =>
    if pos < next ∧ next ≤ source.byteLength then (streamFrom? source next).map (.next e) else none
termination_by source.byteLength - pos

def parse? (source : Text) : Option (Except ParseError Stylesheet) := do
  match (Nesting.ofEvents (← streamFrom? source 0)).toBlock with
  | .ok b => return .ok (Stylesheet.ofBlock b)
  | .error f =>
    let position ← Position.ofByteOffset? source (source.byteLength - f.remaining.byteLength)
    return .error ⟨f.fault, position⟩

theorem isSpaceByte_lead (c : Char) : isSpaceByte (lead c) = isAsciiSpace c := by
  have hlead : ∀ d : Char, d.toNat < 128 → (lead c = lead d ↔ c.toNat = d.toNat) := by
    intro d hd
    rw [lead_eq_iff hd, Char.toNat_inj]
  rw [Bool.eq_iff_iff]
  simp only [isSpaceByte, isAsciiSpace, Bool.or_eq_true, decide_eq_true_eq, beq_iff_eq,
    hlead '\t' (by decide), hlead '\n' (by decide), hlead '\x0c' (by decide),
    hlead '\r' (by decide), hlead ' ' (by decide)]
  rfl

theorem length_takeWhile_isSpaceByte (t : Text) :
    (t.bytes.takeWhile isSpaceByte).length = byteLength (t.takeWhile isAsciiSpace) := by
  induction t with
  | nil => rfl
  | cons c t ih =>
    rw [bytes_cons, List.takeWhile_cons]
    by_cases hspace : isAsciiSpace c = true
    · have hsmall : c.toNat < 128 := by
        simp only [isAsciiSpace, Bool.or_eq_true, beq_iff_eq] at hspace
        omega
      have hone : String.utf8EncodeChar c = [lead c] := by
        rw [lead, utf8EncodeChar_of_lt hsmall, List.headD_cons]
      rw [hone, List.singleton_append, List.takeWhile_cons, isSpaceByte_lead, hspace, if_pos rfl,
        if_pos rfl, List.length_cons, ih, byteLength_cons, utf8Size_of_lt hsmall, Nat.add_comm]
    · rw [lead_cons_tail, List.cons_append, List.takeWhile_cons, isSpaceByte_lead, if_neg hspace,
        if_neg hspace]
      rfl

theorem skipSpaces_eq (a t : Text) :
    skipSpaces (a ++ t).bytes a.byteLength = byteLength (a ++ t.takeWhile isAsciiSpace) := by
  rw [skipSpaces, bytes_append, ← length_bytes, List.drop_left, length_takeWhile_isSpaceByte,
    byteLength_append, length_bytes]

def Step.ofFirst (n : Nat) : First → Step
  | .finish after => .finish after
  | .fault f => .fault f
  | .event e rest => .event e (n - rest.byteLength)

theorem bodyAt?_eq {a u rest : Text} {next : Nat}
    (hnext : next = (a ++ u).byteLength - rest.byteLength) (before text : Text)
    (terminated : Bool) :
    bodyAt? (a ++ u) before text a.byteLength terminated next =
      some (.ofFirst (a ++ u).byteLength
        (ofBody before text.trimRight text.trailingBlanks u terminated rest)) := by
  rw [bodyAt?, blockless?_eq, Option.bind_eq_bind, Option.bind_some, ofBody]
  cases Statement.body? { before := before, after := text.trailingBlanks } text.trimRight with
  | none =>
    rw [from?_byteLength]
    rfl
  | some c =>
    rw [hnext]
    rfl

theorem bodyAt?_trimRight (a before text rest : Text) :
    bodyAt? (a ++ (text ++ rest)) before text.trimRight a.byteLength false
        (a.byteLength + text.trimRight.byteLength) =
      some (.ofFirst (a ++ (text ++ rest)).byteLength
        (ofBody before text.trimRight [] (text ++ rest) false (text.trailingBlanks ++ rest))) := by
  have htext := congrArg byteLength (trimRight_append_trailingBlanks text)
  rw [byteLength_append] at htext
  have hnext : a.byteLength + text.trimRight.byteLength =
      (a ++ (text ++ rest)).byteLength - (text.trailingBlanks ++ rest).byteLength := by
    rw [byteLength_append, byteLength_append, byteLength_append]
    omega
  rw [bodyAt?_eq hnext, trimRight_trimRight, trailingBlanks_of_trimRight_eq (trimRight_trimRight _)]

theorem endedAt?_eq {a before text rest : Text}
    (h : Scan.statement (text ++ rest) = .ok (text, rest)) :
    endedAt? (a ++ (text ++ rest)) before a.byteLength (a.byteLength + text.byteLength)
        (.ofRest rest) =
      some (.ofFirst (a ++ (text ++ rest)).byteLength (ofStatement before (text ++ rest))) := by
  have hslice := slice?_byteLength a text rest
  have hplace := from?_byteLength (a ++ text) rest
  rw [List.append_assoc, byteLength_append] at hslice hplace
  rw [endedAt?, hslice, Option.bind_eq_bind, Option.bind_some, ofStatement, h]
  cases rest with
  | nil => exact bodyAt?_trimRight a before text []
  | cons c rest =>
    have hterminator := Scan.isTerminator_of_statement h
    simp only [Scan.isTerminator, Bool.or_eq_true, decide_eq_true_eq] at hterminator
    have hnext : c.toNat < 128 → a.byteLength + text.byteLength + 1 =
        (a ++ (text ++ c :: rest)).byteLength - byteLength rest := by
      intro hc
      rw [byteLength_append, byteLength_append, byteLength_cons, utf8Size_of_lt hc]
      omega
    rcases hterminator with (rfl | rfl) | rfl
    · exact bodyAt?_eq (hnext (by decide)) before text true
    · change (do
        let content ← prelude? before text
        let place ← from? (a.byteLength + text.byteLength) (a ++ (text ++ '\x7b' :: rest))
        return Step.event (.opening content place) (a.byteLength + text.byteLength + 1)) = _
      rw [prelude?_eq, hplace, hnext (by decide)]
      rfl
    · exact bodyAt?_trimRight a before text ('\x7d' :: rest)

theorem statementAt?_eq (a before u : Text) :
    statementAt? (a ++ u) before a.byteLength =
      some (.ofFirst (a ++ u).byteLength (ofStatement before u)) := by
  rw [statementAt?, statementEnd?_eq, Option.bind_eq_bind, Option.bind_some]
  cases hscan : Scan.statement u with
  | error f =>
    rw [ofStatement, hscan]
    rfl
  | ok p =>
    have happ := Scan.eq_append_of_statement hscan
    subst happ
    exact endedAt?_eq hscan

theorem commentAt?_eq (a before t : Text) :
    commentAt? (a ++ '/' :: '*' :: t) before a.byteLength =
      some (.ofFirst (a ++ '/' :: '*' :: t).byteLength (ofText before ('/' :: '*' :: t))) := by
  rw [commentAt?, commentEnd?_eq, ofText]
  cases hcomment : Scan.comment? t with
  | none => rfl
  | some p =>
    obtain ⟨text, rest⟩ := p
    have happ : a ++ '/' :: '*' :: t = a ++ ['/', '*'] ++ text ++ '*' :: '/' :: rest := by
      rw [Scan.eq_append_of_comment? hcomment]
      simp
    have hslice := slice?_byteLength (a ++ ['/', '*']) text ('*' :: '/' :: rest)
    have hstart : (a ++ ['/', '*']).byteLength = a.byteLength + 2 := byteLength_append ..
    have hstop : (a ++ ('/' :: '*' :: text ++ ['*', '/'])).byteLength =
        (a ++ ['/', '*'] ++ text).byteLength + 2 := by
      have hbody : a ++ ('/' :: '*' :: text ++ ['*', '/']) =
          a ++ ['/', '*'] ++ text ++ ['*', '/'] := by simp
      rw [hbody]
      exact byteLength_append ..
    have hnext : (a ++ '/' :: '*' :: t).byteLength - rest.byteLength =
        (a ++ ['/', '*'] ++ text).byteLength + 2 := by
      have hclose : byteLength ('*' :: '/' :: rest) = 2 + rest.byteLength :=
        byteLength_append ['*', '/'] rest
      rw [happ, byteLength_append, hclose]
      omega
    rw [← happ, hstart] at hslice
    simp only [Option.bind_eq_bind, Option.bind_some, hstop, Nat.add_sub_cancel, hslice]
    rw [Step.ofFirst, hnext]
    rfl

theorem stepAt?_eq (a t : Text) :
    stepAt? (a ++ t) a.byteLength = some (.ofFirst (a ++ t).byteLength (first t)) := by
  obtain ⟨happ, -, hhead⟩ := takeWhile_dropWhile_first t
  have hstart := skipSpaces_eq a t
  rw [stepAt?, hstart, first]
  generalize t.takeWhile isAsciiSpace = before at happ hstart ⊢
  generalize t.dropWhile isAsciiSpace = u at happ hstart hhead ⊢
  subst happ
  have hbefore := slice?_byteLength a before u
  have hbyte := getElem?_bytes (a ++ before) u
  have hplace := from?_byteLength (a ++ before) u
  have hstatement := statementAt?_eq (a ++ before) before u
  rw [List.append_assoc] at hbefore hbyte hplace hstatement
  rw [hbefore, Option.bind_eq_bind, Option.bind_some, hbyte]
  cases u with
  | nil => rfl
  | cons c u =>
    have hlead : ∀ d : Char, d.toNat < 128 → (lead c = lead d ↔ c = d) := fun d => lead_eq_iff
    have hnext : c.toNat < 128 → byteLength (a ++ before) + 1 =
        byteLength (a ++ (before ++ c :: u)) - byteLength u := by
      intro hc
      rw [byteLength_append, byteLength_append, byteLength_append, byteLength_cons,
        utf8Size_of_lt hc]
      omega
    simp only [List.head?_cons, Option.map_some, hlead '\x7d' (by decide), hlead ';' (by decide),
      hlead '/' (by decide)]
    by_cases hclose : c = '\x7d'
    · subst hclose
      rw [if_pos rfl, hplace, hnext (by decide)]
      rfl
    by_cases hsemi : c = ';'
    · subst hsemi
      rw [if_neg hclose, if_pos rfl, hnext (by decide)]
      rfl
    rw [if_neg hclose, if_neg hsemi]
    have hstar : (c = '/' ∧ (a ++ (before ++ c :: u)).bytes[byteLength (a ++ before) + 1]? =
        some (lead '*')) ↔ c = '/' ∧ u.head? = some '*' := by
      refine and_congr_right ?_
      rintro rfl
      rw [← List.append_assoc]
      exact getElem?_bytes_succ_eq_iff (by decide) (by decide) (a ++ before) u
    by_cases hcomment : c = '/' ∧ u.head? = some '*'
    · rw [if_pos (hstar.mpr hcomment)]
      obtain ⟨rfl, hbehind⟩ := hcomment
      obtain ⟨v, rfl⟩ := List.head?_eq_some_iff.mp hbehind
      have hread := commentAt?_eq (a ++ before) before v
      rwa [List.append_assoc] at hread
    · have hbegins : beginsStatement (c :: u) = true :=
        beginsStatement_of_ne (hhead c rfl) hclose hsemi fun hslash hbehind =>
          hcomment ⟨hslash, hbehind⟩
      rw [if_neg (hstar.not.mpr hcomment), hstatement, ofText_of_beginsStatement hbegins]

theorem streamFrom?_eq (a t : Text) :
    streamFrom? (a ++ t) a.byteLength = some (EventStream.ofText t) := by
  induction hn : t.length using Nat.strong_induction_on generalizing a t with
  | _ n ih =>
    rw [streamFrom?, stepAt?_eq, EventStream.ofText_eq]
    cases hfirst : first t with
    | finish after => rfl
    | fault f => rfl
    | event e rest =>
      have hlength := length_lt_of_first hfirst
      obtain ⟨x, rfl, -⟩ := spells_of_first hfirst
      have hx : x ≠ [] := by
        rintro rfl
        exact Nat.lt_irrefl _ hlength
      have hpos := byteLength_pos hx
      have hnext : (a ++ (x ++ rest)).byteLength - byteLength rest = byteLength (a ++ x) := by
        rw [← List.append_assoc, byteLength_append]
        omega
      have hadvances : a.byteLength < byteLength (a ++ x) ∧
          byteLength (a ++ x) ≤ (a ++ (x ++ rest)).byteLength := by
        rw [← List.append_assoc, byteLength_append (a ++ x), byteLength_append a]
        omega
      have hrest := ih rest.length (hn ▸ hlength) (a ++ x) rest rfl
      rw [List.append_assoc] at hrest
      simp only [Step.ofFirst, hnext, if_pos hadvances, hrest, Option.map_some]

/-- Reading by offsets never asks for a slice or a position that does not exist, and gives what
reading by characters gives. -/
theorem parse?_eq (source : Text) : parse? source = some (Stylesheet.parse source) := by
  have hstream : streamFrom? source 0 = some (EventStream.ofText source) :=
    streamFrom?_eq [] source
  rw [parse?, hstream, Option.bind_eq_bind, Option.bind_some]
  cases hread : Block.ofText source with
  | ok b =>
    have hnesting : (Nesting.ofEvents (EventStream.ofText source)).toBlock = .ok b := hread
    rw [hnesting, Stylesheet.parse, hread]
    rfl
  | error f =>
    have hnesting : (Nesting.ofEvents (EventStream.ofText source)).toBlock = .error f := hread
    obtain ⟨front, hfront⟩ := Block.remaining_suffix_of_ofText hread
    have hoffset : source.byteLength - f.remaining.byteLength = byteLength front := by
      rw [← hfront, byteLength_append, Nat.add_sub_cancel]
    have hposition := Position.ofByteOffset?_byteLength front f.remaining
    have hreport := f.report_append front
    rw [hfront] at hposition hreport
    rw [hnesting, Stylesheet.parse, hread]
    simp only [hoffset, hposition, hreport]
    rfl

end UtilityCss.Bytewise
