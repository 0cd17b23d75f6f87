import UtilityCss.Proofs.Stylesheet.Tracing
import UtilityCss.Proofs.Stylesheet.ByteReading

/-!
# What a fault points at

A fault is reported at the beginning of what is wrong: at the quote or the opening of the comment
that is not closed, at the innermost brace that is left open, at the brace that closes nothing, or
at the statement that is none.
-/
namespace UtilityCss

open Text

def Text.hasUnescaped (quote : Char) : Text → Bool
  | [] => false
  | '\\' :: [] => false
  | '\\' :: _ :: t => hasUnescaped quote t
  | c :: t => c = quote || hasUnescaped quote t

theorem Scan.hasUnescaped_eq_false_of_string? {q : Char} {t : Text} (h : string? q t = none) :
    t.hasUnescaped q = false := by
  fun_induction string? q t with
  | case1 => rfl
  | case2 => rfl
  | case3 c t ih => exact ih (Option.map_eq_none_iff.mp h)
  | case4 => cases h
  | case5 c t hnil hcons hc ih =>
    rw [hasUnescaped, ih (Option.map_eq_none_iff.mp h), decide_eq_false hc]
    · rfl
    · exact hnil
    · exact hcons

namespace Event

/-- The braces of the blocks that are open behind an event, the innermost first. There are none if
the event closes a block and none is open. -/
def braces? (opened : List Text) : Event → Option (List Text)
  | .opening _ place => some (place :: opened)
  | .closing .. =>
    match opened with
    | [] => none
    | _ :: outer => some outer
  | _ => some opened

def openBraces : List Text → List Event → Option (List Text)
  | opened, [] => some opened
  | opened, e :: es => (e.braces? opened).bind fun opened' => openBraces opened' es

/-- Reading leads from one place, where some blocks are open, to another where others are. -/
def Leads (opened : List Text) (t : Text) (left : List Text) (u : Text) : Prop :=
  ∃ es, Trace t es u ∧ openBraces opened es = some left

theorem Leads.refl (opened : List Text) (t : Text) : Leads opened t opened t := ⟨[], .start t, rfl⟩

theorem Leads.next {x rest u : Text} {e : Event} {opened opened' left : List Text}
    (hx : Spells x e rest) (he : e.braces? opened = some opened')
    (h : Leads opened' rest left u) : Leads opened (x ++ rest) left u := by
  obtain ⟨es, htrace, hleft⟩ := h
  exact ⟨e :: es, .next hx htrace, by rw [openBraces, he, Option.bind_some, hleft]⟩

end Event

/-- What the fault says holds of the place where `rest` begins in the source. -/
inductive Culprit (source rest : Text) : Fault → Prop
  /-- The brace opened the innermost block of those that are open at the end of the source. -/
  | unclosedBlock {inner after : Text} {outer : List Text} (hbrace : rest = '\x7b' :: inner)
      (hend : after.all isAsciiSpace = true) (hopen : Event.Leads [] source (rest :: outer) after) :
      Culprit source rest .unclosedBlock
  | unclosedString {q : Char} {body : Text} (hq : isQuote q = true) (hquote : rest = q :: body)
      (hbody : body.hasUnescaped q = false) : Culprit source rest .unclosedString
  | unclosedComment {body : Text} (hcomment : rest = '/' :: '*' :: body)
      (hbody : body.hasInfix ['*', '/'] = false) : Culprit source rest .unclosedComment
  /-- The brace is met while no block is open. -/
  | unexpectedCloseBrace {before after : Text} (hbrace : rest = '\x7d' :: after)
      (hbefore : before.all isAsciiSpace = true)
      (hopen : Event.Leads [] source [] (before ++ rest)) :
      Culprit source rest .unexpectedCloseBrace
  /-- A statement begins here, and the word is what it begins with, blanks aside. -/
  | unknownWord {before text after word : Text} {opened : List Text} (hrest : rest = text ++ after)
      (ht : Event.EndsAt text after) (hbefore : before.all isAsciiSpace = true)
      (hopen : Event.Leads [] source opened (before ++ rest)) (hword : word <+: rest.trimLeft) :
      Culprit source rest (.unknownWord word)

open Event

theorem Scan.prepend_eq_error_iff {x : Text} {r : Except LocatedFault (Text × Text)}
    {f : LocatedFault} : prepend x r = .error f ↔ r = .error f := by
  cases r with
  | error g => rfl
  | ok p => exact iff_of_false nofun nofun

theorem Scan.Tokenwise.culprit {d : Nat} {t : Text} {r : Except LocatedFault (Text × Text)}
    (h : Tokenwise d t r) {f : LocatedFault} (hr : r = .error f) (source : Text) :
    Culprit source f.remaining f.fault := by
  induction h with
  | finish => cases hr
  | stop => cases hr
  | pass _ _ ih => exact ih (prepend_eq_error_iff.mp hr)
  | openEscape => cases hr
  | escape _ ih => exact ih (prepend_eq_error_iff.mp hr)
  | openString hq ht =>
    cases hr
    exact .unclosedString hq rfl (hasUnescaped_eq_false_of_string? ht)
  | string _ _ _ ih => exact ih (prepend_eq_error_iff.mp hr)
  | openComment ht =>
    cases hr
    exact .unclosedComment rfl (hasInfix_eq_false_of_comment? ht)
  | comment _ _ ih => exact ih (prepend_eq_error_iff.mp hr)
  | slash _ _ ih => exact ih (prepend_eq_error_iff.mp hr)
  | opening _ _ ih => exact ih (prepend_eq_error_iff.mp hr)
  | closing _ _ ih => exact ih (prepend_eq_error_iff.mp hr)
  | other _ _ ih => exact ih (prepend_eq_error_iff.mp hr)

/-- The word of a statement stands at its beginning, where its blanks are not counted. -/
theorem trim_prefix_trimLeft (text after : Text) :
    text.trimRight.trim <+: (text ++ after).trimLeft := by
  rw [trim, trimRight_trimRight]
  by_cases hblank : text.trimRight.isBlankText = true
  · rw [trimLeft_eq_nil_iff.mpr hblank]
    exact List.nil_prefix
  · conv_rhs => rw [← trimRight_append_trailingBlanks text, List.append_assoc, trimLeft_append,
      if_neg hblank]
    exact List.prefix_append ..

namespace Event

theorem eq_fault_of_ofBody {before t after place rest : Text} {terminated : Bool}
    {f : LocatedFault} (h : ofBody before t after place terminated rest = .fault f) :
    f = ⟨.unknownWord t.trim, place⟩ := by
  unfold ofBody at h
  split at h <;> cases h
  rfl

/-- A statement that goes wrong is not closed somewhere, or it is none. -/
theorem culprit_of_ofStatement {source before t : Text} {opened : List Text} {f : LocatedFault}
    (hopen : Leads [] source opened (before ++ t)) (hb : before.all isAsciiSpace = true)
    (ht : beginsStatement t = true) (h : ofStatement before t = .fault f) :
    Culprit source f.remaining f.fault := by
  unfold ofStatement at h
  cases hscan : Scan.statement t with
  | error g =>
    rw [hscan] at h
    cases h
    exact (Scan.tokenwise_statementFrom 0 t t).culprit hscan source
  | ok p =>
    obtain ⟨text, rest⟩ := p
    have happ := Scan.eq_append_of_statement hscan
    have hfault : f = ⟨.unknownWord text.trimRight.trim, t⟩ := by
      rw [hscan] at h
      split at h
      · rename_i heq
        cases heq
      · cases h
      · rename_i heq
        cases heq
        exact eq_fault_of_ofBody h
      · rename_i heq
        cases heq
        exact eq_fault_of_ofBody h
    subst hfault
    have hends : EndsAt text rest := by
      subst happ
      exact ⟨ht, hscan⟩
    refine .unknownWord happ hends hb hopen ?_
    rw [happ]
    exact trim_prefix_trimLeft text rest

theorem culprit_of_first {source u : Text} {opened : List Text} {f : LocatedFault}
    (hopen : Leads [] source opened u) (h : first u = .fault f) :
    Culprit source f.remaining f.fault := by
  obtain ⟨happ, hb, hhead⟩ := takeWhile_dropWhile_first u
  rw [first] at h
  rw [← happ] at hopen
  generalize u.takeWhile isAsciiSpace = before at *
  generalize u.dropWhile isAsciiSpace = t at *
  unfold ofText at h
  split at h
  · cases h
  · cases h
  · cases h
  · split at h
    · rename_i hcomment
      cases h
      exact .unclosedComment rfl (Scan.hasInfix_eq_false_of_comment? hcomment)
    · cases h
  · rename_i hnil hclose hsemi hcomment
    have ht := beginsStatement_of_forall_ne hhead hnil hclose hsemi hcomment
    exact culprit_of_ofStatement hopen hb ht h

end Event

namespace Nesting

def places (n : Nesting) : List Text := n.closed.map Prod.snd

def fault? (n : Nesting) : Option LocatedFault :=
  match n.last with
  | .ok _ => none
  | .error f => some f

theorem places_push (n : Nesting) (c : Content) (t : Forest Content) (terminated : Bool) :
    (n.push c t terminated).places = n.places := by
  rcases n with ⟨_ | ⟨p, outer⟩, last⟩ <;> rfl

theorem fault?_push (n : Nesting) (c : Content) (t : Forest Content) (terminated : Bool) :
    (n.push c t terminated).fault? = n.fault? := by
  rcases n with ⟨_ | ⟨p, outer⟩, f | b⟩ <;> rfl

/-- What is seen of a text by its braces alone: the places of the braces that close blocks opened
before it, and the fault in what follows them. -/
inductive Braces : Text → List Text → Option LocatedFault → Prop
  | finish {after : Text} (ha : after.all isAsciiSpace = true) : Braces after [] none
  | fault {t : Text} {f : LocatedFault} (h : first t = .fault f) : Braces t [] (some f)
  | pass {x rest : Text} {e : Event} {ps : List Text} {f : Option LocatedFault}
      (hx : Spells x e rest) (he : ∀ opened, e.braces? opened = some opened)
      (hrest : Braces rest ps f) : Braces (x ++ rest) ps f
  | closing {before rest : Text} {ps : List Text} {f : Option LocatedFault}
      (hb : before.all isAsciiSpace = true) (hrest : Braces rest ps f) :
      Braces (before ++ ['\x7d'] ++ rest) (('\x7d' :: rest) :: ps) f
  | closed {x rest p : Text} {c : Content} {ps : List Text} {f : Option LocatedFault}
      (hx : Spells x (.opening c ('\x7b' :: rest)) rest) (hrest : Braces rest (p :: ps) f) :
      Braces (x ++ rest) ps f
  | cutOff {x rest : Text} {c : Content} {f : LocatedFault}
      (hx : Spells x (.opening c ('\x7b' :: rest)) rest) (hrest : Braces rest [] (some f)) :
      Braces (x ++ rest) [] (some f)
  | unclosed {x rest : Text} {c : Content}
      (hx : Spells x (.opening c ('\x7b' :: rest)) rest) (hrest : Braces rest [] none) :
      Braces (x ++ rest) [] (some ⟨.unclosedBlock, '\x7b' :: rest⟩)

theorem Braces.push {x rest : Text} {e : Event} {n : Nesting} (hx : Spells x e rest)
    (he : ∀ opened, e.braces? opened = some opened) (h : Braces rest n.places n.fault?)
    (c : Content) (t : Forest Content) (terminated : Bool) :
    Braces (x ++ rest) (n.push c t terminated).places (n.push c t terminated).fault? := by
  rw [places_push, fault?_push]
  exact .pass hx he h

theorem Braces.enclose {x rest : Text} {c : Content} {n : Nesting}
    (hx : Spells x (.opening c ('\x7b' :: rest)) rest) (h : Braces rest n.places n.fault?) :
    Braces (x ++ rest) (n.enclose c ('\x7b' :: rest)).places
      (n.enclose c ('\x7b' :: rest)).fault? := by
  rcases n with ⟨_ | ⟨p, outer⟩, f | b⟩
  · exact .cutOff hx h
  · exact .unclosed hx h
  · rw [Nesting.enclose, places_push, fault?_push]
    exact .closed hx h
  · rw [Nesting.enclose, places_push, fault?_push]
    exact .closed hx h

theorem Reads.braces {t : Text} {n : Nesting} (h : Reads t n) : Braces t n.places n.fault? := by
  induction h with
  | finish ha => exact .finish ha
  | fault h => exact .fault h
  | @event x rest e n hx hrest ih =>
    cases hx with
    | comment hb ht => exact Braces.push (.comment hb ht) (fun _ => rfl) ih ..
    | statement hb ht hc => exact Braces.push (.statement hb ht hc) (fun _ => rfl) ih ..
    | last hb ht hends hc => exact Braces.push (.last hb ht hends hc) (fun _ => rfl) ih ..
    | opening hb ht => exact Braces.enclose (.opening hb ht) ih
    | closing hb => exact .closing hb ih
    | stray hb => exact .pass (.stray hb) (fun _ => rfl) ih

variable {t : Text} {ps : List Text}

/-- A brace that closes a block leaves those open that are not closed before it. -/
theorem Braces.leads_to_closing {f : Option LocatedFault} (h : Braces t ps f) (opened : List Text)
    {place : Text} (hplace : ps[opened.length]? = some place) :
    ∃ before after, place = '\x7d' :: after ∧ before.all isAsciiSpace = true ∧
      Leads opened t [] (before ++ place) := by
  induction h generalizing opened with
  | finish => cases hplace
  | fault => cases hplace
  | pass hx he _ ih =>
    obtain ⟨before, after, hbrace, hb, hleads⟩ := ih opened hplace
    exact ⟨before, after, hbrace, hb, hleads.next hx (he opened)⟩
  | @closing before rest ps f hb _ ih =>
    cases opened with
    | nil =>
      cases hplace
      refine ⟨before, rest, rfl, hb, ?_⟩
      rw [List.append_assoc]
      exact .refl ..
    | cons brace opened =>
      obtain ⟨before', after, hbrace, hb', hleads⟩ := ih opened hplace
      exact ⟨before', after, hbrace, hb', hleads.next (.closing hb) rfl⟩
  | @closed x rest p c ps f hx _ ih =>
    obtain ⟨before, after, hbrace, hb, hleads⟩ := ih (('\x7b' :: rest) :: opened) hplace
    exact ⟨before, after, hbrace, hb, hleads.next hx rfl⟩
  | cutOff => cases hplace
  | unclosed => cases hplace

theorem Braces.leads_to_end (h : Braces t ps none) (opened : List Text)
    (hlength : ps.length ≤ opened.length) :
    ∃ after, after.all isAsciiSpace = true ∧ Leads opened t (opened.drop ps.length) after := by
  generalize hf : (none : Option LocatedFault) = f at h
  induction h generalizing opened with
  | @finish after ha => exact ⟨after, ha, .refl ..⟩
  | fault => cases hf
  | pass hx he _ ih =>
    obtain ⟨after, ha, hleads⟩ := ih opened hlength hf
    exact ⟨after, ha, hleads.next hx (he opened)⟩
  | closing hb _ ih =>
    cases opened with
    | nil => cases hlength
    | cons brace opened =>
      obtain ⟨after, ha, hleads⟩ := ih opened (Nat.le_of_succ_le_succ hlength) hf
      exact ⟨after, ha, hleads.next (.closing hb) rfl⟩
  | @closed x rest p c ps f hx _ ih =>
    obtain ⟨after, ha, hleads⟩ :=
      ih (('\x7b' :: rest) :: opened) (Nat.succ_le_succ hlength) hf
    exact ⟨after, ha, hleads.next hx rfl⟩
  | cutOff => cases hf
  | unclosed => cases hf

/-- A fault is met while reading, or the end is, and the innermost block that is open there begins
where the fault is. -/
inductive Meets (opened : List Text) (t : Text) (f : LocatedFault) : Prop
  | fault {left : List Text} {u : Text} (hleads : Leads opened t left u) (hf : first u = .fault f)
  | unclosed {rest after : Text} {outer : List Text} (hf : f = ⟨.unclosedBlock, '\x7b' :: rest⟩)
      (ha : after.all isAsciiSpace = true)
      (hleads : Leads opened t (('\x7b' :: rest) :: outer) after)

theorem Meets.next {x rest : Text} {e : Event} {opened opened' : List Text} {f : LocatedFault}
    (hx : Spells x e rest) (he : e.braces? opened = some opened') (h : Meets opened' rest f) :
    Meets opened (x ++ rest) f := by
  cases h with
  | fault hleads hf => exact .fault (hleads.next hx he) hf
  | unclosed hf ha hleads => exact .unclosed hf ha (hleads.next hx he)

theorem Braces.meets {f : LocatedFault} (h : Braces t ps (some f)) (opened : List Text)
    (hlength : ps.length ≤ opened.length) : Meets opened t f := by
  generalize hf : some f = g at h
  induction h generalizing opened with
  | finish => cases hf
  | fault h =>
    cases hf
    exact .fault (.refl ..) h
  | pass hx he _ ih => exact (ih opened hlength hf).next hx (he opened)
  | closing hb _ ih =>
    cases opened with
    | nil => cases hlength
    | cons brace opened =>
      exact (ih opened (Nat.le_of_succ_le_succ hlength) hf).next (.closing hb) rfl
  | @closed x rest p c ps g hx _ ih =>
    exact (ih (('\x7b' :: rest) :: opened) (Nat.succ_le_succ hlength) hf).next hx rfl
  | @cutOff x rest c g hx _ ih =>
    exact (ih (('\x7b' :: rest) :: opened) (Nat.zero_le _) hf).next hx rfl
  | @unclosed x rest c hx hrest =>
    cases hf
    obtain ⟨after, ha, hleads⟩ :=
      hrest.leads_to_end (('\x7b' :: rest) :: opened) (Nat.zero_le _)
    exact .unclosed rfl ha (hleads.next hx rfl)

theorem Meets.culprit {source : Text} {f : LocatedFault} (h : Meets [] source f) :
    Culprit source f.remaining f.fault := by
  cases h with
  | fault hleads hf => exact culprit_of_first hleads hf
  | unclosed hf ha hleads =>
    subst hf
    exact .unclosedBlock rfl ha hleads

end Nesting

theorem Block.culprit_of_ofText {source : Text} {f : LocatedFault}
    (h : Block.ofText source = .error f) : Culprit source f.remaining f.fault := by
  have hbraces := (Nesting.reads_ofText source).braces
  change (Nesting.ofText source).toBlock = .error f at h
  generalize Nesting.ofText source = n at h hbraces
  rcases n with ⟨_ | ⟨⟨b, place⟩, outer⟩, last⟩
  · cases last with
    | ok b => cases h
    | error g =>
      cases h
      exact (hbraces.meets [] (Nat.le_refl _)).culprit
  · cases h
    obtain ⟨before, after, hbrace, hb, hleads⟩ := hbraces.leads_to_closing [] rfl
    exact .unexpectedCloseBrace hbrace hb hleads

namespace Stylesheet

/-- Parsing by byte offsets cuts the source only between its characters, and a fault is reported at
the position of its culprit. -/
theorem parse_points_at_culprit (source : Text) :
    Bytewise.parse? source = some (parse source) ∧
      ∀ e, parse source = .error e → ∃ front rest, source = front ++ rest ∧
        Position.ofByteOffset? source front.byteLength = some e.position ∧
        Culprit source rest e.fault := by
  refine ⟨Bytewise.parse?_eq source, fun e he => ?_⟩
  obtain ⟨front, f, hfront, hread, rfl⟩ := exists_fault_of_parse he
  refine ⟨front, f.remaining, hfront, ?_, Block.culprit_of_ofText hread⟩
  rw [hfront, Position.ofByteOffset?_byteLength]

/-- A block that is left open behind one that is closed, and behind a character of several bytes. -/
theorem parse_points_at_inner_brace :
    parse "é\x7ba\x7b\x7d b\x7b".toList = .error ⟨.unclosedBlock, ⟨1, 8⟩⟩ ∧
      ∃ front rest : Text, "é\x7ba\x7b\x7d b\x7b".toList = front ++ rest ∧
        Position.ofByteOffset? "é\x7ba\x7b\x7d b\x7b".toList front.byteLength = some ⟨1, 8⟩ ∧
        Culprit "é\x7ba\x7b\x7d b\x7b".toList rest .unclosedBlock := by
  have herror : parse "é\x7ba\x7b\x7d b\x7b".toList = .error ⟨.unclosedBlock, ⟨1, 8⟩⟩ := by
    decide +kernel
  exact ⟨herror, (parse_points_at_culprit _).2 _ herror⟩

end Stylesheet
end UtilityCss
