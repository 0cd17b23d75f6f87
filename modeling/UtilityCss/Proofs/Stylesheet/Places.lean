import UtilityCss.Proofs.Stylesheet.Legible

/-!
# Places of faults

While reading, a place is what remains of the text from there on. Every fault is found at a place of
the text that was read, so its report is the position after what stands before that place.
-/
namespace UtilityCss

open Text

theorem Scan.remaining_suffix_of_statementFrom {s : State} {opening t : Text} {f : LocatedFault}
    (h : statementFrom s opening t = .error f) (ht : t <:+ opening) : f.remaining <:+ opening := by
  induction t generalizing s opening with
  | nil =>
    simp only [statementFrom] at h
    split at h <;> cases h
    exact List.suffix_refl _
  | cons c cs ih =>
    simp only [statementFrom] at h
    split at h
    · cases h
    · split at h
      · rename_i heq
        cases h
        have hcs : cs <:+ c :: cs := List.suffix_cons c cs
        split at heq
        · exact (ih heq hcs).trans ht
        · exact ih heq (hcs.trans ht)
      · cases h

namespace Event

theorem remaining_of_ofBody {before t after place rest : Text} {terminated : Bool}
    {f : LocatedFault} (h : ofBody before t after place terminated rest = .fault f) :
    f.remaining = place := by
  unfold ofBody at h
  split at h <;> cases h
  rfl

theorem remaining_suffix_of_ofStatement {before t : Text} {f : LocatedFault}
    (h : ofStatement before t = .fault f) : f.remaining <:+ t := by
  unfold ofStatement at h
  split at h
  · rename_i heq
    cases h
    exact Scan.remaining_suffix_of_statementFrom heq (List.suffix_refl t)
  · cases h
  · rw [remaining_of_ofBody h]
  · rw [remaining_of_ofBody h]

theorem remaining_suffix_of_first {t : Text} {f : LocatedFault} (h : first t = .fault f) :
    f.remaining <:+ t := by
  refine List.IsSuffix.trans ?_ (List.dropWhile_suffix isAsciiSpace)
  unfold first ofText at h
  split at h
  · cases h
  · cases h
  · cases h
  · split at h <;> cases h
    exact List.suffix_refl _
  · exact remaining_suffix_of_ofStatement h

end Event

namespace Nesting

open Event

structure Within (t : Text) (n : Nesting) : Prop where
  closed : ∀ p ∈ n.closed, p.2 <:+ t
  last : ∀ f, n.last = .error f → f.remaining <:+ t

theorem Within.append {t : Text} {n : Nesting} (h : n.Within t) (x : Text) : n.Within (x ++ t) where
  closed p hp := (h.closed p hp).trans (List.suffix_append x t)
  last f hf := (h.last f hf).trans (List.suffix_append x t)

theorem Within.push {t : Text} {n : Nesting} (h : n.Within t) (c : Content)
    (children : Forest Content) (terminated : Bool) : (n.push c children terminated).Within t := by
  rcases n with ⟨_ | ⟨⟨b, place⟩, outer⟩, last⟩
  · refine ⟨h.closed, fun f hf => ?_⟩
    cases last with
    | error f' =>
      cases hf
      exact h.last f rfl
    | ok b => cases hf
  · refine ⟨fun p hp => ?_, h.last⟩
    rcases List.mem_cons.mp hp with rfl | hp
    · exact h.closed (b, place) (by simp)
    · exact h.closed p (by simp [hp])

theorem Within.enclose {t place : Text} {n : Nesting} (h : n.Within t) (hplace : place <:+ t)
    (c : Content) : (n.enclose c place).Within t := by
  rcases n with ⟨_ | ⟨⟨b, p⟩, outer⟩, last⟩
  · cases last with
    | error f => exact ⟨h.closed, fun f' hf => by cases hf; exact h.last f rfl⟩
    | ok b => exact ⟨h.closed, fun f' hf => by cases hf; exact hplace⟩
  · have houter : Within t ⟨outer, last⟩ := ⟨fun p hp => h.closed p (by simp [hp]), h.last⟩
    exact houter.push ..

theorem Within.before {x rest : Text} {e : Event} {n : Nesting} (hn : n.Within rest)
    (h : Spells x e rest) : (n.before e).Within (x ++ rest) := by
  have hwhole := hn.append x
  cases h with
  | comment => exact hwhole.push ..
  | statement => exact hwhole.push ..
  | last => exact hwhole.push ..
  | opening =>
    refine hwhole.enclose ?_ _
    rw [List.append_assoc]
    exact List.suffix_append ..
  | @closing before =>
    refine ⟨fun p hp => ?_, hwhole.last⟩
    rcases List.mem_cons.mp hp with rfl | hp
    · rw [List.append_assoc]
      exact List.suffix_append ..
    · exact hwhole.closed p hp
  | stray => exact hwhole

theorem Reads.within {t : Text} {n : Nesting} (h : Reads t n) : n.Within t := by
  induction h with
  | finish => exact ⟨fun _ hp => (by cases hp), fun _ hf => by cases hf⟩
  | fault h =>
    refine ⟨fun _ hp => (by cases hp), fun f hf => ?_⟩
    cases hf
    exact remaining_suffix_of_first h
  | event h _ ih => exact ih.before h

end Nesting

theorem Block.remaining_suffix_of_ofText {t : Text} {f : LocatedFault}
    (h : Block.ofText t = .error f) : f.remaining <:+ t := by
  have hwithin := (Nesting.reads_ofText t).within
  unfold Block.ofText Nesting.toBlock at h
  split at h
  · rename_i b place outer hclosed
    cases h
    exact hwithin.closed (b, place) (by rw [Nesting.ofText, hclosed]; exact List.mem_cons_self)
  · exact hwithin.last f h

theorem LocatedFault.report_append (front : Text) (f : LocatedFault) :
    f.report (front ++ f.remaining) = ⟨f.fault, Position.after front⟩ := by
  rw [report, List.length_append, Nat.add_sub_cancel, List.take_left]

/-- A failure is reported at the position of the place where it was found. -/
theorem Stylesheet.exists_fault_of_parse {source : Text} {e : ParseError}
    (h : parse source = .error e) :
    ∃ front f, source = front ++ f.remaining ∧ Block.ofText source = .error f ∧
      e = ⟨f.fault, Position.after front⟩ := by
  unfold parse at h
  split at h
  · cases h
  · rename_i f hf
    cases h
    obtain ⟨front, hfront⟩ := Block.remaining_suffix_of_ofText hf
    refine ⟨front, f, hfront.symm, hf, ?_⟩
    rw [← hfront, LocatedFault.report_append]

end UtilityCss
