import UtilityCss.Proofs.Text.Offsets
import UtilityCss.Proofs.Stylesheet.Places
import UtilityCss.Proofs.Stylesheet.Spacing

/-!
# One text after the other

A stylesheet is complete when no semicolon is missing after its last node. The text of a complete
stylesheet can be followed by any text: what follows is read as it is read alone, its trees come
after those in front, and what is wrong with it is wrong in the same place.
-/
namespace UtilityCss

open Text Event

def NodeId.shift (offset : Nat) (id : NodeId) : NodeId := ⟨id.index + offset⟩

namespace Forest

variable {α : Type}

theorem number_append (t t' : Forest α) (n : Nat) :
    (t.append t').number n = (t.number n).append (t'.number (n + t.size)) := by
  induction t generalizing n with
  | nil => rfl
  | cons a children rest _ ihr =>
    have hn : n + (children.size + rest.size + 1) = n + 1 + children.size + rest.size := by omega
    rw [append, number, number, append, ihr, size, hn]

theorem number_add (t : Forest α) (n offset : Nat) :
    t.number (n + offset) = (t.number n).map (NodeId.shift offset) := by
  induction t generalizing n with
  | nil => rfl
  | cons a children rest ihc ihr =>
    have hn : n + offset + 1 + children.size = n + 1 + children.size + offset := by omega
    rw [number, number, map, ← ihc, ← ihr, hn, Nat.add_right_comm n offset 1]
    rfl

theorem number_spaced (blanks : Text) (t : Forest Content) (n : Nat) :
    (t.spaced blanks).number n = t.number n := by
  cases t <;> rfl

end Forest

namespace Block

/-- Put the trees of `b` before those of `b'`, which ends the block. -/
def append (b b' : Block) : Block where
  forest := b.forest.append b'.forest
  after := b'.after
  semicolon := if b'.forest.isEmpty && !b.forest.isEmpty then b.semicolon else b'.semicolon

/-- No semicolon is missing after the last tree. -/
def IsComplete (b : Block) : Prop :=
  ∀ c ∈ b.forest.roots.getLast?, c.kind.needsSemicolon = true → b.semicolon = true

theorem append_blank (after : Text) : (blank after).append = id := by
  funext b
  rw [append, blank, Forest.append]
  simp [Forest.isEmpty]

theorem append_push (c : Content) (children : Forest Content) (terminated : Bool) (b b' : Block) :
    (b.push c children terminated).append b' = (b.append b').push c children terminated := by
  rcases b with ⟨_ | ⟨d, below, rest⟩, after, semicolon⟩ <;>
    rcases b' with ⟨_ | ⟨d', below', rest'⟩, after', semicolon'⟩ <;> rfl

theorem IsComplete.of_push {c : Content} {children : Forest Content} {terminated : Bool}
    {b : Block} (h : (b.push c children terminated).IsComplete) : b.IsComplete := by
  rcases b with ⟨_ | ⟨a, below, rest⟩, after, semicolon⟩
  · intro d hd
    cases hd
  · exact h

theorem not_isComplete_push_blank {c : Content} (hc : c.kind.needsSemicolon = true)
    (children : Forest Content) (after : Text) :
    ¬ ((blank after).push c children false).IsComplete :=
  fun h => Bool.false_ne_true (h c rfl hc)

end Block

namespace Event

/-- The same event in a text that goes on with `t`: its place reaches to the end of the text. -/
def extend (t : Text) : Event → Event
  | opening c place => opening c (place ++ t)
  | closing before place => closing before (place ++ t)
  | e => e

/-- What follows changes no event but a statement that ends with the text. -/
theorem Spells.extend {x rest : Text} {e : Event} (h : Spells x e rest)
    (hcut : ∀ c, e = .statement c false → rest.isBlankText = false) (t : Text) :
    Spells x (e.extend t) (rest ++ t) := by
  cases h with
  | comment hb ht => exact .comment hb ht
  | statement hb ht hc => exact .statement hb (ht.congr _) hc
  | @last _ text rest c hb ht hrest hc =>
    rw [List.append_assoc]
    cases rest with
    | nil =>
      have hblank := hcut c rfl
      rw [List.append_nil, isBlankText_trailingBlanks] at hblank
      cases hblank
    | cons d ds => exact .last hb (ht.congr _) hrest hc
  | opening hb ht => exact .opening hb (ht.congr _)
  | closing hb => exact .closing hb
  | stray hb => exact .stray hb

theorem Spells.needsSemicolon {x rest : Text} {c : Content} {terminated : Bool}
    (h : Spells x (.statement c terminated) rest) : c.kind.needsSemicolon = true := by
  cases h with
  | statement _ _ hc => exact Statement.needsSemicolon_of_body? hc
  | last _ _ _ hc => exact Statement.needsSemicolon_of_body? hc

end Event

namespace Nesting

/-- Go on with `n'` in the block in which `n` ends; the text of `n` is followed by `rest`. After a
fault nothing is read. -/
def append (n : Nesting) (rest : Text) (n' : Nesting) : Nesting :=
  let closed := n.closed.map fun p => (p.1, p.2 ++ rest)
  match n.last with
  | .error f => ⟨closed, .error f⟩
  | .ok b => ⟨closed ++ (n'.modify b.append).closed, (n'.modify b.append).last⟩

theorem push_append (n : Nesting) (c : Content) (children : Forest Content) (terminated : Bool)
    (rest : Text) (n' : Nesting) :
    (n.push c children terminated).append rest n' =
      (n.append rest n').push c children terminated := by
  rcases n with ⟨_ | ⟨p, outer⟩, f | b⟩
  · rfl
  · have hpush : (b.push c children terminated).append =
        Block.push c children terminated ∘ b.append :=
      funext fun b' => Block.append_push ..
    change n'.modify (b.push c children terminated).append =
      (n'.modify b.append).push c children terminated
    rw [hpush, ← modify_modify, push_eq_modify]
  · rfl
  · rfl

theorem before_append {n : Nesting} {e : Event} {b : Block} (h : (n.before e).last = .ok b)
    (rest : Text) (n' : Nesting) :
    (n.before e).append rest n' = (n.append rest n').before (e.extend rest) := by
  cases e with
  | comment c => exact push_append ..
  | statement c terminated => exact push_append ..
  | opening c place =>
    rcases n with ⟨_ | ⟨⟨inner, p⟩, outer⟩, last⟩
    · cases last <;> cases h
    · refine (push_append ⟨outer, last⟩ (c.enclosing inner) inner.forest false rest n').trans ?_
      cases last <;> rfl
  | closing before place =>
    rcases n with ⟨closed, f | b⟩ <;> rfl
  | stray before => rfl

/-- If the text ends in a complete block, so does what stands after its first node. -/
theorem exists_of_last_push {n : Nesting} {c : Content} {children : Forest Content}
    {terminated : Bool} {b : Block} (h : (n.push c children terminated).last = .ok b)
    (hb : b.IsComplete) : ∃ b₀, n.last = .ok b₀ ∧ b₀.IsComplete ∧ b₀.after = b.after := by
  rcases n with ⟨_ | ⟨p, outer⟩, f | b₀⟩
  · cases h
  · cases h
    exact ⟨b₀, rfl, hb.of_push, rfl⟩
  · cases h
  · cases h
    exact ⟨b, rfl, hb, rfl⟩

theorem exists_of_last_before {n : Nesting} {e : Event} {b : Block}
    (h : (n.before e).last = .ok b) (hb : b.IsComplete) :
    ∃ b₀, n.last = .ok b₀ ∧ b₀.IsComplete ∧ b₀.after = b.after := by
  cases e with
  | comment c => exact exists_of_last_push h hb
  | statement c terminated => exact exists_of_last_push h hb
  | opening c place =>
    rcases n with ⟨_ | ⟨⟨inner, p⟩, outer⟩, last⟩
    · cases last <;> cases h
    · exact exists_of_last_push (n := ⟨outer, last⟩) h hb
  | closing before place => exact ⟨b, h, hb, rfl⟩
  | stray before => exact ⟨b, h, hb, rfl⟩

theorem not_isComplete_of_isBlankText {blanks : Text} (hblank : blanks.isBlankText = true)
    {c : Content} (hc : c.kind.needsSemicolon = true) {b : Block}
    (h : ((ofText blanks).push c .nil false).last = .ok b) : ¬ b.IsComplete := by
  have hend : endsBlock [] = true := rfl
  rcases first_of_isBlankText hblank hend with hspace | ⟨f, hf⟩
  · rw [ofText_of_isAsciiSpace hspace] at h
    cases h
    exact Block.not_isComplete_push_blank hc .nil blanks
  · rw [List.append_nil] at hf
    rw [ofText_of_fault hf] at h
    cases h

/-- Where a text ends in a complete block, what follows is read from the blanks at its end on. -/
theorem Reads.ofText_append {x : Text} {n : Nesting} (h : Reads x n) {b : Block}
    (hlast : n.last = .ok b) (hb : b.IsComplete) (t : Text) :
    ofText (x ++ t) = n.append t (ofText (b.after ++ t)) := by
  -- The events of the first text, from its last one on: a block that ends complete was complete
  -- before its first tree, and only what is incomplete depends on `t`.
  induction h generalizing b with
  | @finish after ha =>
    cases hlast
    change ofText (after ++ t) = (ofText (after ++ t)).modify (Block.blank after).append
    rw [Block.append_blank, modify_id]
  | fault => cases hlast
  | @event x rest e n hx hrest ih =>
    obtain ⟨b₀, hb₀, hcomplete, hafter⟩ := exists_of_last_before hlast hb
    have hcut : ∀ c, e = .statement c false → rest.isBlankText = false := by
      rintro c rfl
      rw [hrest.eq] at hlast
      by_contra hblank
      rw [Bool.not_eq_false] at hblank
      exact not_isComplete_of_isBlankText hblank hx.needsSemicolon hlast hb
    rw [List.append_assoc, ofText_of_spells (hx.extend hcut t), ih hb₀ hcomplete, hafter,
      before_append hlast]

end Nesting

/-- A text behind a complete one is read as it is read alone, after what is in front of it. The
blanks between the two stand before it, unless a stray semicolon drops them. -/
theorem Block.ofText_append {source : Text} {b : Block} (h : Block.ofText source = .ok b)
    (hb : b.IsComplete) (t : Text) :
    ∃ blanks, (blanks = [] ∨ blanks = b.after) ∧
      Block.ofText (source ++ t) =
        (Block.ofText t).map fun b' => b.append (b'.spaced blanks) := by
  have hafter := (Nesting.legible_of_ofText h).all_after
  have hsource := Nesting.ofText_of_block h
  have hreads := Nesting.reads_ofText source
  rw [hsource] at hreads
  obtain ⟨blanks, hblanks, hread⟩ := Nesting.ofText_append_of_isAsciiSpace hafter t
  refine ⟨blanks, hblanks, ?_⟩
  have hwhole := hreads.ofText_append rfl hb t
  change Nesting.ofText (source ++ t) = (Nesting.ofText (b.after ++ t)).modify b.append at hwhole
  rw [hread, Nesting.modify_modify] at hwhole
  change (Nesting.ofText (source ++ t)).toBlock = _
  rw [hwhole, Nesting.toBlock_modify]
  rfl

namespace Stylesheet

def IsComplete (s : Stylesheet) : Prop :=
  ∀ id ∈ (s.children root).getLast?,
    (s.kind id).needsSemicolon = true → (s.raws root).semicolon = true

instance (s : Stylesheet) : Decidable s.IsComplete :=
  inferInstanceAs (Decidable (∀ id ∈ (s.children root).getLast?,
    (s.kind id).needsSemicolon = true → (s.raws root).semicolon = true))

theorem isComplete_ofBlock {b : Block} (h : (ofBlock b).IsComplete) : b.IsComplete := by
  intro c hc hneeds
  rw [← map_content_children_root, List.getLast?_map] at hc
  obtain ⟨id, hid, rfl⟩ := Option.map_eq_some_iff.mp hc
  have hsemicolon := h id hid hneeds
  rwa [raws, content_root_ofBlock] at hsemicolon

/-- A text behind a complete stylesheet is parsed as it is parsed alone. Its trees follow those in
front and are numbered from there on, and all that may come before them is the blanks in between. If
it has a fault, the fault is found as many bytes further on as the text in front is long. -/
theorem parse_append {source : Text} {s : Stylesheet} (h : parse source = .ok s)
    (hs : s.IsComplete) (t : Text) :
    (∀ s', parse t = .ok s' →
      ∃ u blanks, parse (source ++ t) = .ok u ∧
        (blanks = [] ∨ blanks = (s.raws root).after) ∧
        u.contents root = (s.contents root).append ((s'.contents root).spaced blanks) ∧
        u.below root =
          (s.below root).append ((s'.below root).map (NodeId.shift (s.size - 1)))) ∧
    (∀ e, parse t = .error e →
      ∃ offset p, offset ≤ t.byteLength ∧
        Position.ofByteOffset? t offset = some e.position ∧
        Position.ofByteOffset? (source ++ t) (source.byteLength + offset) = some p ∧
        parse (source ++ t) = .error ⟨e.fault, p⟩) := by
  obtain ⟨b, hb, rfl⟩ := exists_block_of_parse h
  obtain ⟨blanks, hblanks, hread⟩ := Block.ofText_append hb (isComplete_ofBlock hs) t
  constructor
  · intro s' hs'
    obtain ⟨b', hb', rfl⟩ := exists_block_of_parse hs'
    rw [hb'] at hread
    refine ⟨ofBlock (b.append (b'.spaced blanks)), blanks, ?_, ?_, ?_, ?_⟩
    · rw [parse, hread]
      rfl
    · rwa [raws, content_root_ofBlock]
    · simp only [contents_root_ofBlock]
      rfl
    · simp only [below_root_ofBlock, size_ofBlock, Nat.add_sub_cancel]
      rw [Block.append, Forest.number_append, Block.spaced, Forest.number_spaced, Forest.number_add]
  · intro e he
    obtain ⟨front, f, rfl, hf, rfl⟩ := exists_fault_of_parse he
    rw [hf] at hread
    refine ⟨front.byteLength, Position.after (source ++ front), ?_, ?_, ?_, ?_⟩
    · rw [byteLength_append]
      exact Nat.le_add_right ..
    · exact Position.ofByteOffset?_byteLength ..
    · rw [← byteLength_append, ← List.append_assoc]
      exact Position.ofByteOffset?_byteLength ..
    · rw [parse, hread, ← List.append_assoc]
      exact congrArg Except.error (LocatedFault.report_append ..)

theorem parse_append_of_import :
    ∃ s, parse "@import x; ".toList = .ok s ∧ s.IsComplete ∧
      (∃ s' u, parse "a\x7bb:c\x7d".toList = .ok s' ∧
        parse "@import x; a\x7bb:c\x7d".toList = .ok u ∧
        u.below root = (s.below root).append ((s'.below root).map (NodeId.shift 1))) ∧
      ∃ p, parse "@import x; \n\x7d".toList = .error ⟨.unexpectedCloseBrace, p⟩ := by
  have hsource : (parse "@import x; ".toList).toOption.any
      (fun s => s.IsComplete ∧ s.size = 2) = true := by cbv
  have htext : (parse "a\x7bb:c\x7d".toList).toOption.any (fun _ => true) = true := by cbv
  have hfault : parse "\n\x7d".toList = .error ⟨.unexpectedCloseBrace, ⟨2, 1⟩⟩ := by cbv
  obtain ⟨s, hs, hcomplete⟩ := exists_parse_of_any hsource
  obtain ⟨s', hs', -⟩ := exists_parse_of_any htext
  rw [decide_eq_true_eq] at hcomplete
  obtain ⟨u, blanks, hu, -, -, hbelow⟩ := (parse_append hs hcomplete.1 _).1 s' hs'
  obtain ⟨offset, p, -, -, -, hp⟩ := (parse_append hs hcomplete.1 _).2 _ hfault
  rw [hcomplete.2] at hbelow
  exact ⟨s, hs, hcomplete.1, ⟨s', u, hs', hu, hbelow⟩, p, hp⟩

end Stylesheet
end UtilityCss
