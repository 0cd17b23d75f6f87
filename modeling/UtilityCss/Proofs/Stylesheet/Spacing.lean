import UtilityCss.Proofs.Stylesheet.Legible

/-!
# ASCII spaces in front of a text

They become part of what the text begins with: the raws before its first node or, where nothing but
spaces follows, the blanks at the end. A stray semicolon at the beginning takes them with it.
-/
namespace UtilityCss

open Text

def Content.spaced (blanks : Text) (c : Content) : Content :=
  { c with raws := { c.raws with before := blanks ++ c.raws.before } }

def Forest.spaced (blanks : Text) : Forest Content → Forest Content
  | nil => nil
  | cons c children rest => cons (c.spaced blanks) children rest

def Block.spaced (blanks : Text) (b : Block) : Block :=
  { b with
    forest := b.forest.spaced blanks
    after := if b.forest.isEmpty then blanks ++ b.after else b.after }

theorem Forest.spaced_nil (t : Forest Content) : t.spaced [] = t := by
  cases t <;> rfl

theorem Block.spaced_nil (b : Block) : b.spaced [] = b := by
  rw [Block.spaced, Forest.spaced_nil, List.nil_append, ite_self]

namespace Statement

theorem atRule_spaced (blanks : Text) (raws : Raws) (hasBlock : Bool) (t : Text) :
    atRule { raws with before := blanks ++ raws.before } hasBlock t =
      (atRule raws hasBlock t).spaced blanks := rfl

theorem prelude_spaced (blanks before t : Text) :
    prelude (blanks ++ before) t = (prelude before t).spaced blanks := by
  unfold prelude
  split
  · exact atRule_spaced blanks { before := before, between := t.trailingBlanks } true _
  · rfl

theorem body?_spaced (blanks : Text) (raws : Raws) (t : Text) :
    body? { raws with before := blanks ++ raws.before } t =
      (body? raws t).map (Content.spaced blanks) := by
  unfold body?
  split
  · rfl
  · unfold declaration?
    split
    · rfl
    · split <;> rfl

end Statement

namespace Event

def spaced (blanks : Text) : Event → Event
  | comment c => comment (c.spaced blanks)
  | statement c terminated => statement (c.spaced blanks) terminated
  | opening c place => opening (c.spaced blanks) place
  | closing before place => closing (blanks ++ before) place
  | stray before => stray (blanks ++ before)

def First.spaced (blanks : Text) : First → First
  | finish after => finish (blanks ++ after)
  | fault f => fault f
  | event e rest => event (e.spaced blanks) rest

theorem ofBody_spaced (blanks before t after place rest : Text) (terminated : Bool) :
    ofBody (blanks ++ before) t after place terminated rest =
      (ofBody before t after place terminated rest).spaced blanks := by
  have hbody := Statement.body?_spaced blanks { before := before, after := after } t
  unfold ofBody
  rw [hbody]
  cases Statement.body? { before := before, after := after } t <;> rfl

theorem ofStatement_spaced (blanks before t : Text) :
    ofStatement (blanks ++ before) t = (ofStatement before t).spaced blanks := by
  unfold ofStatement
  split
  · rfl
  · rw [Statement.prelude_spaced]
    rfl
  · exact ofBody_spaced ..
  · exact ofBody_spaced ..

theorem ofText_spaced (blanks before t : Text) :
    ofText (blanks ++ before) t = (ofText before t).spaced blanks := by
  unfold ofText
  split
  · rfl
  · rfl
  · rfl
  · split <;> rfl
  · exact ofStatement_spaced ..

theorem first_append_of_isAsciiSpace {blanks : Text} (h : blanks.all isAsciiSpace = true)
    (t : Text) : first (blanks ++ t) = (first t).spaced blanks := by
  obtain ⟨happ, hb, hhead⟩ := takeWhile_dropWhile_first t
  have hall : (blanks ++ t.takeWhile isAsciiSpace).all isAsciiSpace = true := by
    rw [List.all_append, h, hb, Bool.and_self]
  conv_lhs => rw [← happ, ← List.append_assoc, first_of_head hall hhead]
  exact ofText_spaced ..

end Event

namespace Nesting

open Event

def modify (f : Block → Block) (n : Nesting) : Nesting :=
  match n.closed with
  | (b, place) :: outer => { n with closed := (f b, place) :: outer }
  | [] => { n with last := n.last.map f }

theorem push_eq_modify (c : Content) (children : Forest Content) (terminated : Bool)
    (n : Nesting) :
    n.push c children terminated = n.modify (Block.push c children terminated) := by
  rcases n with ⟨_ | ⟨p, outer⟩, last⟩ <;> rfl

theorem modify_modify (f g : Block → Block) (n : Nesting) :
    (n.modify f).modify g = n.modify (g ∘ f) := by
  rcases n with ⟨_ | ⟨p, outer⟩, _ | b⟩ <;> rfl

theorem modify_id (n : Nesting) : n.modify id = n := by
  rcases n with ⟨_ | ⟨p, outer⟩, _ | b⟩ <;> rfl

theorem toBlock_modify (f : Block → Block) (n : Nesting) :
    (n.modify f).toBlock = n.toBlock.map f := by
  rcases n with ⟨_ | ⟨p, outer⟩, last⟩ <;> rfl

theorem modify_spaced_nil (n : Nesting) : n.modify (Block.spaced []) = n := by
  have hid : Block.spaced [] = id := funext Block.spaced_nil
  rw [hid, modify_id]

theorem push_spaced (blanks : Text) (c : Content) (children : Forest Content) (terminated : Bool)
    (n : Nesting) :
    n.push (c.spaced blanks) children terminated =
      (n.push c children terminated).modify (Block.spaced blanks) := by
  rw [push_eq_modify, push_eq_modify, modify_modify]
  rfl

theorem enclose_spaced (blanks : Text) (c : Content) (place : Text) (n : Nesting) :
    n.enclose (c.spaced blanks) place = (n.enclose c place).modify (Block.spaced blanks) := by
  rcases n with ⟨_ | ⟨⟨b, p⟩, outer⟩, last⟩
  · cases last <;> rfl
  · exact push_spaced blanks (c.enclosing b) b.forest false _

theorem before_spaced (blanks : Text) {e : Event} (he : ∀ before, e ≠ .stray before)
    (n : Nesting) :
    n.before (e.spaced blanks) = (n.before e).modify (Block.spaced blanks) := by
  cases e with
  | comment c => exact push_spaced ..
  | statement c terminated => exact push_spaced ..
  | opening c place => exact enclose_spaced ..
  | closing before place => rfl
  | stray before => exact absurd rfl (he before)

/-- ASCII spaces in front of a text stand before what is read of it, unless a stray semicolon drops
them. -/
theorem ofText_append_of_isAsciiSpace {blanks : Text} (h : blanks.all isAsciiSpace = true)
    (t : Text) :
    ∃ kept, (kept = [] ∨ kept = blanks) ∧
      ofText (blanks ++ t) = (ofText t).modify (Block.spaced kept) := by
  have hfirst := first_append_of_isAsciiSpace h t
  cases ht : first t with
  | finish after =>
    rw [ht] at hfirst
    refine ⟨blanks, .inr rfl, ?_⟩
    rw [ofText_of_finish hfirst, ofText_of_finish ht]
    rfl
  | fault f =>
    rw [ht] at hfirst
    refine ⟨blanks, .inr rfl, ?_⟩
    rw [ofText_of_fault hfirst, ofText_of_fault ht]
    rfl
  | event e rest =>
    rw [ht] at hfirst
    rw [ofText_of_event hfirst, ofText_of_event ht]
    by_cases he : ∃ before, e = .stray before
    · obtain ⟨before, rfl⟩ := he
      refine ⟨[], .inl rfl, ?_⟩
      rw [modify_spaced_nil]
      rfl
    · exact ⟨blanks, .inr rfl, before_spaced blanks (fun before heq => he ⟨before, heq⟩) _⟩

end Nesting
end UtilityCss
