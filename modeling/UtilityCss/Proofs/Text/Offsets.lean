import Mathlib
import UtilityCss.Text.Position

/-!
# Byte offsets between characters

The byte length of a part is the offset at which it ends. An offset that is reached in this way lies
between two characters, so the text can be cut there and the offset has a position.
-/
namespace UtilityCss

namespace Text

theorem takeBytes?_cons {n : Nat} (hn : 0 < n) (c : Char) (t : Text) :
    takeBytes? n (c :: t) =
      if c.utf8Size ≤ n then (takeBytes? (n - c.utf8Size) t).map (c :: ·) else none := by
  obtain ⟨m, rfl⟩ := Nat.exists_eq_add_one_of_ne_zero hn.ne'
  rfl

theorem takeBytes?_byteLength (a b : Text) : takeBytes? a.byteLength (a ++ b) = some a := by
  induction a with
  | nil => rw [byteLength, takeBytes?]
  | cons c a ih =>
    have hpos : 0 < byteLength (c :: a) := Nat.add_pos_left c.utf8Size_pos _
    have hle : c.utf8Size ≤ byteLength (c :: a) := Nat.le_add_right ..
    have hrest : byteLength (c :: a) - c.utf8Size = byteLength a := Nat.add_sub_cancel_left ..
    rw [List.cons_append, takeBytes?_cons hpos, if_pos hle, hrest, ih]
    rfl

theorem append_inj_of_byteLength {a b a' b' : Text} (h : a ++ b = a' ++ b')
    (hlength : a.byteLength = a'.byteLength) : a = a' ∧ b = b' := by
  have hfront : some a = some a' := by
    rw [← takeBytes?_byteLength a b, ← takeBytes?_byteLength a' b', h, hlength]
  obtain rfl := Option.some.inj hfront
  exact ⟨rfl, List.append_cancel_left h⟩

/-- What stands in a text between two byte offsets, both of which lie between characters. -/
def IsSlice (t : Text) (start stop : Nat) (part : Text) : Prop :=
  ∃ before after, t = before ++ part ++ after ∧ before.byteLength = start ∧
    (before ++ part).byteLength = stop

theorem IsSlice.exists_rest {content t u : Text} {start stop stop' : Nat}
    (ht : content.IsSlice start stop t) (hu : content.IsSlice start stop' u) :
    ∃ a b b', content = a ++ t ++ b ∧ (a ++ t).byteLength = stop ∧ t ++ b = u ++ b' := by
  obtain ⟨a, b, hcontent, hstart, hstop⟩ := ht
  obtain ⟨a', b', hcontent', hstart', -⟩ := hu
  refine ⟨a, b, b', hcontent, hstop, ?_⟩
  rw [hcontent, List.append_assoc, List.append_assoc] at hcontent'
  exact (append_inj_of_byteLength hcontent' (hstart.trans hstart'.symm)).2

end Text

theorem Position.ofByteOffset?_byteLength (a b : Text) :
    ofByteOffset? (a ++ b) a.byteLength = some (after a) := by
  rw [ofByteOffset?, Text.takeBytes?_byteLength]
  rfl

end UtilityCss
