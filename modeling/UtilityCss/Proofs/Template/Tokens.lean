import UtilityCss.Proofs.Text.Bytes
import UtilityCss.Template.Token

/-!
# Where tokens stand

The pieces of a template follow one another with one cutting character between them. So each stands
where its offset says, and it ends before the next one begins.
-/
namespace UtilityCss.Token

def holds : Nat → Text → Bool
  | _, [] => true
  | depth, c :: cs => !cuts depth c && holds (adjust depth c) cs

def depthAfter (depth : Nat) (t : Text) : Nat := t.foldl adjust depth

/-- The pieces of a text that begins at a byte offset where some brackets are open. After a cutting
character none is. -/
inductive Cut : Nat → Nat → Text → List Token → Prop
  | last {offset depth : Nat} {text : Text} (h : holds depth text = true) :
      Cut offset depth text [⟨offset, text⟩]
  | cut {offset depth : Nat} {text rest : Text} {c : Char} {tokens : List Token}
      (h : holds depth text = true) (hc : cuts (depthAfter depth text) c = true)
      (hrest : Cut (offset + text.byteLength + c.utf8Size) 0 rest tokens) :
      Cut offset depth (text ++ c :: rest) (⟨offset, text⟩ :: tokens)

theorem Cut.extend {offset depth : Nat} {c : Char} {t : Text} {tokens : List Token}
    (hc : cuts depth c = false) (h : Cut (offset + c.utf8Size) (adjust depth c) t tokens) :
    Cut offset depth (c :: t) (tokens.modifyHead fun tok => ⟨offset, c :: tok.text⟩) := by
  have hholds : ∀ text, holds (adjust depth c) text = true → holds depth (c :: text) = true := by
    intro text htext
    rw [holds, hc, htext]
    rfl
  cases h with
  | last h => exact .last (hholds _ h)
  | @cut _ _ text rest d tokens h hd hrest =>
    refine .cut (hholds _ h) hd ?_
    have hoffset : offset + Text.byteLength (c :: text) + d.utf8Size =
        offset + c.utf8Size + text.byteLength + d.utf8Size := by
      rw [Text.byteLength]
      omega
    rwa [hoffset]

theorem cut_pieces (offset depth : Nat) (t : Text) :
    Cut offset depth t (pieces offset depth t) := by
  induction t generalizing offset depth with
  | nil => exact .last rfl
  | cons c t ih =>
    rw [pieces]
    split_ifs with hc
    · have hempty : holds depth [] = true := rfl
      exact .cut hempty hc (ih ..)
    · exact .extend (by simpa using hc) (ih ..)

theorem Cut.isSlice {offset depth : Nat} {t : Text} {tokens : List Token}
    (h : Cut offset depth t tokens) (before : Text) (hbefore : before.byteLength = offset) :
    ∀ tok ∈ tokens, (before ++ t).IsSlice tok.start tok.stop tok.text := by
  have hstop : ∀ before text : Text,
      (before ++ text).byteLength = stop ⟨before.byteLength, text⟩ := Text.byteLength_append
  induction h generalizing before with
  | @last offset _ text _ =>
    rw [List.forall_mem_singleton]
    exact ⟨before, [], by simp, hbefore, hbefore ▸ hstop before text⟩
  | @cut offset _ text rest c tokens _ _ _ ih =>
    have happ : before ++ (text ++ c :: rest) = before ++ text ++ [c] ++ rest := by simp
    have hoffset : (before ++ text ++ [c]).byteLength = offset + text.byteLength + c.utf8Size := by
      simp [Text.byteLength_append, Text.byteLength, hbefore, Nat.add_assoc]
    rw [List.forall_mem_cons]
    refine ⟨⟨before, c :: rest, by simp, hbefore, hbefore ▸ hstop before text⟩, ?_⟩
    rw [happ]
    exact ih _ hoffset

theorem Cut.separated {offset depth : Nat} {t : Text} {tokens : List Token}
    (h : Cut offset depth t tokens) :
    (∀ tok ∈ tokens, offset ≤ tok.start) ∧ tokens.Pairwise fun a b => a.stop < b.start := by
  induction h with
  | last => simp
  | @cut offset _ text rest c tokens _ _ _ ih =>
    obtain ⟨hstart, hpairwise⟩ := ih
    have hpos := c.utf8Size_pos
    refine ⟨List.forall_mem_cons.mpr ⟨Nat.le_refl _, fun tok htok => ?_⟩,
      List.pairwise_cons.mpr ⟨fun tok htok => ?_, hpairwise⟩⟩
    · have := hstart tok htok
      omega
    · have := hstart tok htok
      simp only [stop]
      omega

theorem isSlice_of_mem_all {content : Text} {tok : Token} (h : tok ∈ all content) :
    content.IsSlice tok.start tok.stop tok.text :=
  (cut_pieces 0 0 content).isSlice [] rfl tok (List.mem_filter.mp h).1

theorem bounds_of_mem_all {content : Text} {tok : Token} (h : tok ∈ all content) :
    tok.start < tok.stop ∧ tok.stop ≤ content.byteLength := by
  obtain ⟨before, after, rfl, -, hstop⟩ := isSlice_of_mem_all h
  have hpos : 0 < tok.text.byteLength :=
    Text.byteLength_pos (by simpa using (List.mem_filter.mp h).2)
  constructor
  · simp only [stop]
    omega
  · rw [Text.byteLength_append, hstop]
    exact Nat.le_add_right ..

theorem pairwise_all (content : Text) : (all content).Pairwise fun a b => a.stop < b.start :=
  (cut_pieces 0 0 content).separated.2.filter _

end UtilityCss.Token
