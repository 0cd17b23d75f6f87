import UtilityCss.Proofs.Stylesheet.Indentation
import UtilityCss.Proofs.Upgrade.Idempotence

/-!
# What an upgrade prints is what layering made

The printed stylesheet is read as the layered one, node for node and blanks apart. Only the nodes
that were wrapped stand on indented lines of their own, so only there may it go wrong: where a
backslash stands before the blanks at the end of a statement, and where blanks at the beginning of a
statement mask what it is.
-/
namespace UtilityCss

open Text Event

namespace Stylesheet

variable {s : Stylesheet}

theorem RereadAs.forall₂ {R : Kind → Kind → Prop} (hrefl : ∀ k, R k k)
    (htagged : ∀ r k, (Kind.atRule r).Respaced k → R (.atRule r) k) {cs : List Change}
    {f : Forest Content}
    (h : s.RereadAs (fun t t' => Forest.Forall₂ R t.kinds t'.kinds) cs f) :
    Forest.Forall₂ R (s.layeredForest cs).kinds f.kinds := by
  induction h with
  | nil => exact .nil
  | keep _ ih => exact .cons (hrefl _) (.refl hrefl _) ih
  | @tag id layer _ c _ hid _ hkind _ ih =>
    obtain ⟨r, hr⟩ := exists_atRule_of_importing hid
    have hread : R ((s.content id).tagged layer).kind c.kind := by
      rw [Content.tagged, hr] at hkind ⊢
      exact htagged _ _ hkind
    exact .cons hread (.refl hrefl _) ih
  | wrap hkind hwrapped _ ih =>
    refine .cons ?_ hwrapped ih
    rw [hkind]
    exact hrefl _

/-- The printed stylesheet is read as one whose nodes are related to those that layering made. -/
theorem exists_parse_layered {R : Kind → Kind → Prop} (hrefl : ∀ k, R k k)
    (htagged : ∀ r k, (Kind.atRule r).Respaced k → R (.atRule r) k) {source : Text}
    (hs : parse source = .ok s)
    (hwrapped : ∀ f ∈ s.wrappedRuns s.changes, f.Indentable ∧
      ∀ k ∈ f.kinds.preorder, ∀ k', k.Respaced k' → R k k') :
    ∃ s', parse s.layered.toCss = .ok s' ∧
      Forest.Forall₂ R (s.layered.contents root).kinds (s'.contents root).kinds := by
  have hforest := isForest_of_parse hs
  obtain ⟨b, hb, rfl⟩ := exists_block_of_parse hs
  have htrees : b.forest = ((ofBlock b).trees
      ((ofBlock b).changes.flatMap Change.ids)).map (ofBlock b).content := by
    rw [flatMap_ids_changes, ← hforest.below_eq_trees]
    exact (contents_root_ofBlock b).symm
  have hruns : ∀ f ∈ (ofBlock b).wrappedRuns (ofBlock b).changes, f.OfLegible →
      ∃ inner : Block, inner.Legible ['\x7d'] ∧ inner.text = render .lines f ++ ['\n'] ∧
        Forest.Forall₂ R f.kinds inner.forest.kinds := by
    intro f hf hlegible
    obtain ⟨hindentable, hread⟩ := hwrapped f hf
    obtain ⟨inner, hinner, hlines, hkinds⟩ :=
      Block.exists_indented hlegible hindentable
    exact ⟨inner, hinner, hlines, hkinds.imp hread⟩
  obtain ⟨b', hb', hprinted, hread⟩ := exists_rereadAs
    (W := fun t t' => Forest.Forall₂ R t.kinds t'.kinds) (wellPlaced_changes _) hruns
    (Nesting.legible_of_ofText hb) htrees
  have hroot : root.index < (ofBlock b).size := by
    rw [size_ofBlock]
    exact Nat.succ_pos _
  have hcss : (ofBlock b).layered.toCss = b'.text := by
    rw [hforest.toCss_layered hroot, raws, content_root_ofBlock]
    exact hprinted.symm
  refine ⟨ofBlock b', hcss ▸ parse_of_legible hb', ?_⟩
  rw [hforest.contents_layered, contents_root_ofBlock]
  exact hread.forall₂ hrefl htagged

end Stylesheet

open Stylesheet

/-- What an upgrade prints is read as the layered stylesheet, node for node and blanks apart. -/
theorem upgrade_corresponds {source out : Text} {s : Stylesheet} (hs : parse source = .ok s)
    (hout : upgrade source = .ok out) (hwrapped : ∀ f ∈ s.wrappedRuns s.changes, f.Indentable) :
    ∃ s', parse out = .ok s' ∧ (s'.contents root).kinds.map Kind.squeezed =
      (s.layered.contents root).kinds.map Kind.squeezed := by
  obtain ⟨s₀, hs₀, rfl⟩ := upgrade_eq_ok_iff.mp hout
  obtain rfl : s = s₀ := Except.ok.inj (hs.symm.trans hs₀)
  obtain ⟨s', hs', hkinds⟩ := exists_parse_layered Kind.Respaced.refl (fun _ _ h => h) hs
    fun f hf => ⟨hwrapped f hf, fun _ _ _ h => h⟩
  exact ⟨s', hs', (hkinds.map_eq fun _ _ h => h.squeezed_eq).symm⟩

/-- Blanks before a semicolon and blank lines may go. -/
theorem upgrade_corresponds_of_blanks :
    ∃ s out s', parse "@tailwind base;@x y ;\n \n a\x7bb:c\x7d@import z;".toList = .ok s ∧
      upgrade "@tailwind base;@x y ;\n \n a\x7bb:c\x7d@import z;".toList = .ok out ∧
      (∀ f ∈ s.wrappedRuns s.changes, f.Indentable) ∧ parse out = .ok s' ∧
      (s'.contents root).kinds.map Kind.squeezed =
        (s.layered.contents root).kinds.map Kind.squeezed := by
  have hany : (parse "@tailwind base;@x y ;\n \n a\x7bb:c\x7d@import z;".toList).toOption.any
      (fun s => ∀ f ∈ s.wrappedRuns s.changes, f.Indentable) = true := by
    decide +kernel
  obtain ⟨s, hs, hwrapped⟩ := exists_parse_of_any hany
  rw [decide_eq_true_eq] at hwrapped
  have hout := upgrade_eq_ok_iff.mpr ⟨s, hs, rfl⟩
  obtain ⟨s', hs', hkinds⟩ := upgrade_corresponds hs hout hwrapped
  exact ⟨s, _, s', hs, hout, hwrapped, hs', hkinds⟩

theorem not_corresponds_of_any {source : Text}
    (h : (parse source).toOption.any (fun s => !(parse s.layered.toCss).toOption.any fun s' =>
      (s'.contents root).kinds.map Kind.squeezed =
        (s.layered.contents root).kinds.map Kind.squeezed) = true) :
    ∃ s out, parse source = .ok s ∧ upgrade source = .ok out ∧
      ¬∃ s', parse out = .ok s' ∧ (s'.contents root).kinds.map Kind.squeezed =
        (s.layered.contents root).kinds.map Kind.squeezed := by
  obtain ⟨s, hs, hkinds⟩ := exists_parse_of_any h
  refine ⟨s, s.layered.toCss, hs, upgrade_eq_ok_iff.mpr ⟨s, hs, rfl⟩, ?_⟩
  rintro ⟨s', hs', heq⟩
  rw [hs'] at hkinds
  simp [Except.toOption, heq] at hkinds

/-- Where a backslash stands before the blank that goes, the semicolon after it ends nothing. -/
theorem upgrade_joins_escaped :
    ∃ s out, parse "@tailwind base;@x y\\ ;a\x7bb:c\x7d@import z;".toList = .ok s ∧
      upgrade "@tailwind base;@x y\\ ;a\x7bb:c\x7d@import z;".toList = .ok out ∧
      ¬∃ s', parse out = .ok s' ∧ (s'.contents root).kinds.map Kind.squeezed =
        (s.layered.contents root).kinds.map Kind.squeezed :=
  not_corresponds_of_any (by decide +kernel)

/-- A selector whose first line has only blanks that are not ASCII spaces is read as an at-rule once
that line is empty. -/
theorem upgrade_unmasks_selector :
    ∃ s out, parse "@tailwind base;a\x7b\x7d\u00a0\n@media x\x7b\x7d@layer z;".toList = .ok s ∧
      upgrade "@tailwind base;a\x7b\x7d\u00a0\n@media x\x7b\x7d@layer z;".toList = .ok out ∧
      ¬∃ s', parse out = .ok s' ∧ (s'.contents root).kinds.map Kind.squeezed =
        (s.layered.contents root).kinds.map Kind.squeezed :=
  not_corresponds_of_any (by decide +kernel)

end UtilityCss
