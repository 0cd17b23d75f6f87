import UtilityCss.Proofs.Stylesheet.Lossless
import UtilityCss.Proofs.Upgrade.Rereading
import UtilityCss.Upgrade.Pipeline

/-!
# Upgrading twice

What an upgrade prints reads as a stylesheet whose layers are explicit. A second upgrade therefore
prints it as it is.
-/
namespace UtilityCss

open Text

theorem upgrade_eq_ok_iff {source out : Text} :
    upgrade source = .ok out ↔ ∃ s, Stylesheet.parse source = .ok s ∧ s.layered.toCss = out := by
  unfold upgrade
  cases Stylesheet.parse source with
  | error e => simp
  | ok s =>
    constructor
    · intro h
      exact ⟨s, rfl, Except.ok.inj h⟩
    · rintro ⟨s', hs, rfl⟩
      cases hs
      rfl

namespace Stylesheet

theorem asciiBlanks_toCss {source : Text} {s : Stylesheet} (h : parse source = .ok s)
    (hblanks : AsciiBlanks source) : AsciiBlanks s.toCss := by
  intro c hc
  apply hblanks c
  rw [toCss_of_parse h] at hc
  obtain ⟨p, hp, hprinted⟩ := List.mem_flatMap.mp hc
  rw [← (Piece.flatMap_source_all source).1]
  refine List.mem_flatMap.mpr ⟨p, hp, ?_⟩
  cases p with
  | kept text => exact hprinted
  | stray before => cases hprinted

theorem kinds_children_root (b : Block) :
    ((ofBlock b).children root).map (ofBlock b).kind = b.forest.roots.map Content.kind := by
  rw [← map_content_children_root, List.map_map]
  rfl

end Stylesheet

/-- A second upgrade changes nothing, for a source whose blanks all separate statements. -/
theorem upgrade_idempotent {source out : Text} (hblanks : AsciiBlanks source)
    (h : upgrade source = .ok out) : upgrade out = .ok out := by
  obtain ⟨s, hs, rfl⟩ := upgrade_eq_ok_iff.mp h
  have htext := Stylesheet.asciiBlanks_toCss hs hblanks
  have hforest := Stylesheet.isForest_of_parse hs
  obtain ⟨b, hb, rfl⟩ := Stylesheet.exists_block_of_parse hs
  rw [Stylesheet.toCss_ofBlock] at htext
  have htrees : b.forest = ((Stylesheet.ofBlock b).trees
      ((Stylesheet.ofBlock b).changes.flatMap Change.ids)).map (Stylesheet.ofBlock b).content := by
    rw [Stylesheet.flatMap_ids_changes, ← hforest.below_eq_trees]
    exact (Stylesheet.contents_root_ofBlock b).symm
  obtain ⟨b', hb', hprinted, hkinds⟩ := Stylesheet.exists_reread
    (Stylesheet.wellPlaced_changesFrom _ none [] _) (Nesting.legible_of_ofText hb) htext htrees
  have hroot : Stylesheet.root.index < (Stylesheet.ofBlock b).size := by
    rw [Stylesheet.size_ofBlock]
    exact Nat.succ_pos _
  have hcss : (Stylesheet.ofBlock b).layered.toCss = b'.text := by
    rw [hforest.toCss_layered hroot, Stylesheet.raws, Stylesheet.content_root_ofBlock]
    exact hprinted.symm
  have hexplicit : Explicit none
      (((Stylesheet.ofBlock b').children Stylesheet.root).map (Stylesheet.ofBlock b').kind) := by
    rw [Stylesheet.kinds_children_root]
    exact Stylesheet.explicit_of_readsAs (fun _ => rfl)
      (fun _ hid => absurd hid List.not_mem_nil) hkinds
  rw [hcss]
  apply upgrade_eq_ok_iff.mpr
  refine ⟨Stylesheet.ofBlock b', Stylesheet.parse_of_legible hb', ?_⟩
  rw [Stylesheet.layered_of_explicit hexplicit, Stylesheet.toCss_ofBlock]

theorem upgrade_idempotent_of_wrapped :
    AsciiBlanks "@tailwind base;a\x7b\x7d@import x;".toList ∧
      upgrade "@tailwind base;a\x7b\x7d@import x;".toList =
        .ok "@tailwind base;@layer base \x7b\n  a\x7b\x7d\n\x7d@import x layer(base);".toList ∧
      upgrade "@tailwind base;@layer base \x7b\n  a\x7b\x7d\n\x7d@import x layer(base);".toList =
        .ok "@tailwind base;@layer base \x7b\n  a\x7b\x7d\n\x7d@import x layer(base);".toList := by
  have hblanks : AsciiBlanks "@tailwind base;a\x7b\x7d@import x;".toList := by decide
  have hfirst : upgrade "@tailwind base;a\x7b\x7d@import x;".toList =
      .ok "@tailwind base;@layer base \x7b\n  a\x7b\x7d\n\x7d@import x layer(base);".toList := by
    decide +kernel
  exact ⟨hblanks, hfirst, upgrade_idempotent hblanks hfirst⟩

end UtilityCss
