import UtilityCss.Proofs.Upgrade.Forests
import UtilityCss.Proofs.Upgrade.Rereading

/-!
# Layering twice

What layering makes of a stylesheet has explicit layers, however the stylesheet came about: wrappers
name their layer, a tagged import is still an import and has its tag, and no content is followed by
anything that would end a run. So there is nothing left for a second layering.
-/
namespace UtilityCss

theorem Content.role_tagged {c : Content} (h : Role.ofKind c.kind = .importing)
    (layer : Option Layer) :
    Role.ofKind (c.tagged layer).kind = .importing ∧
      Change.isUntagged (c.tagged layer).kind = false := by
  rcases c with ⟨kind, raws⟩
  cases kind with
  | atRule r =>
    obtain ⟨hname, hparams⟩ := Role.ofAtRule_eq_importing h
    constructor
    · exact Role.ofAtRule_import hname (Layer.ofImport?_append hparams _)
    · have htag := Change.hasInfix_append_tagText r.params layer
      change (!(r.params ++ Change.tagText layer).hasInfix "layer(".toList) = false
      rw [htag, Bool.not_true]
  | _ => cases h

namespace Stylesheet

variable {s : Stylesheet}

theorem WellPlaced.readsAs_layeredForest {cs : List Change} (hcs : s.WellPlaced cs) :
    List.Forall₂ s.ReadsAs cs ((s.layeredForest cs).roots.map Content.kind) := by
  induction hcs with
  | nil => exact .nil
  | keep _ ih => exact .cons rfl ih
  | tag hid _ ih => exact .cons (Content.role_tagged hid _) ih
  | @wrap layer _ _ _ _ _ ih =>
    refine .cons ?_ ih
    cases layer <;> rfl

theorem IsForest.kinds_layered (h : s.IsForest) :
    (s.layered.children root).map s.layered.kind =
      (s.layeredForest s.changes).roots.map Content.kind := by
  rw [← h.contents_layered, ← h.isForest_layered.map_content_children, List.map_map]
  rfl

/-- Layering a stylesheet a second time changes nothing. -/
theorem layered_layered (h : s.IsForest) : s.layered.layered = s.layered := by
  apply layered_of_explicit
  rw [h.kinds_layered]
  exact explicit_of_readsAs (fun _ => rfl) (fun _ hid => absurd hid List.not_mem_nil)
    s.wellPlaced_changes.readsAs_layeredForest

/-- A path without its closing quote names no layer, neither before nor after the tag. -/
theorem layered_layered_of_open_path :
    ∃ s : Stylesheet, s.IsForest ∧
      s.kind ⟨3⟩ = .atRule ⟨"import".toList, "'tailwindcss/base".toList, false⟩ ∧
      s.layered.kind ⟨3⟩ = .atRule ⟨"import".toList, "'tailwindcss/base layer(base)".toList, false⟩ ∧
      s.layered.children root = [⟨1⟩, ⟨4⟩, ⟨3⟩] ∧ s.layered.layered = s.layered := by
  have hread : (parse "@tailwind base;a\x7b\x7d@import x;".toList).map (fun s =>
      let s' := s.setKind ⟨3⟩ (.atRule ⟨"import".toList, "'tailwindcss/base".toList, false⟩)
      (s'.kind ⟨3⟩, s'.layered.kind ⟨3⟩, s'.layered.children root)) =
        .ok (.atRule ⟨"import".toList, "'tailwindcss/base".toList, false⟩,
          .atRule ⟨"import".toList, "'tailwindcss/base layer(base)".toList, false⟩,
          [⟨1⟩, ⟨4⟩, ⟨3⟩]) := by
    decide +kernel
  cases hs : parse "@tailwind base;a\x7b\x7d@import x;".toList with
  | error e =>
    rw [hs] at hread
    cases hread
  | ok s =>
    rw [hs] at hread
    obtain ⟨hbefore, hrest⟩ := Prod.mk.inj (Except.ok.inj hread)
    obtain ⟨hafter, hroot⟩ := Prod.mk.inj hrest
    have hforest := (isForest_of_parse hs).modifyContent ⟨3⟩ fun c =>
      { c with kind := .atRule ⟨"import".toList, "'tailwindcss/base".toList, false⟩ }
    exact ⟨_, hforest, hbefore, hafter, hroot, layered_layered hforest⟩

end Stylesheet
end UtilityCss
