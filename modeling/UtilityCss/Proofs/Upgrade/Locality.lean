import UtilityCss.Proofs.Stylesheet.Chunks
import UtilityCss.Proofs.Upgrade.Forests
import UtilityCss.Proofs.Upgrade.Idempotence
import UtilityCss.Proofs.Upgrade.ImplicitRuns

/-!
# What an upgrade changes in the text

An upgrade prints the chunks of the stylesheet. It writes a tag into the chunks of some imports and
puts one wrapper in the place of the chunks of each implicitly layered run; all other chunks are
printed letter for letter, the semicolons between them included.
-/
namespace UtilityCss

open Text

theorem Content.layout_tagged (c : Content) (layer : Option Layer) :
    (c.tagged layer).layout = c.layout := by
  obtain ⟨kind, raws⟩ := c
  cases kind <;> rfl

theorem Content.write_tagged {c : Content} {r : AtRule} (hc : c.kind = .atRule r) (h : c.IsTight)
    (layer : Option Layer) (inner : Text) :
    (c.tagged layer).write inner = c.opening ++ Change.tagText layer ++ c.remainder inner := by
  obtain ⟨kind, raws⟩ := c
  cases hc
  have htag : r.params ++ Change.tagText layer ≠ [] := by
    rw [Change.tagText_eq]
    simp
  simp only [tagged, Kind.mapParams, write, opening, remainder, if_neg htag]
  by_cases hparams : r.params = []
  · have hname : raws.afterName = [] := h r rfl hparams
    simp only [hparams, hname, if_true, List.nil_append, List.append_nil, List.append_assoc]
  · simp only [hparams, if_false, List.append_assoc]

namespace Stylesheet

variable {s : Stylesheet}

/-- The chunk of a child of the root with the children `before` it, which is told the layer that is
current there if it awaits a tag. -/
def keptChunk (s : Stylesheet) (before later : List NodeId) (id : NodeId) : Text :=
  if s.awaitsTag id then
    s.chunkOpening id ++ Change.tagText (s.layerAfter before) ++ s.chunkRemainder later id
  else s.chunk later id

def keptChunks (s : Stylesheet) (before later : List NodeId) : List NodeId → List Text
  | [] => []
  | id :: ids => s.keptChunk before (ids ++ later) id :: s.keptChunks (before ++ [id]) later ids

/-- A rule that names the layer, with the nodes of the run on indented lines of their own. -/
def wrapperText (s : Stylesheet) (layer : Layer) (run : List NodeId) : Text :=
  "@layer ".toList ++ layer.name ++ [' '] ++
    '\x7b' :: (run.flatMap (fun id => (s.content id).writeLine (s.nodeToCss id)) ++ ['\n']) ++
      ['\x7d']

def wrapperChunk (s : Stylesheet) (layer : Layer) (run : List NodeId) : Text :=
  run.head?.elim [] (fun first => (s.raws first).before) ++ s.wrapperText layer run

/-- The chunks of the runs after `before`, each implicitly layered run in a wrapper. -/
def upgradedChunks (s : Stylesheet) (before : List NodeId) : List (List NodeId) → List Text
  | [] => []
  | run :: later =>
    match s.implicitLayer? before run later with
    | some layer => s.wrapperChunk layer run :: s.upgradedChunks (before ++ run) later
    | none => s.keptChunks before later.flatten run ++ s.upgradedChunks (before ++ run) later

theorem keptChunks_of_awaitsTag_eq_false {ids : List NodeId}
    (h : ∀ id ∈ ids, s.awaitsTag id = false) (before later : List NodeId) :
    s.keptChunks before later ids = s.chunks later ids := by
  induction ids generalizing before with
  | nil => rfl
  | cons id ids ih =>
    obtain ⟨hid, hids⟩ := List.forall_mem_cons.mp h
    rw [keptChunks, keptChunk, hid, chunks, ih hids]
    rfl

/-- Where no import awaits a tag and no run is implicitly layered, no chunk changes. -/
theorem upgradedChunks_eq_chunks {before : List NodeId} {rs : List (List NodeId)}
    (htag : ∀ id ∈ rs.flatten, s.awaitsTag id = false) (hruns : s.implicitRuns before rs = []) :
    s.upgradedChunks before rs = s.chunks [] rs.flatten := by
  induction rs generalizing before with
  | nil => rfl
  | cons run later ih =>
    rw [List.flatten_cons, List.forall_mem_append] at htag
    cases hlayer : s.implicitLayer? before run later with
    | some layer =>
      rw [implicitRuns, hlayer] at hruns
      cases hruns
    | none =>
      rw [implicitRuns, hlayer] at hruns
      rw [upgradedChunks, hlayer, List.flatten_cons, chunks_append, List.append_nil,
        ← ih htag.2 hruns, ← keptChunks_of_awaitsTag_eq_false htag.1 before]

section Changes

variable {id : NodeId}

theorem isEmpty_layeredForest_eq (s : Stylesheet) (cs : List Change) :
    (s.layeredForest cs).isEmpty = (cs.flatMap Change.ids).isEmpty := by
  rw [isEmpty_layeredForest, isEmpty_map_trees]

theorem rootText_keep (s : Stylesheet) (id : NodeId) (cs : List Change) :
    s.rootText (s.layeredForest (.keep id :: cs)) =
      s.chunk (cs.flatMap Change.ids) id ++ s.rootText (s.layeredForest cs) :=
  s.rootText_cons (s.isEmpty_layeredForest_eq cs) id

theorem rootText_keeps (s : Stylesheet) (ids : List NodeId) (cs : List Change) :
    s.rootText (s.layeredForest (ids.map .keep ++ cs)) =
      (s.chunks (cs.flatMap Change.ids) ids).flatten ++ s.rootText (s.layeredForest cs) := by
  have hids : ∀ l : List NodeId, (l.map Change.keep ++ cs).flatMap Change.ids =
      l ++ cs.flatMap Change.ids := by
    intro l
    simp [List.flatMap_map, Change.ids]
  induction ids with
  | nil => rfl
  | cons id ids ih =>
    rw [List.map_cons, List.cons_append, rootText_keep, ih, hids, chunks, List.flatten_cons,
      List.append_assoc]

theorem rootText_tag {r : AtRule} (hid : (s.content id).kind = .atRule r)
    (htight : (s.content id).IsTight) (layer : Option Layer) (cs : List Change) :
    s.rootText (s.layeredForest (.tag id layer :: cs)) =
      s.chunkOpening id ++ Change.tagText layer ++ s.chunkRemainder (cs.flatMap Change.ids) id ++
        s.rootText (s.layeredForest cs) := by
  have hbefore : ((s.content id).tagged layer).raws.before = (s.raws id).before := rfl
  rw [rootText, rootText, layeredForest, render, Content.layout_tagged,
    Content.write_tagged hid htight, needsSemicolon_tagged, isEmpty_layeredForest_eq, hbefore,
    chunkOpening, chunkRemainder, separator, innerText, kind]
  simp only [List.append_assoc]

theorem rootText_changeAlone (htight : (s.content id).IsTight) (before : List NodeId)
    (cs : List Change) :
    s.rootText (s.layeredForest (s.changeAlone (s.layerAfter before) id :: cs)) =
      s.keptChunk before (cs.flatMap Change.ids) id ++ s.rootText (s.layeredForest cs) := by
  rw [changeAlone, keptChunk, awaitsTag]
  split
  · rename_i hawaits
    rw [Bool.and_eq_true, decide_eq_true_eq] at hawaits
    obtain ⟨r, hr⟩ := exists_atRule_of_importing hawaits.1
    exact rootText_tag hr htight _ cs
  · exact s.rootText_keep id cs

theorem render_lines_trees (s : Stylesheet) (ids : List NodeId) :
    render .lines ((s.trees ids).map s.content) =
      ids.flatMap fun id => (s.content id).writeLine (s.nodeToCss id) := by
  induction ids with
  | nil => rfl
  | cons id ids ih =>
    rw [trees_cons, Forest.map, render, ih, List.flatMap_cons]
    rfl

theorem write_wrapper (s : Stylesheet) (layer : Layer) (before : Text) (run : List NodeId) :
    (wrapperContent layer before).write (render .lines ((s.trees run).map s.content)) =
      s.wrapperText layer run := by
  rw [write_wrapperContent, render_lines_trees]
  unfold wrapperText
  generalize "@layer ".toList = word
  rfl

theorem rootText_wrap (s : Stylesheet) (layer : Layer) (first : NodeId) (more : List NodeId)
    (cs : List Change) :
    s.rootText (s.layeredForest (.wrap layer first more :: cs)) =
      s.wrapperChunk layer (first :: more) ++ s.rootText (s.layeredForest cs) := by
  have hbefore : (wrapperContent layer (s.raws first).before).raws.before = (s.raws first).before :=
    rfl
  have hlayout : (wrapperContent layer (s.raws first).before).layout = .lines := rfl
  have hneeds : (wrapperContent layer (s.raws first).before).kind.needsSemicolon = false := rfl
  rw [rootText, layeredForest, render, hbefore, hlayout, hneeds, write_wrapper, Bool.false_and,
    if_neg Bool.false_ne_true, List.append_nil]
  rfl

end Changes

theorem rootText_changesFrom {rs : List (List NodeId)} (h : Runs s.isContent rs)
    (htight : ∀ id ∈ rs.flatten, (s.content id).IsTight) (before : List NodeId) :
    s.rootText (s.layeredForest (s.changesFrom (s.layerAfter before) [] rs.flatten)) =
      (s.upgradedChunks before rs).flatten := by
  have hids : ∀ (current : Option Layer) (ids : List NodeId),
      (s.changesFrom current [] ids).flatMap Change.ids = ids := fun current ids =>
    s.flatMap_ids_changesFrom current [] ids fun hne => absurd rfl hne
  induction h generalizing before with
  | nil => rfl
  | @other a rest ha _ ih =>
    rw [List.flatten_cons, List.forall_mem_append, List.forall_mem_singleton] at htight
    rw [List.flatten_cons, List.singleton_append, changesFrom_alone ha,
      rootText_changeAlone htight.1, hids, ih htight.2, upgradedChunks, implicitLayer?_other ha]
    simp [keptChunks]
  | @run l rest hne hall hnext hrest ih =>
    rw [List.flatten_cons, List.forall_mem_append] at htight
    rw [List.flatten_cons, upgradedChunks]
    cases himplicit : s.implicitLayer? before l rest with
    | none =>
      have hawaits : ∀ a ∈ l, s.awaitsTag a = false := fun a ha =>
        awaitsTag_of_isContent (hall a ha)
      rw [changesFrom_of_implicitLayer?_eq_none hall himplicit, rootText_keeps, hids, ih htight.2]
      simp only [keptChunks_of_awaitsTag_eq_false hawaits, List.flatten_append]
    | some layer =>
      rw [changesFrom_of_implicitLayer?_eq_some hall hrest hnext himplicit]
      obtain ⟨first, more, rfl⟩ := List.exists_cons_of_ne_nil hne
      rw [closeRun, List.singleton_append, rootText_wrap, ih htight.2]
      simp only [List.flatten_cons]

theorem IsForest.nodeToCss_wrapper (h : s.IsForest) {k : Nat} {layer : Layer} {run : List NodeId}
    (hk : (s.implicitRuns [] s.contentRuns)[k]? = some (layer, run)) :
    s.layered.nodeToCss ⟨s.size + k⟩ = s.wrapperText layer run := by
  obtain ⟨first, more, rfl, hget⟩ := s.wrapped_of_implicitRuns k hk
  obtain ⟨hchildren, hcontent⟩ := h.layered.wrapper k layer first more hget
  have hwrap := Change.wrap_mem_of_mem_wrapped (List.mem_of_getElem? hget)
  have hrun : ∀ x ∈ first :: more, x.index < s.size ∧ x ≠ root := fun x hx =>
    h.mem_ids_changes x (List.mem_flatMap.mpr ⟨_, hwrap, hx⟩)
  have hspans := h.isForest_layered.spans_below ⟨s.size + k⟩
  rw [hchildren] at hspans
  have hbelow : s.layered.below ⟨s.size + k⟩ = s.trees (first :: more) :=
    hspans.unique (h.layered.spans_trees h hrun)
  rw [nodeToCss, contents, hbelow, hcontent, h.layered.map_trees h hwrap fun x hx => hx]
  exact s.write_wrapper layer _ (first :: more)

end Stylesheet

open Stylesheet

theorem upgrade_eq_chunks {source : Text} {s : Stylesheet} (hs : parse source = .ok s) :
    upgrade source = .ok ((s.upgradedChunks [] s.contentRuns).flatten ++ (s.raws root).after) := by
  have hforest := isForest_of_parse hs
  have hroot : root.index < s.size := by
    obtain ⟨b, -, rfl⟩ := exists_block_of_parse hs
    rw [size_ofBlock]
    exact Nat.succ_pos _
  have htight : ∀ id ∈ s.contentRuns.flatten, (s.content id).IsTight := by
    rw [flatten_contentRuns]
    exact fun id hid => isTight_of_parse hs hid
  have hprinted := rootText_changesFrom s.runs_contentRuns htight []
  rw [flatten_contentRuns] at hprinted
  rw [upgrade_eq_ok_iff]
  refine ⟨s, hs, ?_⟩
  rw [hforest.toCss_layered hroot, ← hprinted]
  rfl

/-- An upgrade prints the chunks of the stylesheet, except that the chunk of an import that awaits a
tag has it after its parameters and that the chunks of an implicitly layered run are replaced by
what stood before the run and its wrapper. -/
theorem upgrade_changes_chunks {source : Text} {s : Stylesheet} (hs : parse source = .ok s) :
    s.toCss = (s.chunks [] (s.children root)).flatten ++ (s.raws root).after ∧
      upgrade source =
        .ok ((s.upgradedChunks [] s.contentRuns).flatten ++ (s.raws root).after) ∧
      s.contentRuns.flatten = s.children root ∧
      (∀ later id, s.chunk later id = s.chunkOpening id ++ s.chunkRemainder later id) ∧
      (∀ k layer run, (s.implicitRuns [] s.contentRuns)[k]? = some (layer, run) →
        s.layered.nodeToCss ⟨s.size + k⟩ = s.wrapperText layer run) ∧
      ((∀ id ∈ s.children root, s.awaitsTag id = false) →
        s.implicitRuns [] s.contentRuns = [] → upgrade source = .ok s.toCss) := by
  have hforest := isForest_of_parse hs
  have hflat := s.flatten_contentRuns
  refine ⟨hforest.toCss_eq, upgrade_eq_chunks hs, hflat, s.chunk_eq,
    fun k layer run => hforest.nodeToCss_wrapper, fun htag hruns => ?_⟩
  rw [← hflat] at htag
  rw [upgrade_eq_chunks hs, hforest.toCss_eq, upgradedChunks_eq_chunks htag hruns, hflat]

theorem upgrade_changes_chunks_around_import :
    ∃ s, parse "@tailwind base; a\x7b\x7d@import z;b:c".toList = .ok s ∧
      s.toCss = "@tailwind base; a\x7b\x7d@import z;b:c".toList ∧
      upgrade "@tailwind base; a\x7b\x7d@import z;b:c".toList = .ok
        "@tailwind base; @layer base \x7b\n  a\x7b\x7d\n\x7d@import z layer(base);b:c".toList := by
  have hread : (parse "@tailwind base; a\x7b\x7d@import z;b:c".toList).map (fun s =>
      ((s.chunks [] (s.children root)).flatten ++ (s.raws root).after,
        (s.upgradedChunks [] s.contentRuns).flatten ++ (s.raws root).after)) =
      .ok ("@tailwind base; a\x7b\x7d@import z;b:c".toList,
        "@tailwind base; @layer base \x7b\n  a\x7b\x7d\n\x7d@import z layer(base);b:c".toList) := by
    decide +kernel
  cases hs : parse "@tailwind base; a\x7b\x7d@import z;b:c".toList with
  | error e =>
    rw [hs] at hread
    cases hread
  | ok s =>
    rw [hs] at hread
    obtain ⟨hchunks, hupgraded⟩ := Prod.mk.inj (Except.ok.inj hread)
    obtain ⟨hprinted, hupgrade, -⟩ := upgrade_changes_chunks hs
    exact ⟨s, rfl, hprinted.trans hchunks, hupgrade.trans (congrArg _ hupgraded)⟩

end UtilityCss
