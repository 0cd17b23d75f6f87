import UtilityCss.Proofs.Upgrade.Explicit
import UtilityCss.Proofs.Upgrade.Reprinting
import UtilityCss.Proofs.Upgrade.Tagging

/-!
# Reading what layering printed

The text of a layered stylesheet is the text of a legible block. Its nodes are, one for each change,
a node as it was, a tagged import or a rule that names a layer.
-/
namespace UtilityCss

open Text Event

namespace Block

theorem LegibleTree.before {c : Content} {t : Forest Content} (h : LegibleTree c t) :
    c.raws.before.all isAsciiSpace = true := by
  cases h with
  | comment hb => exact hb
  | statement hb _ hc =>
    rw [Statement.before_of_body? hc]
    exact hb
  | @opening before text inner hb =>
    have hbefore : ((Statement.prelude before text).enclosing inner).raws.before = before :=
      Statement.before_prelude before text
    rw [hbefore]
    exact hb

theorem text_push_reread {b₀ b₁ : Block} {F t t' u : Forest Content} {c c' d : Content}
    {terminated : Bool} (htext : b₁.text = render (.inline b₀.semicolon) F ++ b₀.after)
    (hempty : F.isEmpty = b₀.forest.isEmpty) (hbefore : c'.raws.before = c.raws.before)
    (hneeds : c'.kind.needsSemicolon = c.kind.needsSemicolon)
    (hwrite : c'.write (render c'.layout t') = c.write (render c.layout t))
    (hlast : c.kind.needsSemicolon = true → b₀.forest.isEmpty = true → terminated = true) :
    (b₁.push c' t' c'.kind.needsSemicolon).text =
      render (.inline (b₀.push d u terminated).semicolon) (.cons c t F) ++ b₀.after := by
  rw [text_push_tree, hbefore, hneeds, hwrite, htext, render, hempty]
  cases hnil : b₀.forest.isEmpty with
  | true =>
    rw [hnil] at hempty
    cases F with
    | cons => cases hempty
    | nil =>
      cases hsemi : c.kind.needsSemicolon with
      | true => simp [push, hnil, hlast hsemi hnil, render]
      | false => simp [render]
  | false => simp [push, hnil]

end Block

namespace Stylesheet

variable {s : Stylesheet}

theorem exists_atRule_of_importing {id : NodeId} (hid : s.role id = .importing) :
    ∃ r, (s.content id).kind = .atRule r := by
  change Role.ofKind (s.content id).kind = .importing at hid
  cases hkind : (s.content id).kind with
  | atRule r => exact ⟨r, rfl⟩
  | _ =>
    rw [hkind] at hid
    cases hid

/-- Only imports are tagged, and no wrapper comes last. -/
inductive WellPlaced (s : Stylesheet) : List Change → Prop
  | nil : WellPlaced s []
  | keep {id : NodeId} {cs : List Change} (h : WellPlaced s cs) : WellPlaced s (.keep id :: cs)
  | tag {id : NodeId} {layer : Option Layer} {cs : List Change} (hid : s.role id = .importing)
      (h : WellPlaced s cs) : WellPlaced s (.tag id layer :: cs)
  | wrap {layer : Layer} {first : NodeId} {more : List NodeId} {cs : List Change} (hne : cs ≠ [])
      (h : WellPlaced s cs) : WellPlaced s (.wrap layer first more :: cs)

theorem WellPlaced.keeps (run : List NodeId) : s.WellPlaced (run.map .keep) := by
  induction run with
  | nil => exact .nil
  | cons id run ih => exact .keep ih

theorem WellPlaced.changeAlone (current : Option Layer) (id : NodeId) {cs : List Change}
    (h : s.WellPlaced cs) : s.WellPlaced (s.changeAlone current id :: cs) := by
  unfold Stylesheet.changeAlone
  split_ifs with hawaits
  · rw [Bool.and_eq_true, decide_eq_true_eq] at hawaits
    exact .tag hawaits.1 h
  · exact .keep h

theorem wellPlaced_changesFrom (s : Stylesheet) (current : Option Layer) (run ids : List NodeId) :
    s.WellPlaced (s.changesFrom current run ids) := by
  induction ids generalizing current run with
  | nil => exact .keeps run
  | cons id ids ih =>
    cases hid : s.isContent id with
    | true =>
      have hrole : s.role id = .content := isContent_iff.mp hid
      cases current with
      | none =>
        rw [changesFrom]
        · exact .keep (ih none [])
        · exact hrole
      | some layer =>
        rw [changesFrom]
        · exact ih (some layer) (run ++ [id])
        · exact hrole
    | false =>
      rw [changesFrom_other hid]
      have halone := (ih ((s.role id).layerAfter current) []).changeAlone current id
      cases current with
      | none => exact halone
      | some layer =>
        cases run with
        | nil => exact halone
        | cons first more => exact .wrap (List.cons_ne_nil _ _) halone

theorem wellPlaced_changes (s : Stylesheet) : s.WellPlaced s.changes :=
  s.wellPlaced_changesFrom none [] (s.children root)

theorem isEmpty_layeredForest (s : Stylesheet) (cs : List Change) :
    (s.layeredForest cs).isEmpty = ((s.trees (cs.flatMap Change.ids)).map s.content).isEmpty := by
  cases cs with
  | nil => rfl
  | cons c cs => cases c <;> rfl

def wrappedRuns (s : Stylesheet) (cs : List Change) : List (Forest Content) :=
  (Change.wrapped cs).map fun w => (s.trees (w.2.1 :: w.2.2)).map s.content

theorem exists_of_mem_wrappedRuns {cs : List Change} {f : Forest Content}
    (h : f ∈ s.wrappedRuns cs) :
    ∃ ids, f = (s.trees ids).map s.content ∧ ∀ id ∈ ids, id ∈ cs.flatMap Change.ids := by
  induction cs with
  | nil => cases h
  | cons c cs ih =>
    have hrest : f ∈ s.wrappedRuns cs → ∃ ids, f = (s.trees ids).map s.content ∧
        ∀ id ∈ ids, id ∈ (c :: cs).flatMap Change.ids := by
      intro hf
      obtain ⟨ids, rfl, hids⟩ := ih hf
      exact ⟨ids, rfl, fun id hid => List.mem_append_right _ (hids id hid)⟩
    cases c with
    | keep => exact hrest h
    | tag => exact hrest h
    | wrap layer first more =>
      rcases List.mem_cons.mp h with rfl | h
      · exact ⟨first :: more, rfl, fun id hid => List.mem_append_left _ hid⟩
      · exact hrest h

/-- Where something follows, a run of trees can be taken off the front of a legible block. -/
theorem exists_rest_of_run {stop : Text} {ids later : List NodeId} (hlater : later ≠ [])
    {b : Block} (hb : b.Legible stop)
    (hforest : b.forest = (s.trees (ids ++ later)).map s.content) :
    ((s.trees ids).map s.content).OfLegible ∧ ∃ b' : Block, b'.Legible stop ∧
      b'.forest = (s.trees later).map s.content ∧ b'.after = b.after ∧
      b'.semicolon = b.semicolon := by
  induction ids generalizing b with
  | nil => exact ⟨trivial, b, hb, hforest, rfl, rfl⟩
  | cons id ids ih =>
    rw [List.cons_append, trees_cons, Forest.map] at hforest
    have hne : ((s.trees (ids ++ later)).map s.content).isEmpty = false := by
      rw [isEmpty_map_trees]
      simp [hlater]
    rcases hb.of_cons hforest with ⟨htree, b', hb', hforest', rfl⟩ | hlast
    · obtain ⟨htrees, b'', hb'', hforest'', hafter, hsemi⟩ := ih hb' hforest'
      rw [← hforest'] at hne
      exact ⟨⟨htree, htrees⟩, b'', hb'', hforest'', hafter, by simp [hsemi, Block.push, hne]⟩
    · rw [hlast.eq_nil hforest] at hne
      cases hne

theorem asciiBlanks_of_mem_trees {ids : List NodeId} {closing : Bool}
    (h : AsciiBlanks (render (.inline closing) ((s.trees ids).map s.content))) {id : NodeId}
    (hid : id ∈ ids) :
    AsciiBlanks ((s.content id).write (render (s.content id).layout (s.contents id))) := by
  induction ids with
  | nil => cases hid
  | cons first ids ih =>
    rw [trees_cons, Forest.map, render] at h
    simp only [asciiBlanks_append] at h
    obtain ⟨⟨⟨-, hwrite⟩, -⟩, hrest⟩ := h
    rcases List.mem_cons.mp hid with rfl | hid
    · exact hwrite
    · exact ih hrest hid

theorem legibleTrees_of_ofLegible {ids : List NodeId}
    (h : ((s.trees ids).map s.content).OfLegible)
    (hblanks : ∀ id ∈ ids,
      AsciiBlanks ((s.content id).write (render (s.content id).layout (s.contents id)))) :
    ((s.trees ids).map s.content).LegibleTrees := by
  induction ids with
  | nil => trivial
  | cons id ids ih =>
    rw [List.forall_mem_cons] at hblanks
    exact ⟨h.1, hblanks.1, ih h.2 hblanks.2⟩

theorem endsAt_layer (layer : Layer) :
    EndsAt ("@layer ".toList ++ layer.name ++ [' ']) ['\x7b'] where
  begins := by cases layer <;> decide
  scan := by cases layer <;> decide

theorem kind_layer (layer : Layer) (before before' : Text) :
    (Statement.prelude before ("@layer ".toList ++ layer.name ++ [' '])).kind =
      (wrapperContent layer before').kind := by
  cases layer <;> rfl

theorem write_wrapperContent (layer : Layer) (before inner : Text) :
    (wrapperContent layer before).write inner =
      "@layer ".toList ++ layer.name ++ [' '] ++ '\x7b' :: (inner ++ ['\n']) ++ ['\x7d'] := by
  have hname : layer.name ≠ [] := by cases layer <;> decide
  have hword : "@layer ".toList = '@' :: ("layer".toList ++ [' ']) := by decide
  have hwrite : (wrapperContent layer before).write inner =
      '@' :: "layer".toList ++ (if layer.name = [] then [] else [' '] ++ layer.name) ++
        ([' '] ++ '\x7b' :: inner ++ ['\n'] ++ ['\x7d']) := rfl
  rw [hwrite, hword, if_neg hname]
  generalize "layer".toList = word
  simp

theorem render_wrapper (layer : Layer) (before : Text) (f rest : Forest Content) (closing : Bool) :
    render (.inline closing) (.cons (wrapperContent layer before) f rest) =
      before ++ ("@layer ".toList ++ layer.name ++ [' ']) ++
        '\x7b' :: (render .lines f ++ ['\n']) ++ '\x7d' :: render (.inline closing) rest := by
  have hlayout : (wrapperContent layer before).layout = .lines := rfl
  have hbefore : (wrapperContent layer before).raws.before = before := rfl
  have hneeds : (wrapperContent layer before).kind.needsSemicolon = false := rfl
  rw [render, hlayout, hbefore, hneeds, write_wrapperContent]
  simp

theorem eq_nil_of_trees {cs : List Change}
    (h : (s.trees (cs.flatMap Change.ids)).map s.content = .nil) : cs = [] := by
  cases cs with
  | nil => rfl
  | cons c cs => cases c <;> cases h

theorem needsSemicolon_tagged (c : Content) (layer : Option Layer) :
    (c.tagged layer).kind.needsSemicolon = c.kind.needsSemicolon := by
  rcases c with ⟨kind, raws⟩
  cases kind <;> rfl

theorem exists_reread_last {id : NodeId} {b : Block} (hid : s.role id = .importing)
    (hb : Block.CutShort [] (s.content id) b) (layer : Option Layer) :
    ∃ (b' : Block) (c' : Content), b'.Legible [] ∧
      b'.text = render (.inline b.semicolon) (s.layeredForest [.tag id layer]) ++ b.after ∧
      b'.forest = .cons c' .nil .nil ∧
      (Role.ofKind c'.kind = .importing ∧ Change.isUntagged c'.kind = false) ∧
      ((s.content id).tagged layer).kind.Respaced c'.kind := by
  obtain @⟨before, text, hbefore, ht, -, hafter, hc⟩ := hb
  obtain ⟨rest, hat, -⟩ := Statement.exists_rest_of_body? hc hid
  obtain ⟨c', hc', hwrite, hrole, hkind⟩ := Block.exists_tagged_last hc hid layer
    (render ((s.content id).tagged layer).layout (s.contents id))
  have htrailing := Change.trailingBlanks_tagStatement layer text
  have hraws : ((s.content id).tagged layer).raws.before = before := Statement.before_of_body? hc
  refine ⟨_, c', .last hbefore (Change.endsAt_tagStatement ht hat layer) rfl ?_ hc', ?_, rfl,
    hrole, hkind⟩
  · rwa [htrailing]
  · have hsemi : ((Block.blank text.trailingBlanks).push (s.content id) .nil false).semicolon =
        false := rfl
    rw [Block.text_push_last hc', htrailing, hwrite, layeredForest, layeredForest, render, render,
      hraws, hsemi]
    simp [Forest.isEmpty]
    rfl

/-- The trees that are read again, one for each change. `W` tells how those inside a layer come from
the wrapped ones. -/
inductive RereadAs (s : Stylesheet) (W : Forest Content → Forest Content → Prop) :
    List Change → Forest Content → Prop
  | nil : RereadAs s W [] .nil
  | keep {id : NodeId} {cs : List Change} {f : Forest Content} (h : RereadAs s W cs f) :
      RereadAs s W (.keep id :: cs) (.cons (s.content id) (s.contents id) f)
  | tag {id : NodeId} {layer : Option Layer} {cs : List Change} {c : Content} {f : Forest Content}
      (hid : s.role id = .importing)
      (hrole : Role.ofKind c.kind = .importing ∧ Change.isUntagged c.kind = false)
      (hkind : ((s.content id).tagged layer).kind.Respaced c.kind) (h : RereadAs s W cs f) :
      RereadAs s W (.tag id layer :: cs) (.cons c (s.contents id) f)
  | wrap {layer : Layer} {first : NodeId} {more : List NodeId} {cs : List Change} {c : Content}
      {t f : Forest Content} (hkind : c.kind = (wrapperContent layer (s.raws first).before).kind)
      (hwrapped : W ((s.trees (first :: more)).map s.content) t) (h : RereadAs s W cs f) :
      RereadAs s W (.wrap layer first more :: cs) (.cons c t f)

/-- What layering prints is the text of a legible block, if the wrapped runs are read again on lines
of their own. -/
theorem exists_rereadAs {W : Forest Content → Forest Content → Prop} {cs : List Change}
    (hcs : s.WellPlaced cs)
    (hruns : ∀ f ∈ s.wrappedRuns cs, f.OfLegible → ∃ inner : Block, inner.Legible ['\x7d'] ∧
      inner.text = render .lines f ++ ['\n'] ∧ W f inner.forest)
    {b : Block} (hb : b.Legible [])
    (hforest : b.forest = (s.trees (cs.flatMap Change.ids)).map s.content) :
    ∃ b' : Block, b'.Legible [] ∧
      b'.text = render (.inline b.semicolon) (s.layeredForest cs) ++ b.after ∧
      s.RereadAs W cs b'.forest := by
  induction hcs generalizing b with
  | nil =>
    refine ⟨b, hb, ?_, ?_⟩
    · rw [Block.text, hforest]
      rfl
    · rw [hforest]
      exact .nil
  | @keep id cs _ ih =>
    have hforest' : b.forest =
        .cons (s.content id) (s.contents id) ((s.trees (cs.flatMap Change.ids)).map s.content) :=
      hforest
    rcases hb.of_cons hforest' with ⟨htree, b₀, hb₀, hrest, rfl⟩ | hlast
    · obtain ⟨b₁, hb₁, htext, hread⟩ := ih hruns hb₀ hrest
      have hempty := s.isEmpty_layeredForest cs
      rw [← hrest] at hempty
      refine ⟨_, hb₁.push_tree htree, ?_, .keep hread⟩
      exact Block.text_push_reread htext hempty rfl rfl rfl fun h _ => h
    · obtain rfl := eq_nil_of_trees (hlast.eq_nil hforest')
      refine ⟨b, hb, ?_, ?_⟩
      · rw [Block.text, hforest']
        rfl
      · rw [hforest']
        exact .keep .nil
  | @tag id layer cs hid _ ih =>
    have hforest' : b.forest =
        .cons (s.content id) (s.contents id) ((s.trees (cs.flatMap Change.ids)).map s.content) :=
      hforest
    rcases hb.of_cons hforest' with ⟨htree, b₀, hb₀, hrest, rfl⟩ | hlast
    · obtain ⟨b₁, hb₁, htext, hread⟩ := ih hruns hb₀ hrest
      obtain ⟨c', htree', hbefore, hneeds, hwrite, hrole, hkind⟩ := htree.exists_tagged hid layer
      have hempty := s.isEmpty_layeredForest cs
      rw [← hrest] at hempty
      refine ⟨_, hb₁.push_tree htree', ?_, .tag hid hrole hkind hread⟩
      refine Block.text_push_reread htext hempty hbefore hneeds hwrite fun hsemi _ => ?_
      rwa [needsSemicolon_tagged] at hsemi
    · obtain rfl := eq_nil_of_trees (hlast.eq_nil hforest')
      obtain ⟨b', c', hb', htext, hread, hrole, hkind⟩ := exists_reread_last hid hlast layer
      refine ⟨b', hb', htext, ?_⟩
      have hnil := hlast.children_eq_nil hforest'
      rw [hread, ← hnil]
      exact .tag hid hrole hkind (hnil ▸ .nil)
  | @wrap layer first more cs hne _ ih =>
    have hlater : cs.flatMap Change.ids ≠ [] := by
      intro hnil
      exact hne (eq_nil_of_trees (s := s) (by rw [hnil]; rfl))
    obtain ⟨hrun, hruns'⟩ := List.forall_mem_cons.mp hruns
    obtain ⟨htrees, b₀, hb₀, hrest, hafter, hsemi⟩ := exists_rest_of_run hlater hb hforest
    obtain ⟨b₁, hb₁, htext, hread⟩ := ih hruns' hb₀ hrest
    obtain ⟨inner, hinner, hlines, hwrapped⟩ := hrun htrees
    have hbefore : (s.raws first).before.all isAsciiSpace = true := htrees.1.before
    refine ⟨_, .opening hbefore (endsAt_layer layer) hinner hb₁, ?_,
      .wrap (kind_layer layer _ _) hwrapped hread⟩
    rw [Block.text_push_opening, hlines, htext, hsemi, hafter, layeredForest, render_wrapper]
    simp only [List.append_assoc, List.cons_append]

theorem RereadAs.readsAs {W : Forest Content → Forest Content → Prop} {cs : List Change}
    {f : Forest Content} (h : s.RereadAs W cs f) :
    List.Forall₂ s.ReadsAs cs (f.roots.map Content.kind) := by
  induction h with
  | nil => exact .nil
  | keep _ ih => exact .cons rfl ih
  | tag _ hrole _ _ ih => exact .cons hrole ih
  | @wrap layer _ _ _ _ _ _ hkind _ _ ih =>
    refine .cons ?_ ih
    rw [ReadsAs, hkind]
    cases layer <;> rfl

/-- Without blanks other than ASCII spaces, what layering prints is the text of a legible block,
with a node for each change. -/
theorem exists_reread {cs : List Change} (hcs : s.WellPlaced cs) {b : Block}
    (hb : b.Legible []) (hblanks : AsciiBlanks b.text)
    (hforest : b.forest = (s.trees (cs.flatMap Change.ids)).map s.content) :
    ∃ b' : Block, b'.Legible [] ∧
      b'.text = render (.inline b.semicolon) (s.layeredForest cs) ++ b.after ∧
      List.Forall₂ s.ReadsAs cs (b'.forest.roots.map Content.kind) := by
  rw [Block.text, hforest, asciiBlanks_append] at hblanks
  have hruns : ∀ f ∈ s.wrappedRuns cs, f.OfLegible → ∃ inner : Block, inner.Legible ['\x7d'] ∧
      inner.text = render .lines f ++ ['\n'] ∧ True := by
    intro f hf htrees
    obtain ⟨ids, rfl, hids⟩ := exists_of_mem_wrappedRuns hf
    have hlegible := legibleTrees_of_ofLegible htrees fun id hid =>
      asciiBlanks_of_mem_trees hblanks.1 (hids id hid)
    obtain ⟨inner, hinner, hlines⟩ := Outline.exists_legible_lines hlegible
    exact ⟨inner, hinner, hlines, trivial⟩
  obtain ⟨b', hb', htext, hread⟩ :=
    exists_rereadAs (W := fun _ _ => True) hcs hruns hb hforest
  exact ⟨b', hb', htext, hread.readsAs⟩

end Stylesheet
end UtilityCss
