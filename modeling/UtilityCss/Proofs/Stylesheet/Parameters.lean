import UtilityCss.Proofs.Stylesheet.Shape

/-!
# Edits of parameters

The parameters of an at-rule are printed in one place, and what is printed around them depends on
them only in whether there are any. So an edit that leaves some changes the text there and nowhere
else, at whatever depth the at-rule stands.
-/
namespace UtilityCss

open Text

/-- Behind `mark` and between two fixed texts, `f` writes what it is given, if that is anything. -/
def Text.Frames (mark : Text) (f : Text → Text) : Prop :=
  ∃ before after : Text, ∀ t ≠ [], f t = before ++ mark ++ t ++ after

namespace Text.Frames

variable {mark : Text} {f g : Text → Text}

theorem congr (h : Frames mark f) (hg : ∀ t ≠ [], g t = f t) : Frames mark g := by
  obtain ⟨before, after, hf⟩ := h
  exact ⟨before, after, fun t ht => (hg t ht).trans (hf t ht)⟩

theorem append_left (h : Frames mark f) (a : Text) : Frames mark fun t => a ++ f t := by
  obtain ⟨before, after, hf⟩ := h
  exact ⟨a ++ before, after, fun t ht => by simp [hf t ht]⟩

theorem append_right (h : Frames mark f) (a : Text) : Frames mark fun t => f t ++ a := by
  obtain ⟨before, after, hf⟩ := h
  exact ⟨before, after ++ a, fun t ht => by simp [hf t ht]⟩

end Text.Frames

namespace Content

theorem frames_write {c : Content} (hblock : c.kind.hasBlock = true) {mark : Text}
    {inner : Text → Text} (h : Frames mark inner) : Frames mark fun t => c.write (inner t) := by
  have hbraces : Frames mark fun t => writeBlock c.raws (inner t) := by
    have hopened := (h.append_left (c.raws.between ++ ['\x7b'])).append_right
      ((if c.raws.pretty then ['\n'] else c.raws.after) ++ ['\x7d'])
    exact hopened.congr fun t _ => by simp [writeBlock]
  rcases c with ⟨kind, raws⟩
  cases kind with
  | rule selector => exact hbraces.append_left selector
  | atRule r =>
    have hr : r.hasBlock = true := hblock
    refine (hbraces.append_left
      ('@' :: r.name ++ if r.params = [] then [] else raws.afterName ++ r.params)).congr ?_
    exact fun t _ => by simp [write, hr]
  | root => cases hblock
  | declaration => cases hblock
  | comment => cases hblock

theorem layout_of_not_pretty {c : Content} (h : c.raws.pretty = false) :
    c.layout = .inline c.raws.semicolon := by
  simp [layout, h]

theorem frames_write_params (r : AtRule) (raws : Raws) (inner : Text) :
    Frames ('@' :: r.name ++ raws.afterName) fun t =>
      write ⟨.atRule { r with params := t }, raws⟩ inner := by
  refine ⟨[], if r.hasBlock then writeBlock raws inner else raws.after, fun t ht => ?_⟩
  simp [write, ht]

end Content

theorem Forest.isEmpty_map {α β : Type} (f : α → β) (t : Forest α) :
    (t.map f).isEmpty = t.isEmpty := by
  cases t <;> rfl

section Render

variable {mark : Text} {c : Content} {f : Text → Forest Content} {closing : Bool}

theorem render_cons_of_not_pretty (h : c.raws.pretty = false) (closing : Bool)
    (children rest : Forest Content) :
    render (.inline closing) (.cons c children rest) =
      c.raws.before ++ c.write (render (.inline c.raws.semicolon) children) ++
        (if c.kind.needsSemicolon && (!rest.isEmpty || closing) then [';'] else []) ++
        render (.inline closing) rest := by
  rw [render, Content.layout_of_not_pretty h]

theorem frames_render_params (r : AtRule) {raws : Raws} (h : raws.pretty = false) (closing : Bool)
    (children rest : Forest Content) :
    Frames ('@' :: r.name ++ raws.afterName) fun t =>
      render (.inline closing) (.cons ⟨.atRule { r with params := t }, raws⟩ children rest) := by
  have hnode := Content.frames_write_params r raws (render (.inline raws.semicolon) children)
  have hall := ((hnode.append_left raws.before).append_right
    (if !r.hasBlock && (!rest.isEmpty || closing) then [';'] else [])).append_right
      (render (.inline closing) rest)
  exact hall.congr fun t _ => render_cons_of_not_pretty h closing children rest

theorem frames_render_children (hpretty : c.raws.pretty = false)
    (hblock : c.kind.hasBlock = true)
    (h : Frames mark fun t => render (.inline c.raws.semicolon) (f t)) (closing : Bool)
    (rest : Forest Content) :
    Frames mark fun t => render (.inline closing) (.cons c (f t) rest) := by
  have hnode := Content.frames_write hblock h
  have hall := ((hnode.append_left c.raws.before).append_right
    (if c.kind.needsSemicolon && (!rest.isEmpty || closing) then [';'] else [])).append_right
      (render (.inline closing) rest)
  exact hall.congr fun t _ => render_cons_of_not_pretty hpretty closing (f t) rest

theorem frames_render_rest (h : Frames mark fun t => render (.inline closing) (f t)) {empty : Bool}
    (hempty : ∀ t, (f t).isEmpty = empty) (c : Content) (children : Forest Content) :
    Frames mark fun t => render (.inline closing) (.cons c children (f t)) := by
  have hall := h.append_left (c.raws.before ++ c.write (render c.layout children) ++
    if c.kind.needsSemicolon && (!empty || closing) then [';'] else [])
  exact hall.congr fun t _ => by rw [render, hempty]

end Render

namespace Stylesheet

theorem unfold_congr {s s' : Stylesheet} (h : ∀ j, s'.children j = s.children j) (d : Nat)
    (ids : List NodeId) : s'.unfold d ids = s.unfold d ids := by
  induction d generalizing ids with
  | zero => rfl
  | succ d ih =>
    induction ids with
    | nil => rfl
    | cons id ids ihids => rw [unfold_cons, unfold_cons, h, ih, ihids]

theorem below_modifyContent (s : Stylesheet) (id : NodeId) (f : Content → Content) (j : NodeId) :
    (s.modifyContent id f).below j = s.below j := by
  rw [below, below, size_modifyContent, children_modifyContent]
  exact unfold_congr (children_modifyContent s id · f) _ _

def setParams (s : Stylesheet) (id : NodeId) (params : Text) : Stylesheet :=
  s.modifyContent id fun c => { c with kind := c.kind.mapParams fun _ => params }

section SetParams

variable {s : Stylesheet} {id : NodeId} {r : AtRule}

theorem lt_size_of_kind (h : s.kind id = .atRule r) : id.index < s.size := by
  by_contra hle
  rw [kind, content_of_size_le (Nat.le_of_not_lt hle)] at h
  cases h

theorem content_setParams_of_ne {j : NodeId} (hj : j ≠ id) (params : Text) :
    (s.setParams id params).content j = s.content j := by
  rw [setParams, content_modifyContent, if_neg fun h => hj h.1.symm]

theorem content_setParams_self (h : s.kind id = .atRule r) (params : Text) :
    (s.setParams id params).content id =
      ⟨.atRule { r with params := params }, s.raws id⟩ := by
  have hkind : (s.content id).kind = .atRule r := h
  rw [setParams, content_modifyContent, if_pos ⟨rfl, lt_size_of_kind h⟩, hkind]
  rfl

theorem raws_setParams (id : NodeId) (params : Text) (j : NodeId) :
    (s.setParams id params).raws j = s.raws j := by
  rw [raws, setParams, content_modifyContent]
  split <;> rfl

theorem content_setParams_params (h : s.kind id = .atRule r) (j : NodeId) :
    (s.setParams id r.params).content j = s.content j := by
  by_cases hj : j = id
  · subst hj
    rw [content_setParams_self h, ← h]
    rfl
  · exact content_setParams_of_ne hj _

theorem map_content_setParams_of_notMem {t : Forest NodeId} (h : id ∉ t.preorder)
    (params : Text) : t.map (s.setParams id params).content = t.map s.content :=
  Forest.map_congr fun _ hj => content_setParams_of_ne (ne_of_mem_of_not_mem hj h) params

/-- In trees without pretty nodes, where only blocks have children, the parameters of an at-rule are
framed by what is printed around them. -/
theorem Spans.frames_render {ids : List NodeId} {t : Forest NodeId} (h : s.Spans ids t)
    (hr : s.kind id = .atRule r) (hpretty : ∀ j, (s.raws j).pretty = false)
    (hblock : ∀ j ∈ t.preorder, s.children j ≠ [] → (s.kind j).hasBlock = true)
    (hnodup : t.preorder.Nodup) (hid : id ∈ t.preorder) (closing : Bool) :
    Frames ('@' :: r.name ++ (s.raws id).afterName) fun params =>
      render (.inline closing) (t.map (s.setParams id params).content) := by
  induction h generalizing closing with
  | nil => cases hid
  | @cons a ids below rest hbelow hrest ihbelow ihrest =>
    rw [Forest.preorder, List.forall_mem_cons, List.forall_mem_append] at hblock
    obtain ⟨hblocka, hblockbelow, hblockrest⟩ := hblock
    rw [Forest.preorder, List.nodup_cons, List.mem_append, not_or, List.nodup_append] at hnodup
    obtain ⟨⟨habelow, harest⟩, hnodupbelow, hnoduprest, hdisjoint⟩ := hnodup
    rw [Forest.preorder, List.mem_cons, List.mem_append] at hid
    -- The at-rule is the first root, or it stands below that, or among the other trees.
    rcases hid with rfl | hid | hid
    · refine (frames_render_params r (hpretty id) closing (below.map s.content)
        (rest.map s.content)).congr fun params _ => ?_
      rw [Forest.map, content_setParams_self hr, map_content_setParams_of_notMem habelow,
        map_content_setParams_of_notMem harest]
    · have hchildren : s.children a ≠ [] := by
        intro hnil
        rw [hnil] at hbelow
        cases hbelow
        cases hid
      have hinner := ihbelow hblockbelow hnodupbelow hid (s.raws a).semicolon
      have hidrest : id ∉ rest.preorder := fun hmem => hdisjoint id hid id hmem rfl
      refine (frames_render_children (hpretty a) (hblocka hchildren) hinner closing
        (rest.map s.content)).congr fun params _ => ?_
      rw [Forest.map, content_setParams_of_ne (ne_of_mem_of_not_mem hid habelow).symm,
        map_content_setParams_of_notMem hidrest]
    · have hlater := ihrest hblockrest hnoduprest hid closing
      have hidbelow : id ∉ below.preorder := fun hmem => hdisjoint id hmem id hid rfl
      refine (frames_render_rest hlater (fun params => Forest.isEmpty_map _ rest) (s.content a)
        (below.map s.content)).congr fun params _ => ?_
      rw [Forest.map, content_setParams_of_ne (ne_of_mem_of_not_mem hid harest).symm,
        map_content_setParams_of_notMem hidbelow]

theorem toCss_setParams_params (h : s.kind id = .atRule r) :
    (s.setParams id r.params).toCss = s.toCss := by
  have hcontents : (s.setParams id r.params).contents root = s.contents root := by
    rw [contents, setParams, below_modifyContent]
    exact Forest.map_congr fun j _ => content_setParams_params h j
  rw [toCss, toCss, hcontents, raws_setParams]

end SetParams

theorem mem_below_root_of_kind {source : Text} {s : Stylesheet} (h : parse source = .ok s)
    {id : NodeId} {r : AtRule} (hr : s.kind id = .atRule r) : id ∈ (s.below root).preorder := by
  obtain ⟨b, -, rfl⟩ := exists_block_of_parse h
  rw [below_root_ofBlock]
  rcases ofBlock_cases b id with rfl | hout | hmem
  · rw [kind, content_root_ofBlock] at hr
    cases hr
  · exact absurd (lt_size_of_kind hr) (Nat.not_lt.mpr hout)
  · exact hmem

/-- Whatever parameters an at-rule of a parsed stylesheet is given, the stylesheet prints them
between the same two texts, the first of which ends with the beginning of the at-rule. -/
theorem toCss_setParams {source : Text} {s : Stylesheet} (h : parse source = .ok s) {id : NodeId}
    {r : AtRule} (hr : s.kind id = .atRule r) (hparams : r.params ≠ []) :
    ∃ before after : Text,
      (∀ params ≠ [], (s.setParams id params).toCss = before ++ params ++ after) ∧
        s.toCss = before ++ r.params ++ after ∧
        '@' :: r.name ++ (s.raws id).afterName <:+ before := by
  have hshape := isShaped_of_parse h
  have hforest := isForest_of_parse h
  have hpretty : ∀ j, (s.raws j).pretty = false := fun j => (hshape.tidy j).pretty
  have hblock : ∀ j ∈ (s.below root).preorder, s.children j ≠ [] →
      (s.kind j).hasBlock = true := by
    intro j hj hchildren
    exact (hshape.hasBlock j hchildren).resolve_left
      (ne_of_mem_of_not_mem hj (hforest.root_notMem_below root))
  obtain ⟨before, after, hframe⟩ := ((hforest.spans_below root).frames_render hr hpretty hblock
    (hforest.nodup_descendants root) (mem_below_root_of_kind h hr)
    (s.raws root).semicolon).append_right (s.raws root).after
  have hcss : ∀ params ≠ [], (s.setParams id params).toCss =
      before ++ ('@' :: r.name ++ (s.raws id).afterName) ++ params ++ after := by
    intro params hne
    rw [toCss, contents, raws_setParams, setParams, below_modifyContent]
    exact hframe params hne
  refine ⟨_, after, hcss, ?_, List.suffix_append ..⟩
  rw [← hcss r.params hparams, toCss_setParams_params hr]

/-- An at-rule inside of two others, behind a declaration and with blanks on both sides of its
parameters. -/
theorem toCss_setParams_of_nested :
    ∃ s, parse "@media x\x7b@layer y\x7ba:b;@apply  c d ; \x7d\x7d".toList = .ok s ∧
      s.kind ⟨4⟩ = .atRule ⟨"apply".toList, "c d".toList, false⟩ ∧
      ∃ before after : Text,
        (∀ params ≠ [], (s.setParams ⟨4⟩ params).toCss = before ++ params ++ after) ∧
          s.toCss = before ++ "c d".toList ++ after ∧ "@apply  ".toList <:+ before := by
  have hany : (parse "@media x\x7b@layer y\x7ba:b;@apply  c d ; \x7d\x7d".toList).toOption.any
      (fun s => s.kind ⟨4⟩ = .atRule ⟨"apply".toList, "c d".toList, false⟩ ∧
        (s.raws ⟨4⟩).afterName = "  ".toList) = true := by cbv
  obtain ⟨s, hs, hnode⟩ := exists_parse_of_any hany
  rw [decide_eq_true_eq] at hnode
  obtain ⟨hkind, hname⟩ := hnode
  have hframe := toCss_setParams hs hkind (by decide)
  rw [hname] at hframe
  exact ⟨s, hs, hkind, hframe⟩

end Stylesheet
end UtilityCss
