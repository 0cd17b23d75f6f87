import UtilityCss.Proofs.Stylesheet.Legible

/-!
# Chunks

The text of a stylesheet is made of one chunk for each child of the root, and what stands after the
last one. A chunk ends with a semicolon where one separates the child from the next, so it depends
on the place of the child and not on the child alone.
-/
namespace UtilityCss

open Text

namespace Content

/-- What an at-rule writes up to the end of its parameters; nothing for other kinds. -/
def opening (c : Content) : Text :=
  match c.kind with
  | .atRule r => '@' :: r.name ++ (if r.params = [] then [] else c.raws.afterName ++ r.params)
  | _ => []

def remainder (c : Content) (inner : Text) : Text :=
  match c.kind with
  | .atRule r => if r.hasBlock then writeBlock c.raws inner else c.raws.after
  | _ => c.write inner

theorem write_eq (c : Content) (inner : Text) : c.write inner = c.opening ++ c.remainder inner := by
  obtain ⟨kind, raws⟩ := c
  cases kind <;> rfl

/-- Blanks stand after the name of an at-rule only if parameters follow them. -/
def IsTight (c : Content) : Prop :=
  ∀ r, c.kind = .atRule r → r.params = [] → c.raws.afterName = []

end Content

namespace Stylesheet

variable {s : Stylesheet}

def innerText (s : Stylesheet) (id : NodeId) : Text := render (s.content id).layout (s.contents id)

/-- The semicolon between a child of the root and the children `later`. -/
def separator (s : Stylesheet) (later : List NodeId) (id : NodeId) : Text :=
  if (s.kind id).needsSemicolon && (!later.isEmpty || (s.raws root).semicolon) then [';'] else []

/-- A child of the root with what stands before it and what separates it from those `later`. -/
def chunk (s : Stylesheet) (later : List NodeId) (id : NodeId) : Text :=
  (s.raws id).before ++ s.nodeToCss id ++ s.separator later id

def chunks (s : Stylesheet) (later : List NodeId) : List NodeId → List Text
  | [] => []
  | id :: ids => s.chunk (ids ++ later) id :: s.chunks later ids

def chunkOpening (s : Stylesheet) (id : NodeId) : Text :=
  (s.raws id).before ++ (s.content id).opening

def chunkRemainder (s : Stylesheet) (later : List NodeId) (id : NodeId) : Text :=
  (s.content id).remainder (s.innerText id) ++ s.separator later id

theorem chunk_eq (s : Stylesheet) (later : List NodeId) (id : NodeId) :
    s.chunk later id = s.chunkOpening id ++ s.chunkRemainder later id := by
  have hwrite : s.nodeToCss id =
      (s.content id).opening ++ (s.content id).remainder (s.innerText id) := Content.write_eq _ _
  rw [chunk, chunkOpening, chunkRemainder, hwrite]
  simp only [List.append_assoc]

theorem chunks_append (s : Stylesheet) (later a b : List NodeId) :
    s.chunks later (a ++ b) = s.chunks (b ++ later) a ++ s.chunks later b := by
  induction a with
  | nil => rfl
  | cons id a ih => rw [List.cons_append, chunks, chunks, ih, List.append_assoc, List.cons_append]

def rootText (s : Stylesheet) (f : Forest Content) : Text :=
  render (.inline (s.raws root).semicolon) f

theorem rootText_cons (s : Stylesheet) {later : List NodeId} {f : Forest Content}
    (hf : f.isEmpty = later.isEmpty) (id : NodeId) :
    s.rootText (.cons (s.content id) (s.contents id) f) = s.chunk later id ++ s.rootText f := by
  rw [rootText, render, hf]
  rfl

theorem rootText_trees (s : Stylesheet) (ids : List NodeId) :
    s.rootText ((s.trees ids).map s.content) = (s.chunks [] ids).flatten := by
  induction ids with
  | nil => rfl
  | cons id ids ih =>
    rw [trees_cons, Forest.map, chunks, List.flatten_cons, List.append_nil, ← ih]
    exact s.rootText_cons (s.isEmpty_map_trees ids) id

theorem IsForest.toCss_eq (h : s.IsForest) :
    s.toCss = (s.chunks [] (s.children root)).flatten ++ (s.raws root).after := by
  rw [toCss, contents, h.below_eq_trees, ← rootText_trees, rootText]

end Stylesheet

namespace Statement

theorem isTight_atRule (raws : Raws) {raws' : Raws} {t : Text}
    (h : trimRight ('@' :: t) = '@' :: t) (hasBlock : Bool)
    (hname : raws'.afterName = leadingBlanks (t.dropWhile (!endsName ·))) :
    Content.IsTight ⟨(atRule raws hasBlock t).kind, raws'⟩ := by
  rintro r hr hparams
  cases hr
  have hblank := trimLeft_eq_nil_iff.mp hparams
  have happ : t.takeWhile (!endsName ·) ++ t.dropWhile (!endsName ·) = t :=
    List.takeWhile_append_dropWhile
  rw [← happ, ← List.cons_append] at h
  rw [hname, eq_nil_of_trimRight_append h hblank]
  rfl

theorem isTight_of_body? {raws : Raws} {t : Text} {c : Content} (h : body? raws t = some c)
    (ht : trimRight t = t) : c.IsTight := by
  unfold body? declaration? at h
  split at h
  · cases h
    exact isTight_atRule raws ht false rfl
  · split at h
    · cases h
    · split at h <;> cases h
      rintro r hr
      cases hr

theorem isTight_prelude (before t : Text) (b : Block) :
    ((prelude before t).enclosing b).IsTight := by
  have ht := trimRight_trimRight t
  unfold prelude Content.enclosing
  split
  · rename_i rest heq
    rw [heq] at ht
    exact isTight_atRule _ ht true rfl
  · rintro r hr
    cases hr

end Statement

theorem Block.Legible.isTight {stop : Text} {b : Block} (h : b.Legible stop) :
    ∀ c ∈ b.forest.roots, c.IsTight := by
  induction h with
  | blank => exact fun c hc => absurd hc List.not_mem_nil
  | comment _ _ _ ih =>
    refine List.forall_mem_cons.mpr ⟨fun r hr => ?_, ih⟩
    cases hr
  | statement _ _ hc _ ih =>
    exact List.forall_mem_cons.mpr ⟨Statement.isTight_of_body? hc (trimRight_trimRight _), ih⟩
  | last _ _ _ _ hc =>
    refine List.forall_mem_cons.mpr ⟨Statement.isTight_of_body? hc (trimRight_trimRight _), ?_⟩
    exact fun c hc => absurd hc List.not_mem_nil
  | opening _ _ _ _ _ ih => exact List.forall_mem_cons.mpr ⟨Statement.isTight_prelude _ _ _, ih⟩

namespace Stylesheet

theorem isTight_of_parse {source : Text} {s : Stylesheet} (h : parse source = .ok s) {id : NodeId}
    (hid : id ∈ s.children root) : (s.content id).IsTight := by
  obtain ⟨b, hb, rfl⟩ := exists_block_of_parse h
  apply (Nesting.legible_of_ofText hb).isTight
  rw [← map_content_children_root]
  exact List.mem_map_of_mem hid

end Stylesheet
end UtilityCss
