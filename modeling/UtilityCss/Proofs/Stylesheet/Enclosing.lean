import UtilityCss.Proofs.Stylesheet.Concatenation
import UtilityCss.Proofs.Stylesheet.Shape

/-!
# Texts in braces

The inside of a rule is read as a stylesheet of its own is read, if no semicolon is missing at its
end: the nodes are the same but for their numbers, and what the root keeps of the end of the text
the rule keeps of the end of its block. So it is for rules inside of rules, however deep.
-/
namespace UtilityCss

open Text Event

def Text.enclosed (name t : Text) : Text := name ++ '\x7b' :: t ++ ['\x7d']

section Letters

variable {c : Char} {name : Text}

theorem Text.ne_of_isAlpha {d : Char} (hc : c.isAlpha = true) (hd : d.isAlpha = false) : c ≠ d := by
  rintro rfl
  rw [hc] at hd
  cases hd

theorem Text.isBlank_of_isAlpha (hc : c.isAlpha = true) : isBlank c = false := by
  simp only [Char.isAlpha, Char.isUpper, Char.isLower, Bool.or_eq_true, Bool.and_eq_true,
    decide_eq_true_eq, ge_iff_le, UInt32.le_iff_toNat_le] at hc
  change (65 ≤ c.toNat ∧ c.toNat ≤ 90) ∨ (97 ≤ c.toNat ∧ c.toNat ≤ 122) at hc
  simp only [isBlank, Bool.or_eq_false_iff, beq_eq_false_iff_ne, Bool.and_eq_false_iff,
    decide_eq_false_iff_not]
  omega

theorem Text.isAsciiSpace_of_isAlpha (hc : c.isAlpha = true) : isAsciiSpace c = false := by
  by_contra hspace
  rw [Bool.not_eq_false] at hspace
  have hblank := isBlank_of_isAsciiSpace hspace
  rw [isBlank_of_isAlpha hc] at hblank
  cases hblank

theorem Scan.State.step_of_isAlpha (hc : c.isAlpha = true) : State.start.step c = .start := by
  have hquote : isQuote c = false := by
    simp [isQuote, ne_of_isAlpha hc (d := '\x22') rfl, ne_of_isAlpha hc (d := '\x27') rfl]
  simp [State.start, State.step, State.stepCode, hquote,
    ne_of_isAlpha hc (d := '\\') rfl, ne_of_isAlpha hc (d := '/') rfl,
    ne_of_isAlpha hc (d := '(') rfl, ne_of_isAlpha hc (d := '[') rfl,
    ne_of_isAlpha hc (d := ')') rfl, ne_of_isAlpha hc (d := ']') rfl]

theorem Scan.isTerminator_of_isAlpha (hc : c.isAlpha = true) : isTerminator c = false := by
  simp [isTerminator, ne_of_isAlpha hc (d := ';') rfl, ne_of_isAlpha hc (d := '\x7b') rfl,
    ne_of_isAlpha hc (d := '\x7d') rfl]

theorem Scan.State.run_of_isAlpha (h : name.all Char.isAlpha = true) :
    State.start.run name = .start := by
  induction name with
  | nil => rfl
  | cons c name ih =>
    rw [List.all_cons, Bool.and_eq_true] at h
    rw [run_cons, step_of_isAlpha h.1, ih h.2]

theorem Event.endsAt_of_isAlpha (hne : name ≠ []) (h : name.all Char.isAlpha = true)
    (rest : Text) : EndsAt name ('\x7b' :: rest) where
  begins := by
    obtain ⟨c, cs, rfl⟩ := List.exists_cons_of_ne_nil hne
    rw [List.all_cons, Bool.and_eq_true] at h
    refine beginsStatement_of_ne (isAsciiSpace_of_isAlpha h.1) (ne_of_isAlpha h.1 rfl)
      (ne_of_isAlpha h.1 rfl) fun hslash => ?_
    exact absurd hslash (ne_of_isAlpha h.1 rfl)
  scan := by
    have hpasses : Scan.State.start.passes name = true := by
      apply Scan.State.passes_of_forall
      rw [List.all_eq_true] at h ⊢
      exact fun c hc => by rw [Scan.isTerminator_of_isAlpha (h c hc), Bool.not_false]
    refine Scan.statementFrom_of_stopsAt hpasses ?_ _ rest
    rw [Scan.State.run_of_isAlpha h]
    rfl

theorem Statement.prelude_of_isAlpha (hne : name ≠ []) (h : name.all Char.isAlpha = true) :
    prelude [] name = ⟨.rule name, {}⟩ := by
  have htrim : name.trimRight = name := by
    rw [← List.dropLast_append_getLast hne]
    exact trimRight_append_singleton
      (isBlank_of_isAlpha (List.all_eq_true.mp h _ (List.getLast_mem hne))) _
  unfold prelude
  rw [htrim, trailingBlanks_of_trimRight_eq htrim]
  split
  · cases h
  · rfl

end Letters

theorem Forest.append_nil {α : Type} (t : Forest α) : t.append .nil = t := by
  induction t with
  | nil => rfl
  | cons a children rest _ ihr => rw [append, ihr]

namespace Block

theorem Legible.semicolon_of_isEmpty {stop : Text} {b : Block} (h : b.Legible stop)
    (hempty : b.forest.isEmpty = true) : b.semicolon = false := by
  cases h with
  | blank => rfl
  | comment => cases hempty
  | statement => cases hempty
  | last => cases hempty
  | opening => cases hempty

theorem Legible.append_blank_after {stop : Text} {b : Block} (h : b.Legible stop) :
    b.append (Block.blank b.after) = b := by
  rw [Block.append, Block.blank, Forest.append_nil]
  cases hempty : b.forest.isEmpty with
  | true =>
    have hsemicolon := h.semicolon_of_isEmpty hempty
    rcases b with ⟨forest, after, semicolon⟩
    simp only at hsemicolon
    simp [hsemicolon]
  | false => simp [Forest.isEmpty]

def enclosed (name : Text) (b : Block) : Block :=
  (blank []).push (Content.enclosing ⟨.rule name, {}⟩ b) b.forest false

/-- In front of a closing brace a complete block is read as it is at the end. -/
theorem ofText_append_brace {t : Text} {b : Block} (h : Block.ofText t = .ok b)
    (hb : b.IsComplete) (rest : Text) :
    Nesting.ofText (t ++ '\x7d' :: rest) = Nesting.endWith b ('\x7d' :: rest) := by
  have hlegible := Nesting.legible_of_ofText h
  have hreads := Nesting.reads_ofText t
  rw [Nesting.ofText_of_block h] at hreads
  rw [hreads.ofText_append rfl hb, Nesting.ofText_closing hlegible.all_after]
  change Nesting.mk ((b.append (blank b.after), _) :: _) _ = _
  rw [hlegible.append_blank_after]
  rfl

theorem ofText_enclosed {t name : Text} {b : Block} (h : Block.ofText t = .ok b)
    (hb : b.IsComplete) (hne : name ≠ []) (hname : name.all Char.isAlpha = true) :
    Block.ofText (Text.enclosed name t) = .ok (b.enclosed name) := by
  have hnothing : ([] : Text).all isAsciiSpace = true := rfl
  have hread := Nesting.ofText_opening hnothing (endsAt_of_isAlpha hne hname [])
    (ofText_append_brace h hb [])
  rw [Statement.prelude_of_isAlpha hne hname, Nesting.ofText_of_isAsciiSpace hnothing] at hread
  change (Nesting.ofText (Text.enclosed name t)).toBlock = _
  rw [List.nil_append] at hread
  rw [Text.enclosed, hread]
  rfl

end Block

theorem Forest.eq_of_map_eq {α β : Type} {f g : α → β} {t : Forest α} (h : t.map f = t.map g) :
    ∀ a ∈ t.preorder, f a = g a := by
  have hpreorder := congrArg Forest.preorder h
  rw [preorder_map, preorder_map] at hpreorder
  exact List.map_inj_left.mp hpreorder

theorem Forest.map_map {α β γ : Type} (f : α → β) (g : β → γ) (t : Forest α) :
    (t.map f).map g = t.map (g ∘ f) := by
  induction t with
  | nil => rfl
  | cons a children rest ihc ihr =>
    rw [map, map, map, ihc, ihr]
    rfl

theorem Forest.height_map {α β : Type} (f : α → β) (t : Forest α) :
    (t.map f).height = t.height := by
  induction t with
  | nil => rfl
  | cons a children rest ihc ihr => rw [map, height, height, ihc, ihr]

namespace Stylesheet

theorem Spans.children_of_map {s u : Stylesheet} {f : NodeId → NodeId} {ids ids' : List NodeId}
    {t : Forest NodeId} (h : s.Spans ids t) (h' : u.Spans ids' (t.map f)) :
    ids' = ids.map f ∧ ∀ x ∈ t.preorder, u.children (f x) = (s.children x).map f := by
  induction h generalizing ids' with
  | nil =>
    cases h'
    exact ⟨rfl, fun x hx => absurd hx List.not_mem_nil⟩
  | cons _ _ ihbelow ihrest =>
    cases h' with
    | cons hbelow' hrest' =>
      obtain ⟨hchildren, hin⟩ := ihbelow hbelow'
      obtain ⟨rfl, hbeside⟩ := ihrest hrest'
      exact ⟨rfl, List.forall_mem_cons.mpr ⟨hchildren, List.forall_mem_append.mpr ⟨hin, hbeside⟩⟩⟩

theorem Spans.map {s u : Stylesheet} {f : NodeId → NodeId} {ids : List NodeId}
    {t : Forest NodeId} (h : s.Spans ids t) (hf : ∀ x, u.children (f x) = (s.children x).map f) :
    u.Spans (ids.map f) (t.map f) := by
  induction h with
  | nil => exact .nil
  | cons _ _ ihbelow ihrest => exact .cons (by rwa [hf]) ihrest

/-- The nodes of `s`, as many numbers further on as there are names, inside of rules with these
names, the first name outermost. The innermost rule stands in the place of the root. -/
structure IsEnclosed (names : List Text) (s u : Stylesheet) : Prop where
  size_eq : u.size = s.size + names.length
  outer : ∀ k (hk : k < names.length), u.children ⟨k⟩ = [⟨k + 1⟩] ∧ u.raws ⟨k⟩ = {} ∧
    u.kind ⟨k + 1⟩ = .rule names[k]
  children_shift : ∀ id, u.children (id.shift names.length) =
    (s.children id).map (NodeId.shift names.length)
  raws_shift : ∀ id, u.raws (id.shift names.length) = s.raws id
  kind_shift : ∀ id, id ≠ root → u.kind (id.shift names.length) = s.kind id

namespace IsEnclosed

variable {names : List Text} {s u v : Stylesheet}

theorem refl (s : Stylesheet) : IsEnclosed [] s s where
  size_eq := rfl
  outer k hk := absurd hk (Nat.not_lt_zero k)
  children_shift _ := (List.map_id _).symm
  raws_shift _ := rfl
  kind_shift _ _ := rfl

/-- One more rule around the others. -/
theorem cons {name : Text} (h : IsEnclosed names s u) (hv : IsEnclosed [name] u v) :
    IsEnclosed (name :: names) s v where
  size_eq := by
    rw [hv.size_eq, h.size_eq]
    rfl
  outer k hk := by
    cases k with
    | zero => exact hv.outer 0 Nat.zero_lt_one
    | succ k =>
      obtain ⟨hchildren, hraws, hkind⟩ := h.outer k (Nat.lt_of_succ_lt_succ hk)
      refine ⟨?_, (hv.raws_shift ⟨k⟩).trans hraws, (hv.kind_shift ⟨k + 1⟩ ?_).trans hkind⟩
      · refine (hv.children_shift ⟨k⟩).trans ?_
        rw [hchildren]
        rfl
      · exact fun heq => Nat.succ_ne_zero k (congrArg NodeId.index heq)
  children_shift id := by
    refine (hv.children_shift (id.shift names.length)).trans ?_
    rw [h.children_shift, List.map_map]
    rfl
  raws_shift id := (hv.raws_shift _).trans (h.raws_shift id)
  kind_shift id hid := by
    refine (hv.kind_shift (id.shift names.length) fun heq => hid ?_).trans (h.kind_shift id hid)
    have hindex : id.index + names.length = 0 := congrArg NodeId.index heq
    exact NodeId.ext (Nat.eq_zero_of_add_eq_zero_right hindex)

theorem below_eq (h : IsEnclosed names s u) (hs : s.IsForest) :
    u.below ⟨names.length⟩ = (s.below root).map (NodeId.shift names.length) := by
  have hroot : root.shift names.length = ⟨names.length⟩ := NodeId.ext (Nat.zero_add _)
  have hspans := (hs.spans_below root).map h.children_shift
  rw [← h.children_shift, hroot] at hspans
  refine hspans.below_eq ?_
  rw [Forest.height_map, h.size_eq]
  exact Nat.le_add_right_of_le (height_unfold_le s _ _)

theorem contents_eq (h : IsEnclosed names s u) (hs : s.IsForest) :
    u.contents ⟨names.length⟩ = s.contents root := by
  rw [contents, h.below_eq hs, Forest.map_map]
  refine Forest.map_congr fun id hid => ?_
  have hne : id ≠ root := ne_of_mem_of_not_mem hid (hs.root_notMem_below root)
  exact congrArg₂ Content.mk (h.kind_shift id hne) (h.raws_shift id)

end IsEnclosed

section Enclosed

variable (name : Text) (b : Block)

theorem number_enclosed : (b.enclosed name).forest.number 1 =
    .cons ⟨1⟩ ((b.forest.number 1).map (NodeId.shift 1)) .nil := by
  rw [← Forest.number_add b.forest 1 1]
  rfl

theorem size_enclosed : (ofBlock (b.enclosed name)).size = (ofBlock b).size + 1 := by
  rw [size_ofBlock, size_ofBlock]
  rfl

theorem contents_enclosed :
    (ofBlock (b.enclosed name)).content ⟨1⟩ = Content.enclosing ⟨.rule name, {}⟩ b ∧
      ∀ id ∈ (b.forest.number 1).preorder,
        (ofBlock (b.enclosed name)).content (id.shift 1) = (ofBlock b).content id := by
  have hcontents := map_content_number (b.enclosed name)
  rw [number_enclosed, Forest.map] at hcontents
  obtain ⟨hrule, hinner, -⟩ := Forest.cons.inj hcontents
  rw [Forest.map_map] at hinner
  exact ⟨hrule, Forest.eq_of_map_eq (hinner.trans (map_content_number b).symm)⟩

theorem children_enclosed :
    (ofBlock (b.enclosed name)).children root = [⟨1⟩] ∧
      (ofBlock (b.enclosed name)).children ⟨1⟩ =
        ((ofBlock b).children root).map (NodeId.shift 1) ∧
      ∀ id ∈ (b.forest.number 1).preorder, (ofBlock (b.enclosed name)).children (id.shift 1) =
        ((ofBlock b).children id).map (NodeId.shift 1) := by
  have hspans := spans_ofBlock (b.enclosed name)
  rw [number_enclosed] at hspans
  generalize hroot : (ofBlock (b.enclosed name)).children root = ids at hspans
  cases hspans with
  | cons hbelow hrest =>
    cases hrest
    exact ⟨rfl, (spans_ofBlock b).children_of_map hbelow⟩

theorem size_le_shift {id : NodeId} (hid : (ofBlock b).size ≤ id.index) :
    (ofBlock (b.enclosed name)).size ≤ (id.shift 1).index := by
  rw [size_enclosed]
  exact Nat.succ_le_succ hid

theorem content_shift {id : NodeId} (hne : id ≠ root) :
    (ofBlock (b.enclosed name)).content (id.shift 1) = (ofBlock b).content id := by
  rcases ofBlock_cases b id with heq | hid | hid
  · exact absurd heq hne
  · rw [content_of_size_le hid, content_of_size_le (size_le_shift name b hid)]
  · exact (contents_enclosed name b).2 id hid

theorem raws_shift (id : NodeId) :
    (ofBlock (b.enclosed name)).raws (id.shift 1) = (ofBlock b).raws id := by
  by_cases hid : id = root
  · have hraws : (ofBlock b).raws root = { after := b.after, semicolon := b.semicolon } := by
      rw [raws, content_root_ofBlock]
    rw [hid, hraws]
    exact congrArg Content.raws (contents_enclosed name b).1
  · exact congrArg Content.raws (content_shift name b hid)

theorem isEnclosed_ofBlock : IsEnclosed [name] (ofBlock b) (ofBlock (b.enclosed name)) where
  size_eq := size_enclosed name b
  outer k hk := by
    obtain rfl : k = 0 := Nat.lt_one_iff.mp hk
    refine ⟨(children_enclosed name b).1, ?_, congrArg Content.kind (contents_enclosed name b).1⟩
    change (ofBlock (b.enclosed name)).raws root = {}
    rw [raws, content_root_ofBlock]
    rfl
  children_shift id := by
    obtain ⟨-, hrule, hbelow⟩ := children_enclosed name b
    rcases ofBlock_cases b id with rfl | hid | hid
    · exact hrule
    · refine (children_of_size_le (size_le_shift name b hid)).trans ?_
      rw [children_of_size_le hid]
      rfl
    · exact hbelow id hid
  raws_shift := raws_shift name b
  kind_shift _ hid := congrArg Content.kind (content_shift name b hid)

end Enclosed

theorem IsEnclosed.isComplete {name : Text} {names : List Text} {s u : Stylesheet}
    (h : IsEnclosed (name :: names) s u) : u.IsComplete := by
  obtain ⟨hchildren, -, hkind⟩ := h.outer 0 (Nat.zero_lt_succ _)
  intro id hid hneeds
  rw [root, hchildren, List.getLast?_singleton] at hid
  cases hid
  rw [hkind] at hneeds
  cases hneeds

theorem exists_enclosed {t : Text} {s : Stylesheet} (h : parse t = .ok s) (hs : s.IsComplete)
    {names : List Text} (hnames : ∀ name ∈ names, name ≠ [] ∧ name.all Char.isAlpha = true) :
    ∃ u, parse (names.foldr Text.enclosed t) = .ok u ∧ u.IsComplete ∧ IsEnclosed names s u := by
  induction names with
  | nil => exact ⟨s, h, hs, .refl s⟩
  | cons name names ih =>
    obtain ⟨⟨hne, hletters⟩, hnames⟩ := List.forall_mem_cons.mp hnames
    obtain ⟨u, hu, hcomplete, henclosed⟩ := ih hnames
    obtain ⟨b, hb, rfl⟩ := exists_block_of_parse hu
    have hread := Block.ofText_enclosed hb (isComplete_ofBlock hcomplete) hne hletters
    have hmore := henclosed.cons (isEnclosed_ofBlock name b)
    refine ⟨_, ?_, hmore.isComplete, hmore⟩
    rw [List.foldr_cons, parse, hread]

/-- A complete text inside of rules is parsed as it is parsed alone: its nodes, as many numbers
further on as there are rules, stand in the innermost one, which keeps what the root kept. -/
theorem parse_enclosed {t : Text} {s : Stylesheet} (h : parse t = .ok s) (hs : s.IsComplete)
    {names : List Text} (hnames : ∀ name ∈ names, name ≠ [] ∧ name.all Char.isAlpha = true) :
    ∃ u, parse (names.foldr Text.enclosed t) = .ok u ∧ IsEnclosed names s u ∧
      u.below ⟨names.length⟩ = (s.below root).map (NodeId.shift names.length) ∧
      u.contents ⟨names.length⟩ = s.contents root := by
  obtain ⟨u, hu, -, henclosed⟩ := exists_enclosed h hs hnames
  have hforest := isForest_of_parse h
  exact ⟨u, hu, henclosed, henclosed.below_eq hforest, henclosed.contents_eq hforest⟩

/-- A rule and a declaration, a stray semicolon and a comment in two rules. -/
theorem parse_enclosed_in_two_rules :
    ∃ s u, parse "a\x7bb:c\x7d d : e ;;/**/ ".toList = .ok s ∧ s.IsComplete ∧
      parse "p\x7bqr\x7ba\x7bb:c\x7d d : e ;;/**/ \x7d\x7d".toList = .ok u ∧
      u.kind ⟨2⟩ = .rule "qr".toList ∧ u.children ⟨1⟩ = [⟨2⟩] ∧
      u.contents ⟨2⟩ = s.contents root ∧ u.raws ⟨2⟩ = s.raws root := by
  have hany : (parse "a\x7bb:c\x7d d : e ;;/**/ ".toList).toOption.any
      (fun s => s.IsComplete) = true := by cbv
  obtain ⟨s, hs, hcomplete⟩ := exists_parse_of_any hany
  rw [decide_eq_true_eq] at hcomplete
  have hnames : ∀ name ∈ ["p".toList, "qr".toList], name ≠ [] ∧ name.all Char.isAlpha = true := by
    decide
  obtain ⟨u, hu, henclosed, -, hcontents⟩ := parse_enclosed hs hcomplete hnames
  obtain ⟨hchildren, -, hkind⟩ := henclosed.outer 1 (by decide)
  exact ⟨s, u, hs, hcomplete, hu, hkind, hchildren, hcontents, henclosed.raws_shift root⟩

end Stylesheet
end UtilityCss
