import UtilityCss.Proofs.Template.Tokens

/-!
# Tokens and delimiters make up a template

A token is cut by no character in it and by the one behind it, and what stands outside of all tokens
are delimiters. No other list of pieces of the template has these properties.
-/
namespace UtilityCss

open Text

namespace Token

theorem cuts_eq_true_iff {depth : Nat} {c : Char} :
    cuts depth c = true ↔ isBlank c = true ∨ (depth = 0 ∧ c ∈ delimiters) := by
  simp [cuts]

theorem cuts_eq_false_iff {depth : Nat} {c : Char} :
    cuts depth c = false ↔ isBlank c = false ∧ (c ∈ delimiters → 0 < depth) := by
  rw [← Bool.not_eq_true, cuts_eq_true_iff, not_or, Bool.not_eq_true, not_and', Nat.pos_iff_ne_zero]

theorem cuts_of_holds {depth : Nat} {a b : Text} {c : Char}
    (h : holds depth (a ++ c :: b) = true) : cuts (depthAfter depth a) c = false := by
  induction a generalizing depth with
  | nil =>
    simp only [List.nil_append, holds, Bool.and_eq_true, Bool.not_eq_true'] at h
    exact h.1
  | cons d a ih =>
    simp only [List.cons_append, holds, Bool.and_eq_true] at h
    exact ih h.2

/-- Around each piece of a text that begins where nothing is open: the piece holds together, and
what follows it cuts. -/
theorem Cut.exists_around {offset depth : Nat} {t : Text} {tokens : List Token}
    (h : Cut offset depth t tokens) (hdepth : depth = 0) :
    ∀ tok ∈ tokens, ∃ a b : Text, t = a ++ tok.text ++ b ∧ offset + a.byteLength = tok.start ∧
      holds 0 tok.text = true ∧ ∀ c ∈ b.head?, cuts (depthAfter 0 tok.text) c = true := by
  induction h with
  | last h =>
    subst hdepth
    rw [List.forall_mem_singleton]
    exact ⟨[], [], by simp, rfl, h, by simp⟩
  | @cut offset _ text rest c tokens h hc hrest ih =>
    subst hdepth
    rw [List.forall_mem_cons]
    refine ⟨⟨[], c :: rest, rfl, rfl, h, by simpa using hc⟩, fun tok htok => ?_⟩
    obtain ⟨a, b, rfl, hstart, haround⟩ := ih rfl tok htok
    refine ⟨text ++ c :: a, b, by simp, ?_, haround⟩
    rw [← hstart, byteLength_append, byteLength_cons]
    omega

/-- A character that stands in no piece is one that cuts. -/
theorem Cut.cuts_outside {offset depth : Nat} {t : Text} {tokens : List Token}
    (h : Cut offset depth t tokens) {a b : Text} {c : Char} (ht : t = a ++ c :: b)
    (houtside : ∀ tok ∈ tokens,
      offset + a.byteLength < tok.start ∨ tok.stop ≤ offset + a.byteLength) :
    ∃ depth', cuts depth' c = true := by
  induction h generalizing a with
  | @last offset _ text h =>
    subst ht
    have hpos := c.utf8Size_pos
    have htok := List.forall_mem_singleton.mp houtside
    simp only [stop, byteLength_append, byteLength_cons] at htok
    omega
  | @cut offset _ text rest d tokens h hd hrest ih =>
    obtain ⟨htok, htokens⟩ := List.forall_mem_cons.mp houtside
    simp only [stop] at htok
    rcases eq_append_of_append_eq_append_cons ht with ⟨x, rfl, hx⟩ | ⟨x, rfl, -⟩
    · cases x with
      | nil =>
        obtain ⟨rfl, -⟩ := List.cons.inj hx
        exact ⟨_, hd⟩
      | cons _ x =>
        obtain ⟨rfl, hlater⟩ := List.cons.inj hx
        refine ih hlater fun tok htok => ?_
        have := htokens tok htok
        simp only [byteLength_append, byteLength_cons] at this
        omega
    · have hpos := c.utf8Size_pos
      simp only [byteLength_append, byteLength_cons] at htok
      omega

/-- A piece of a template that no character in it cuts and that is cut off from what follows. The
depth at a character counts the brackets open since the beginning of the piece. -/
structure Delimited (content : Text) (tok : Token) : Prop where
  nonempty : tok.start < tok.stop
  slice : content.IsSlice tok.start tok.stop tok.text
  inside : ∀ (a : Text) (c : Char) (b : Text), tok.text = a ++ c :: b →
    isBlank c = false ∧ (c ∈ delimiters → 0 < depthAfter 0 a)
  behind : ∀ (a : Text) (c : Char) (b : Text), content = a ++ c :: b → a.byteLength = tok.stop →
    isBlank c = true ∨ (depthAfter 0 tok.text = 0 ∧ c ∈ delimiters)

/-- Pieces of a template one after the other, with nothing but delimiters between them. -/
structure IsPartition (content : Text) (tokens : List Token) : Prop where
  delimited : ∀ tok ∈ tokens, Delimited content tok
  separated : tokens.Pairwise fun t u => t.stop < u.start
  outside : ∀ (a : Text) (c : Char) (b : Text), content = a ++ c :: b →
    (∀ tok ∈ tokens, a.byteLength < tok.start ∨ tok.stop ≤ a.byteLength) →
      isBlank c = true ∨ c ∈ delimiters

theorem delimited_of_mem_all {content : Text} {tok : Token} (h : tok ∈ all content) :
    Delimited content tok := by
  obtain ⟨front, rest, hcontent, hstart, hholds, hrest⟩ :=
    (cut_pieces 0 0 content).exists_around rfl tok (List.mem_filter.mp h).1
  rw [Nat.zero_add] at hstart
  refine ⟨(bounds_of_mem_all h).1, isSlice_of_mem_all h, fun a c b htext => ?_,
    fun a c b ha hstop => ?_⟩
  · rw [htext] at hholds
    exact cuts_eq_false_iff.mp (cuts_of_holds hholds)
  · have hfront : (front ++ tok.text).byteLength = a.byteLength := by
      rw [byteLength_append, hstart, hstop, stop]
    obtain ⟨-, rfl⟩ := append_inj_of_byteLength (hcontent.symm.trans ha) hfront
    exact cuts_eq_true_iff.mp (hrest c rfl)

theorem isPartition_all (content : Text) : IsPartition content (all content) where
  delimited _ h := delimited_of_mem_all h
  separated := pairwise_all content
  outside a c b hcontent houtside := by
    have hpieces : ∀ tok ∈ pieces 0 0 content,
        0 + a.byteLength < tok.start ∨ tok.stop ≤ 0 + a.byteLength := by
      intro tok htok
      rw [Nat.zero_add]
      by_cases htext : tok.text = []
      · simp only [stop, htext, byteLength]
        omega
      · exact houtside tok (List.mem_filter.mpr ⟨htok, by simpa using htext⟩)
    obtain ⟨depth, hc⟩ := (cut_pieces 0 0 content).cuts_outside hcontent hpieces
    exact (cuts_eq_true_iff.mp hc).imp_right And.right

/-- The first character of a delimited piece is no delimiter, since nothing is open there. -/
theorem Delimited.exists_first {content : Text} {tok : Token} (h : Delimited content tok) :
    ∃ (a : Text) (c : Char) (b : Text), content = a ++ c :: b ∧ a.byteLength = tok.start ∧
      isBlank c = false ∧ c ∉ delimiters := by
  obtain ⟨a, b, hcontent, hstart, hstop⟩ := h.slice
  have hnonempty := h.nonempty
  rw [byteLength_append] at hstop
  cases htext : tok.text with
  | nil =>
    simp only [htext, byteLength] at hstop
    omega
  | cons c text =>
    obtain ⟨hblank, hdelimiter⟩ := h.inside [] c text htext
    refine ⟨a, c, text ++ b, by simp [hcontent, htext], hstart, hblank, fun hc => ?_⟩
    exact absurd (hdelimiter hc) (Nat.lt_irrefl 0)

theorem Delimited.eq_nil_of_append {content x : Text} {t u : Token} (ht : Delimited content t)
    (hu : Delimited content u) (hstart : t.start = u.start) (htext : u.text = t.text ++ x) :
    x = [] := by
  obtain ⟨a, b, b', hcontent, hstop, hrest⟩ := ht.slice.exists_rest (hstart ▸ hu.slice)
  cases x with
  | nil => rfl
  | cons c x =>
    obtain ⟨hblank, hdelimiter⟩ := hu.inside t.text c x htext
    rw [htext, List.append_assoc] at hrest
    obtain rfl : b = c :: (x ++ b') := List.append_cancel_left hrest
    rcases ht.behind _ c _ hcontent hstop with hc | ⟨hdepth, hc⟩
    · rw [hblank] at hc
      cases hc
    · have := hdelimiter hc
      omega

theorem Delimited.eq_of_start_eq {content : Text} {t u : Token} (ht : Delimited content t)
    (hu : Delimited content u) (hstart : t.start = u.start) : t = u := by
  obtain ⟨-, b, b', -, -, hrest⟩ := ht.slice.exists_rest (hstart ▸ hu.slice)
  have htext : t.text = u.text := by
    rcases List.append_eq_append_iff.mp hrest with ⟨x, hx, -⟩ | ⟨x, hx, -⟩
    · simpa [ht.eq_nil_of_append hu hstart hx] using hx.symm
    · simpa [hu.eq_nil_of_append ht hstart.symm hx] using hx
  rcases t with ⟨start, text⟩
  rcases u with ⟨start', text'⟩
  obtain rfl : start = start' := hstart
  obtain rfl : text = text' := htext
  rfl

theorem IsPartition.not_lt {content : Text} {before ts us : List Token} {u : Token}
    (h : IsPartition content (before ++ ts)) (hu : IsPartition content (before ++ u :: us)) :
    ¬ ∀ t ∈ ts, u.start < t.start := by
  intro hlt
  obtain ⟨a, c, b, hcontent, hstart, hblank, hdelimiter⟩ :=
    (hu.delimited u (by simp)).exists_first
  have hbefore : ∀ t ∈ before, t.stop < u.start := fun t ht =>
    (List.pairwise_append.mp hu.separated).2.2 t ht u (List.mem_cons_self ..)
  have houtside := h.outside a c b hcontent fun t ht => by
    rw [hstart]
    exact (List.mem_append.mp ht).elim (fun ht => .inr (hbefore t ht).le) fun ht => .inl (hlt t ht)
  simp [hblank, hdelimiter] at houtside

theorem IsPartition.start_le {content : Text} {before ts us : List Token} {t u : Token}
    (ht : IsPartition content (before ++ t :: ts)) (hu : IsPartition content (before ++ u :: us)) :
    t.start ≤ u.start := by
  by_contra hlt
  refine ht.not_lt hu fun t' ht' => ?_
  rcases List.mem_cons.mp ht' with rfl | ht'
  · omega
  · have hnonempty := (ht.delimited t (by simp)).nonempty
    have hseparated := (List.pairwise_append.mp ht.separated).2.1
    have := (List.pairwise_cons.mp hseparated).1 t' ht'
    omega

theorem IsPartition.eq_of_append {content : Text} {before ts us : List Token}
    (ht : IsPartition content (before ++ ts)) (hu : IsPartition content (before ++ us)) :
    ts = us := by
  -- The tokens that were compared already are moved to the common beginning.
  induction ts generalizing before us with
  | nil =>
    cases us with
    | nil => rfl
    | cons u us => exact absurd (by simp) (ht.not_lt hu)
  | cons t ts ih =>
    cases us with
    | nil => exact absurd (by simp) (hu.not_lt ht)
    | cons u us =>
      have hstart : t.start = u.start := Nat.le_antisymm (ht.start_le hu) (hu.start_le ht)
      obtain rfl := (ht.delimited t (by simp)).eq_of_start_eq (hu.delimited u (by simp)) hstart
      rw [List.append_cons] at ht hu
      rw [ih ht hu]

/-- The tokens of a template and the delimiters between them make it up, and no other pieces of it
do. -/
theorem all_partition (content : Text) :
    IsPartition content (all content) ∧
      ∀ tokens, IsPartition content tokens → tokens = all content := by
  have hall : IsPartition content ([] ++ all content) := isPartition_all content
  refine ⟨hall, fun tokens htokens => ?_⟩
  have htokens' : IsPartition content ([] ++ tokens) := htokens
  exact htokens'.eq_of_append hall

/-- Brackets are closed before one is opened, that one stays open, and the template ends with a
token. -/
theorem all_partition_of_unmatched :
    let content := "])é[,\u2003b;c".toList
    let tokens : List Token := [⟨0, "])é[,".toList⟩, ⟨9, "b".toList⟩, ⟨11, "c".toList⟩]
    IsPartition content tokens ∧ ∀ tokens', IsPartition content tokens' → tokens' = tokens := by
  intro content tokens
  have hall : all content = tokens := by decide
  have hpartition := all_partition content
  rwa [hall] at hpartition

end Token
end UtilityCss
