import UtilityCss.Proofs.Text.Cutting
import UtilityCss.Proofs.Stylesheet.Legible
import UtilityCss.Proofs.Upgrade.Layering

/-!
# Which nodes are wrapped

Layering gives a node of its own to every implicitly layered run and to nothing else. A child of the
root stays where it is unless it is content, a layer began before it, and some later child is not
content.
-/
namespace UtilityCss.Stylesheet

variable {s : Stylesheet}

/-- Whether a child of the root with the children `before` it and `after` it belongs to an
implicitly layered run. -/
def IsImplicit (s : Stylesheet) (before : List NodeId) (id : NodeId) (after : List NodeId) : Prop :=
  s.isContent id = true ∧ (s.layerAfter before).isSome = true ∧ ∃ x ∈ after, s.isContent x = false

theorem mem_regrouped {n : Nat} {before : List NodeId} {rs : List (List NodeId)} {x : NodeId}
    (h : x ∈ s.regrouped n before rs) : x ∈ rs.flatten ∨ n ≤ x.index := by
  induction rs generalizing n before with
  | nil => cases h
  | cons run later ih =>
    rw [regrouped] at h
    rw [List.flatten_cons, List.mem_append]
    split at h
    · rcases List.mem_cons.mp h with rfl | h
      · exact .inr (Nat.le_refl n)
      · rcases ih h with hlater | hle
        · exact .inl (.inr hlater)
        · exact .inr (Nat.le_of_succ_le hle)
    · rcases List.mem_append.mp h with hrun | h
      · exact .inl (.inl hrun)
      · rcases ih h with hlater | hle
        · exact .inl (.inr hlater)
        · exact .inr hle

/-- Something that is not content follows a run exactly if anything does. -/
theorem exists_not_content_iff {rest : List (List NodeId)} (hrest : Runs s.isContent rest)
    (hnext : ∀ a ∈ rest.flatten.head?, s.isContent a = false) {q : List NodeId}
    (hq : ∀ a ∈ q, s.isContent a = true) :
    (∃ x ∈ q ++ rest.flatten, s.isContent x = false) ↔ rest ≠ [] := by
  constructor
  · rintro ⟨x, hx, hfalse⟩ rfl
    rw [List.flatten_nil, List.append_nil] at hx
    rw [hq x hx] at hfalse
    cases hfalse
  · intro hne
    cases hflat : rest.flatten with
    | nil => exact absurd (hrest.flatten_eq_nil hflat) hne
    | cons a tail => exact ⟨a, by simp, hnext a (by rw [hflat]; rfl)⟩

theorem notMem_regrouped {n : Nat} {before : List NodeId} {rs : List (List NodeId)} {id : NodeId}
    (hid : id.index < n) (hnot : id ∉ rs.flatten) : id ∉ s.regrouped n before rs := by
  intro hmem
  rcases mem_regrouped hmem with hmem | hle
  · exact hnot hmem
  · exact Nat.not_lt_of_le hle hid

theorem isImplicit_run_iff {before pre q : List NodeId} {id : NodeId} {rest : List (List NodeId)}
    (hall : ∀ a ∈ pre ++ id :: q, s.isContent a = true) (hrest : Runs s.isContent rest)
    (hnext : ∀ a ∈ rest.flatten.head?, s.isContent a = false) :
    s.IsImplicit (before ++ pre) id (q ++ rest.flatten) ↔
      (s.layerAfter before).isSome = true ∧ rest ≠ [] := by
  have hcontent : s.isContent id = true := hall id (by simp)
  have hq : ∀ a ∈ q, s.isContent a = true := fun a ha => hall a (by simp [ha])
  have hpre : ∀ a ∈ pre, s.isContent a = true := fun a ha => hall a (by simp [ha])
  rw [IsImplicit, exists_not_content_iff hrest hnext hq,
    layerAfter_append_of_isContent s before hpre]
  exact ⟨fun himp => himp.2, fun himp => ⟨hcontent, himp⟩⟩

theorem mem_regrouped_iff {rs : List (List NodeId)} (h : Runs s.isContent rs)
    {n : Nat} {before pre post : List NodeId} {id : NodeId} (hrs : rs.flatten = pre ++ id :: post)
    (hnodup : rs.flatten.Nodup) (hlt : ∀ x ∈ rs.flatten, x.index < n) :
    id ∈ s.regrouped n before rs ↔ ¬ s.IsImplicit (before ++ pre) id post := by
  induction h generalizing n before pre with
  | nil => simp at hrs
  | @other a rest ha hrest ih =>
    rw [List.flatten_cons, List.singleton_append] at hrs hnodup hlt
    rw [regrouped, implicitLayer?_other ha]
    cases pre with
    | nil =>
      obtain ⟨rfl, -⟩ := List.cons.inj hrs
      refine iff_of_true (by simp) fun himp => ?_
      rw [himp.1] at ha
      cases ha
    | cons b pre =>
      obtain ⟨rfl, hflat⟩ := List.cons.inj hrs
      have hne : id ≠ a := by
        rintro rfl
        exact (List.nodup_cons.mp hnodup).1 (by simp [hflat])
      have happ : before ++ a :: pre = before ++ [a] ++ pre := by simp
      rw [happ, ← ih hflat (List.nodup_cons.mp hnodup).2 fun x hx => hlt x (by simp [hx])]
      simp [hne]
  | @run l rest hne hall hnext hrest ih =>
    rw [List.flatten_cons] at hrs hnodup hlt
    have hdisjoint := List.nodup_append.mp hnodup
    have hltrest : ∀ x ∈ rest.flatten, x.index < n := fun x hx => hlt x (by simp [hx])
    have hid : id.index < n := hlt id (by simp [hrs])
    rw [regrouped, implicitLayer?_run hall]
    rcases eq_append_of_append_eq_append_cons hrs with ⟨pre', rfl, hflat⟩ | ⟨q, rfl, hpost⟩
    · -- The node stands after the run.
      have hnot : id ∉ l := fun hmem => hdisjoint.2.2 id hmem id (by simp [hflat]) rfl
      have hstep : ∀ m, n ≤ m → (id ∈ s.regrouped m (before ++ l) rest ↔
          ¬ s.IsImplicit (before ++ (l ++ pre')) id post) := by
        intro m hm
        rw [← List.append_assoc]
        exact ih hflat hdisjoint.2.1 fun x hx => Nat.lt_of_lt_of_le (hltrest x hx) hm
      have hnew : id ≠ ⟨n⟩ := by
        rintro rfl
        exact Nat.lt_irrefl n hid
      split
      · rw [List.mem_cons, or_iff_right hnew]
        exact hstep (n + 1) (Nat.le_succ n)
      · rw [List.mem_append, or_iff_right hnot]
        exact hstep n (Nat.le_refl n)
    · -- The node stands in the run, with more of the run after it.
      have hnot : id ∉ rest.flatten := fun hmem => hdisjoint.2.2 id (by simp) id hmem rfl
      rw [hpost, isImplicit_run_iff hall hrest hnext]
      cases rest with
      | nil => simp
      | cons m rest =>
        cases hlayer : s.layerAfter before with
        | none => simp
        | some layer =>
          refine iff_of_false (fun hmem => ?_) fun hnot => hnot ⟨rfl, List.cons_ne_nil m rest⟩
          rcases List.mem_cons.mp hmem with rfl | hmem
          · exact Nat.lt_irrefl n hid
          · exact notMem_regrouped (Nat.lt_succ_of_lt hid) hnot hmem

theorem wrapped_of_implicitRuns (s : Stylesheet) (k : Nat) {layer : Layer} {run : List NodeId}
    (hk : (s.implicitRuns [] s.contentRuns)[k]? = some (layer, run)) :
    ∃ first more, run = first :: more ∧
      (Change.wrapped s.changes)[k]? = some (layer, first, more) := by
  have hwrapped := (changesFrom_flatten (runs_contentRuns s) [] s.size).2
  rw [flatten_contentRuns] at hwrapped
  rw [← hwrapped, List.getElem?_map, Option.map_eq_some_iff] at hk
  obtain ⟨⟨layer', first, more⟩, hget, heq⟩ := hk
  cases heq
  exact ⟨first, more, rfl, hget⟩

/-- Layering replaces every implicitly layered run by one new node, a rule that names the layer of
the run and has the run for its children. All else stays where it is. -/
theorem layered_wraps_implicit_runs (h : s.IsForest) :
    s.layered.children root = s.regrouped s.size [] s.contentRuns ∧
      s.layered.size = s.size + (s.implicitRuns [] s.contentRuns).length ∧
      (∀ k layer run, (s.implicitRuns [] s.contentRuns)[k]? = some (layer, run) →
        layer.name ≠ [] ∧ ∃ first more, run = first :: more ∧
          s.layered.children ⟨s.size + k⟩ = run ∧
          s.layered.content ⟨s.size + k⟩ =
            ⟨.atRule ⟨"layer".toList, layer.name, true⟩,
              { before := (s.raws first).before
                afterName := [' ']
                between := [' ']
                pretty := true }⟩) ∧
      ∀ pre id post, s.children root = pre ++ id :: post →
        (id ∈ s.layered.children root ↔ ¬ s.IsImplicit pre id post) := by
  obtain ⟨hplaced, hwrapped⟩ := changesFrom_flatten (runs_contentRuns s) [] s.size
  rw [flatten_contentRuns] at hplaced hwrapped
  have hchildren : s.layered.children root = s.regrouped s.size [] s.contentRuns := by
    rw [h.layered.children_root]
    exact hplaced
  refine ⟨hchildren, ?_, fun k layer run hk => ?_, fun pre id post hroot => ?_⟩
  · rw [h.layered.size, ← hwrapped, List.length_map]
    rfl
  · obtain ⟨first, more, hrun, hget⟩ := s.wrapped_of_implicitRuns k hk
    obtain ⟨hown, hcontent⟩ := h.layered.wrapper k layer first more hget
    refine ⟨by cases layer <;> decide, first, more, hrun, ?_, hcontent⟩
    rw [hown, hrun]
  · have hflat := s.flatten_contentRuns
    rw [hchildren]
    refine mem_regrouped_iff (runs_contentRuns s) (hflat.trans hroot) ?_ fun x hx => ?_
    · rw [hflat]
      exact h.nodup_children root
    · rw [hflat] at hx
      exact h.lt_size_of_mem hx

theorem layered_wraps_implicit_run_before_import :
    ∃ s, parse "@tailwind base;a\x7b\x7db\x7b\x7d@import x;c\x7b\x7d".toList = .ok s ∧ s.IsForest ∧
      s.layered.children root = [⟨1⟩, ⟨6⟩, ⟨4⟩, ⟨5⟩] ∧ s.layered.size = 7 ∧
      s.layered.children ⟨6⟩ = [⟨2⟩, ⟨3⟩] ∧
      s.layered.kind ⟨6⟩ = .atRule ⟨"layer".toList, "base".toList, true⟩ := by
  have hread : (parse "@tailwind base;a\x7b\x7db\x7b\x7d@import x;c\x7b\x7d".toList).map (fun s =>
      (s.size, s.regrouped s.size [] s.contentRuns, s.implicitRuns [] s.contentRuns)) =
        .ok (6, [⟨1⟩, ⟨6⟩, ⟨4⟩, ⟨5⟩], [(.base, [⟨2⟩, ⟨3⟩])]) := by
    decide +kernel
  cases hs : parse "@tailwind base;a\x7b\x7db\x7b\x7d@import x;c\x7b\x7d".toList with
  | error e =>
    rw [hs] at hread
    cases hread
  | ok s =>
    rw [hs] at hread
    obtain ⟨hsize, hrest⟩ := Prod.mk.inj (Except.ok.inj hread)
    obtain ⟨hplaced, hruns⟩ := Prod.mk.inj hrest
    have hforest : s.IsForest := isForest_of_parse hs
    obtain ⟨hroot, hgrown, hwrapper, -⟩ := layered_wraps_implicit_runs hforest
    obtain ⟨-, first, more, -, hown, hcontent⟩ := hwrapper 0 .base [⟨2⟩, ⟨3⟩] (by rw [hruns]; rfl)
    rw [hsize] at hown hcontent
    refine ⟨s, rfl, hforest, ?_, ?_, hown, ?_⟩
    · rw [hroot, hplaced]
    · rw [hgrown, hsize, hruns]
      rfl
    · rw [kind, hcontent]
      rfl

end UtilityCss.Stylesheet
