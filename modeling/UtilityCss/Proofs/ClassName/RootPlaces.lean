import UtilityCss.Proofs.ClassName.RootSearch

/-!
# The dashes at which a name is cut

The cuts of a name belong to the places of its dashes. Where the empty text is not a root, every
dash behind a known root gives a reading, from the last dash to the first, unless the last dash ends
the name and the text before it is known.
-/
namespace UtilityCss

def dashPlaces (name : Text) : List Nat := (name.idxsOf '-').reverse

def cutAt (name : Text) (i : Nat) : Text × Text := (name.take i, name.drop (i + 1))

theorem mem_dashPlaces_iff {name : Text} {i : Nat} :
    i ∈ dashPlaces name ↔ name[i]? = some '-' := by
  simp [dashPlaces, List.getElem?_eq_some_iff]

theorem pairwise_dashPlaces (name : Text) : (dashPlaces name).Pairwise fun i j => j < i :=
  List.pairwise_reverse.mpr List.pairwise_idxsOf

theorem dashPlaces_eq_nil_iff {name : Text} : dashPlaces name = [] ↔ '-' ∉ name := by
  simp only [dashPlaces, List.reverse_eq_nil_iff, List.idxsOf_eq_nil_iff, beq_eq_false_iff_ne,
    ← List.forall_mem_ne', ne_eq]

theorem dashPlaces_cons (c : Char) (cs : Text) :
    dashPlaces (c :: cs) = (dashPlaces cs).map (· + 1) ++ if c = '-' then [0] else [] := by
  have hstart : cs.idxsOf '-' 1 = (cs.idxsOf '-').map (· + 1) := List.idxsOf_start
  by_cases hc : c = '-' <;> simp [dashPlaces, hc, hstart]

/-- The cuts of a name are those at its dashes. -/
theorem dashSplits_eq_map_cutAt (name : Text) :
    dashSplits name = (dashPlaces name).map (cutAt name) := by
  induction name with
  | nil => rfl
  | cons c cs ih =>
    have hfirst : (if c = '-' then [0] else []).map (cutAt (c :: cs)) =
        if c = '-' then [([], cs)] else [] := by
      split_ifs <;> rfl
    rw [dashSplits, ih, dashPlaces_cons, List.map_append, hfirst, List.map_map, List.map_map]
    rfl

theorem drop_eq_nil_iff_of_dashPlaces {name : Text} {i : Nat} {rest : List Nat}
    (h : dashPlaces name = i :: rest) :
    name.drop (i + 1) = [] ↔ name.getLast? = some '-' := by
  have hdash : name[i]? = some '-' := mem_dashPlaces_iff.mp (by simp [h])
  obtain ⟨hlt, -⟩ := List.getElem?_eq_some_iff.mp hdash
  rw [List.drop_eq_nil_iff, List.getLast?_eq_getElem?]
  constructor
  · intro hle
    have hi : name.length - 1 = i := by omega
    rw [hi, hdash]
  · intro hlast
    have hmem : name.length - 1 ∈ i :: rest := h ▸ mem_dashPlaces_iff.mpr hlast
    have hpairwise := pairwise_dashPlaces name
    rw [h, List.pairwise_cons] at hpairwise
    rcases List.mem_cons.mp hmem with hi | hi
    · omega
    · have := hpairwise.1 _ hi
      omega

theorem dropLast_eq_take_of_drop {name : Text} {i : Nat} (hi : i < name.length)
    (h : name.drop (i + 1) = []) : name.dropLast = name.take i := by
  have hle := List.drop_eq_nil_iff.mp h
  have hlength : name.length - 1 = i := by omega
  rw [List.dropLast_eq_take, hlength]

variable {known : Text → Bool}

section

variable (hempty : known [] = false)

include hempty

theorem dashRoots_cons (last : Text × Text) (earlier : List (Text × Text)) :
    dashRoots known (last :: earlier) =
      if last.2 = [] ∧ known last.1 then []
      else (last :: earlier).filter fun p => known p.1 := by
  have hroot : ∀ p : Text × Text, (known p.1 && decide (p.1 ≠ [])) = known p.1 := by
    rintro ⟨root, value⟩
    cases root <;> simp [hempty]
  simp only [dashRoots, List.filter_cons, List.filter_filter, hroot]

theorem valueRoots_of_mem {name : Text} (hdash : '-' ∈ name) :
    valueRoots known name =
      if name.getLast? = some '-' ∧ known name.dropLast then []
      else ((dashPlaces name).filter fun i => known (name.take i)).map (cutAt name) := by
  have hne : dashPlaces name ≠ [] := fun hnil => dashPlaces_eq_nil_iff.mp hnil hdash
  obtain ⟨i, rest, hplaces⟩ := List.exists_cons_of_ne_nil hne
  have hsplits : dashSplits name = cutAt name i :: rest.map (cutAt name) := by
    rw [dashSplits_eq_map_cutAt, hplaces, List.map_cons]
  have hroots : valueRoots known name = dashRoots known (dashSplits name) := by
    unfold valueRoots
    split
    · simp_all
    · rfl
  have hi : i < name.length := by
    have hmem : i ∈ dashPlaces name := by simp [hplaces]
    exact (List.getElem?_eq_some_iff.mp (mem_dashPlaces_iff.mp hmem)).1
  have hends : (cutAt name i).2 = [] ∧ known (cutAt name i).1 = true ↔
      name.getLast? = some '-' ∧ known name.dropLast = true := by
    rw [← drop_eq_nil_iff_of_dashPlaces hplaces]
    refine and_congr_right fun hdrop => ?_
    rw [dropLast_eq_take_of_drop hi hdrop]
    rfl
  rw [hroots, hsplits, dashRoots_cons hempty, if_congr hends rfl rfl, ← List.map_cons, ← hplaces,
    List.filter_map]
  rfl

/-- Later roots are not longer than earlier ones, and none is longer than the name. -/
theorem pairwise_valueRoots (name : Text) :
    (valueRoots known name).Pairwise (fun a b => b.1.length ≤ a.1.length) ∧
      ∀ p ∈ valueRoots known name, p.1.length ≤ name.length := by
  by_cases hdash : '-' ∈ name
  · rw [valueRoots_of_mem hempty hdash]
    split_ifs
    · simp
    · constructor
      · rw [List.pairwise_map]
        refine ((pairwise_dashPlaces name).filter _).imp fun {i j} hji => ?_
        simp only [cutAt, List.length_take]
        omega
      · intro p hp
        obtain ⟨i, -, rfl⟩ := List.mem_map.mp hp
        exact List.length_take_le' i name
  · rw [valueRoots_of_notMem hdash]
    split_ifs with hat
    · obtain ⟨rest, rfl⟩ := List.head?_eq_some_iff.mp hat.1
      simp
    · simp

/-- The search from dash to dash ends with every reading of a name as a root and a value, the
longest root first. The name itself stands first if it is a root. A name without a dash may be cut
behind a leading `@`. In a name with dashes every dash behind a known root gives a reading, unless
the name ends with a dash and all before that dash is a root. -/
theorem rootSplits_at_dashes (name : Text) :
    (∃ rounds ≤ name.count '-', RootSearch.run? known name rounds (RootSearch.start known name) =
      some (.done (rootSplits known name))) ∧
      rootSplits known name =
        (if known name then [(name, none)] else []) ++
          (if '-' ∈ name then
            if name.getLast? = some '-' ∧ known name.dropLast then []
            else ((dashPlaces name).filter fun i => known (name.take i)).map fun i =>
              (name.take i, some (name.drop (i + 1)))
          else if name.head? = some '@' ∧ known ['@'] then [(['@'], some name.tail)] else []) ∧
      (rootSplits known name).Pairwise fun a b => b.1.length ≤ a.1.length := by
  obtain ⟨hpairwise, hlength⟩ := pairwise_valueRoots hempty name
  refine ⟨RootSearch.exists_run?_start known name, ?_, ?_⟩
  · rw [rootSplits]
    congr 1
    split_ifs with hdash hlast hat
    · simp [valueRoots_of_mem hempty hdash, hlast]
    · rw [valueRoots_of_mem hempty hdash, if_neg hlast, List.map_map]
      rfl
    · simp [valueRoots_of_notMem hdash, hat]
    · simp [valueRoots_of_notMem hdash, hat]
  · rw [rootSplits, List.pairwise_append, List.pairwise_map]
    refine ⟨by split_ifs <;> simp, hpairwise, ?_⟩
    intro a ha b hb
    obtain ⟨p, hp, rfl⟩ := List.mem_map.mp hb
    split_ifs at ha
    · rw [List.mem_singleton.mp ha]
      exact hlength p hp
    · cases ha

end

/-- Dashes at the beginning, side by side, and at the end. -/
theorem rootSplits_at_repeated_dashes :
    let known : Text → Bool := (["-a-", "-a--b", "-a--b-c"].map String.toList).contains
    known [] = false ∧
      (∃ rounds ≤ 4, RootSearch.run? known "-a--b-c".toList rounds
        (RootSearch.start known "-a--b-c".toList) =
          some (.done [("-a--b-c".toList, none), ("-a--b".toList, some "c".toList),
            ("-a-".toList, some "b-c".toList)])) ∧
      rootSplits known "-a--b-".toList = [] := by
  intro known
  have hempty : known [] = false := by decide
  have hsplits : rootSplits known "-a--b-c".toList =
      [("-a--b-c".toList, none), ("-a--b".toList, some "c".toList),
        ("-a-".toList, some "b-c".toList)] := by
    rw [(rootSplits_at_dashes hempty "-a--b-c".toList).2.1]
    decide
  refine ⟨hempty, ?_, ?_⟩
  · rw [← hsplits]
    exact (rootSplits_at_dashes hempty "-a--b-c".toList).1
  · rw [(rootSplits_at_dashes hempty "-a--b-".toList).2.1]
    decide

end UtilityCss
