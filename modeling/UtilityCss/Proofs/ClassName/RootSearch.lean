import UtilityCss.Proofs.Text.Bytes
import UtilityCss.ClassName.RootSplit

/-!
# The search for roots

The cuts of a name are found by going back from dash to dash. Every round looks at one dash by its
byte offset and looks for the next one in the text before it. The search ends after as many rounds
as the name has dashes at most, asks for no slice that does not exist, and finds the cuts into a
known root and a value.
-/
namespace UtilityCss

open Text

namespace RootSearch

/-- Where a search stands: at the dash at an offset, with what has been found behind it, or at its
end. -/
inductive State
  | dash (index : Nat) (found : List (Text × Option Text))
  | done (found : List (Text × Option Text))
  deriving DecidableEq, Repr

/-- On to the last dash before `root` ends. A dash at the beginning is not gone to. -/
def goOn (root : Text) (found : List (Text × Option Text)) : State :=
  match root.findLast? '-' with
  | some next => if 0 < next then .dash next found else .done found
  | none => .done found

/-- One round. A known root with an empty value ends the search. -/
def step? (known : Text → Bool) (name : Text) : State → Option State
  | .dash index found => do
    let root ← name.slice? 0 index
    if known root then
      let value ← name.from? (index + 1)
      return if value = [] then .done found else goOn root (found ++ [(root, some value)])
    else return goOn root found
  | .done found => some (.done found)

def run? (known : Text → Bool) (name : Text) : (rounds : Nat) → State → Option State
  | 0, s => some s
  | rounds + 1, s => (step? known name s).bind (run? known name rounds)

def start (known : Text → Bool) (name : Text) : State :=
  let whole : List (Text × Option Text) := if known name then [(name, none)] else []
  match name.findLast? '-' with
  | some index => .dash index whole
  | none =>
    .done (whole ++ if name.head? = some '@' ∧ known ['@'] then [(['@'], some name.tail)] else [])

variable {known : Text → Bool}

theorem step?_dash (root value : Text) (found : List (Text × Option Text)) :
    step? known (root ++ '-' :: value) (.dash root.byteLength found) =
      some (if known root then
        if value = [] then .done found else goOn root (found ++ [(root, some value)])
      else goOn root found) := by
  have hroot : slice? 0 root.byteLength (root ++ '-' :: value) = some root :=
    slice?_byteLength [] root ('-' :: value)
  have hvalue : from? (root.byteLength + 1) (root ++ '-' :: value) = some value := by
    rw [← byteLength_append_singleton (c := '-') (by decide), List.append_cons root '-' value,
      from?_byteLength]
  simp only [step?, Option.bind_eq_bind, hroot, hvalue, Option.bind_some, Option.pure_def]
  split_ifs <;> rfl

theorem step?_dash_of_not_ends {root value : Text} (h : ¬(value = [] ∧ known root = true))
    (found : List (Text × Option Text)) :
    step? known (root ++ '-' :: value) (.dash root.byteLength found) =
      some (goOn root (found ++ if known root then [(root, some value)] else [])) := by
  rw [step?_dash]
  split_ifs with hknown hvalue
  · exact absurd ⟨hvalue, hknown⟩ h
  · rfl
  · rw [List.append_nil]

theorem goOn_of_notMem {root : Text} (h : '-' ∉ root) (found : List (Text × Option Text)) :
    goOn root found = .done found := by
  rw [goOn, findLast?, splitLast?_eq_none_iff.mpr h, Option.map_none]

theorem goOn_append_cons (root : Text) {value : Text} (h : '-' ∉ value)
    (found : List (Text × Option Text)) :
    goOn (root ++ '-' :: value) found =
      if root = [] then .done found else .dash root.byteLength found := by
  rw [goOn, findLast?, splitLast?_append_cons root h, Option.map_some]
  cases root with
  | nil => rfl
  | cons c root => exact if_pos (byteLength_pos (List.cons_ne_nil c root))

end RootSearch

theorem dashSplits_append_cons (a b : Text) :
    dashSplits (a ++ '-' :: b) =
      (dashSplits b).map (fun p => (a ++ '-' :: p.1, p.2)) ++
        (a, b) :: (dashSplits a).map fun p => (p.1, p.2 ++ '-' :: b) := by
  induction a with
  | nil => simp [dashSplits]
  | cons c a ih =>
    rw [List.cons_append, dashSplits, ih, dashSplits]
    by_cases hc : c = '-' <;> simp [hc, Function.comp_def]

theorem dashSplits_of_notMem {name : Text} (h : '-' ∉ name) : dashSplits name = [] := by
  induction name with
  | nil => rfl
  | cons c name ih =>
    rw [List.mem_cons, not_or] at h
    rw [dashSplits, ih h.2, if_neg (Ne.symm h.1)]
    rfl

theorem dashSplits_of_notMem_value {value : Text} (h : '-' ∉ value) (root : Text) :
    dashSplits (root ++ '-' :: value) =
      (root, value) :: (dashSplits root).map fun p => (p.1, p.2 ++ '-' :: value) := by
  rw [dashSplits_append_cons, dashSplits_of_notMem h, List.map_nil, List.nil_append]

theorem valueRoots_of_notMem {known : Text → Bool} {name : Text} (hdash : '-' ∉ name) :
    valueRoots known name =
      if name.head? = some '@' ∧ known ['@'] then [(['@'], name.tail)] else [] := by
  unfold valueRoots
  rw [dashSplits_of_notMem hdash]
  cases name with
  | nil => rfl
  | cons c rest =>
    by_cases hc : c = '@'
    · subst hc
      simp
    · simp [hc, dashRoots]

namespace RootSearch

variable {known : Text → Bool}

/-- What is found at the dashes of `root`, where `value` follows it behind a dash. -/
def before (known : Text → Bool) (root value : Text) : List (Text × Option Text) :=
  (((dashSplits root).map fun p => (p.1, p.2 ++ '-' :: value)).filter fun p =>
    known p.1 && p.1 ≠ []).map fun p => (p.1, some p.2)

theorem before_of_notMem {root : Text} (h : '-' ∉ root) (value : Text) :
    before known root value = [] := by
  rw [before, dashSplits_of_notMem h]
  rfl

theorem before_append_cons (root : Text) {v : Text} (hv : '-' ∉ v) (value : Text) :
    before known (root ++ '-' :: v) value =
      if root = [] then []
      else (if known root then [(root, some (v ++ '-' :: value))] else []) ++
        before known root (v ++ '-' :: value) := by
  rw [before, dashSplits_of_notMem_value hv]
  cases root with
  | nil => simp [dashSplits]
  | cons c root => by_cases hknown : known (c :: root) <;> simp [before, hknown, Function.comp_def]

/-- What is left of a search behind a dash, round by round. -/
theorem exists_run?_goOn {name root value : Text} (hname : name = root ++ '-' :: value)
    (found : List (Text × Option Text)) :
    ∃ rounds ≤ root.count '-',
      run? known name rounds (goOn root found) =
        some (.done (found ++ before known root value)) := by
  induction hlength : root.length using Nat.strong_induction_on generalizing root value found with
  | _ n ih =>
    cases hsplit : root.splitLast? '-' with
    | none =>
      have hroot := splitLast?_eq_none_iff.mp hsplit
      refine ⟨0, Nat.zero_le _, ?_⟩
      rw [goOn_of_notMem hroot, before_of_notMem hroot, List.append_nil, run?]
    | some p =>
      obtain ⟨r, v⟩ := p
      have hv := notMem_of_splitLast? hsplit
      obtain rfl := eq_append_of_splitLast? hsplit
      rw [goOn_append_cons r hv, before_append_cons r hv]
      rw [List.append_assoc, List.cons_append] at hname
      rcases eq_or_ne r [] with hr | hr
      · exact ⟨0, Nat.zero_le _, by rw [if_pos hr, if_pos hr, List.append_nil, run?]⟩
      · rw [if_neg hr, if_neg hr]
        obtain ⟨rounds, hrounds, hrun⟩ := ih r.length (by simp [← hlength]) hname
          (found ++ if known r then [(r, some (v ++ '-' :: value))] else []) rfl
        refine ⟨rounds + 1, ?_, ?_⟩
        · rw [List.count_append, List.count_cons_self]
          omega
        · rw [run?, hname, step?_dash_of_not_ends (by simp), Option.bind_some, ← hname, hrun,
            List.append_assoc]

theorem map_dashRoots_eq (root value : Text) :
    (dashRoots known ((root, value) ::
        (dashSplits root).map fun p => (p.1, p.2 ++ '-' :: value))).map (fun p => (p.1, some p.2)) =
      if value = [] ∧ known root then []
      else (if known root then [(root, some value)] else []) ++ before known root value := by
  rw [dashRoots]
  split_ifs with hends hknown
  · rfl
  · simp [before, hknown, List.filter_filter]
  · simp [before, hknown, List.filter_filter]

/-- Going back from dash to dash ends, and finds every cut into a known root and a value. -/
theorem exists_run?_start (known : Text → Bool) (name : Text) :
    ∃ rounds ≤ name.count '-',
      run? known name rounds (start known name) = some (.done (rootSplits known name)) := by
  cases hsplit : name.splitLast? '-' with
  | none =>
    refine ⟨0, Nat.zero_le _, ?_⟩
    rw [rootSplits, valueRoots_of_notMem (splitLast?_eq_none_iff.mp hsplit), start, findLast?,
      hsplit, Option.map_none, run?]
    split_ifs <;> rfl
  | some p =>
    obtain ⟨root, value⟩ := p
    have hvalue := notMem_of_splitLast? hsplit
    obtain rfl := eq_append_of_splitLast? hsplit
    have hroots : valueRoots known (root ++ '-' :: value) =
        dashRoots known ((root, value) ::
          (dashSplits root).map fun p => (p.1, p.2 ++ '-' :: value)) := by
      simp only [valueRoots, dashSplits_of_notMem_value hvalue]
    have hcount : (root ++ '-' :: value).count '-' = root.count '-' + 1 := by
      rw [List.count_append, List.count_cons_self, List.count_eq_zero_of_not_mem hvalue]
    have hstart : start known (root ++ '-' :: value) = .dash root.byteLength
        (if known (root ++ '-' :: value) then [(root ++ '-' :: value, none)] else []) := by
      rw [start, findLast?, hsplit, Option.map_some]
    rw [hcount, rootSplits, hroots, map_dashRoots_eq, hstart]
    by_cases hends : value = [] ∧ known root = true
    · refine ⟨1, Nat.le_add_left .., ?_⟩
      rw [run?, step?_dash, if_pos hends.2, if_pos hends.1, if_pos hends, List.append_nil]
      rfl
    · obtain ⟨rounds, hrounds, hrun⟩ := exists_run?_goOn rfl
        ((if known (root ++ '-' :: value) then [(root ++ '-' :: value, none)] else []) ++
          if known root then [(root, some value)] else [])
      refine ⟨rounds + 1, Nat.succ_le_succ hrounds, ?_⟩
      rw [run?, step?_dash_of_not_ends hends, Option.bind_some, hrun, if_neg hends,
        List.append_assoc]

end RootSearch
end UtilityCss
