import UtilityCss.Text.Basic

/-!
# Roots and values

A name such as `inset-x-4` may be cut at any of its dashes into a root and a value. The cuts are
tried from the last dash to the first, so that longer roots come first; a name that is itself a root
comes before all of them and has no value.
-/
namespace UtilityCss

/-- The parts before and after each dash, for the last dash first. -/
def dashSplits : Text → List (Text × Text)
  | [] => []
  | c :: cs =>
    (dashSplits cs).map (fun p => (c :: p.1, p.2)) ++ if c = '-' then [([], cs)] else []

/-- The ways to cut a name at a dash into a known root and a value. A known root that only a final
dash separates from nothing ends the search, and an empty root counts only at the last dash. -/
def dashRoots (known : Text → Bool) : List (Text × Text) → List (Text × Text)
  | [] => []
  | last :: earlier =>
    if last.2 = [] ∧ known last.1 then []
    else (last :: earlier.filter (·.1 ≠ [])).filter fun p => known p.1

/-- The cuts of a name into a known root and what follows it. Without a dash, a leading `@` may be a
root of its own. -/
def valueRoots (known : Text → Bool) (name : Text) : List (Text × Text) :=
  match dashSplits name, name with
  | [], '@' :: rest => if known ['@'] then [(['@'], rest)] else []
  | splits, _ => dashRoots known splits

/-- Every reading of a name as a known root with or without a value. -/
def rootSplits (known : Text → Bool) (name : Text) : List (Text × Option Text) :=
  (if known name then [(name, none)] else []) ++
    (valueRoots known name).map fun p => (p.1, some p.2)

theorem length_of_mem_dashSplits {name : Text} {p : Text × Text} (h : p ∈ dashSplits name) :
    p.1.length + p.2.length + 1 = name.length := by
  induction name generalizing p with
  | nil => simp [dashSplits] at h
  | cons c cs ih =>
    simp only [dashSplits, List.mem_append, List.mem_map] at h
    rcases h with ⟨q, hq, rfl⟩ | h
    · have := ih hq
      simp only [List.length_cons]
      omega
    · split at h
      · simp only [List.mem_singleton] at h
        simp [h]
      · simp at h

theorem mem_of_mem_dashRoots {known : Text → Bool} {splits : List (Text × Text)}
    {p : Text × Text} (h : p ∈ dashRoots known splits) : p ∈ splits ∧ known p.1 = true := by
  cases splits with
  | nil => simp [dashRoots] at h
  | cons last earlier =>
    simp only [dashRoots] at h
    split at h
    · simp at h
    · simp only [List.mem_filter, List.mem_cons] at h
      rcases h with ⟨rfl | h, hk⟩
      · simp [hk]
      · exact ⟨List.mem_cons_of_mem _ h.1, hk⟩

theorem length_lt_of_mem_rootSplits {known : Text → Bool} {name root value : Text}
    (h : (root, some value) ∈ rootSplits known name) : value.length < name.length := by
  simp only [rootSplits, List.mem_append, List.mem_map, Prod.mk.injEq, Option.some.injEq] at h
  rcases h with h | ⟨p, hp, -, rfl⟩
  · split at h <;> simp at h
  · simp only [valueRoots] at hp
    split at hp
    · rename_i rest _
      split at hp
      · simp only [List.mem_singleton] at hp
        simp [hp]
      · simp at hp
    · have := length_of_mem_dashSplits (mem_of_mem_dashRoots hp).1
      omega

end UtilityCss
