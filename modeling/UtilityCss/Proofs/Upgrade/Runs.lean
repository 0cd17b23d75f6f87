import UtilityCss.Proofs.Upgrade.Changes

/-!
# Runs of content

The children of the root fall into maximal runs of content and single other nodes. A run is
implicitly layered when some layer began before it and something stands after it. The scan that
finds the changes wraps these runs and no others, and tags an import with the layer current there.
-/
namespace UtilityCss

def Role.opens? : Role → Option Layer
  | boundary layer => some layer
  | _ => none

namespace Stylesheet

def isContent (s : Stylesheet) (id : NodeId) : Bool := s.role id = .content

/-- The layer of the last boundary among `ids`. -/
def layerAfter (s : Stylesheet) (ids : List NodeId) : Option Layer :=
  (ids.filterMap fun id => (s.role id).opens?).getLast?

/-- The children of the root in maximal runs of content; each other child is a run of its own. -/
def contentRuns (s : Stylesheet) : List (List NodeId) :=
  (s.children root).splitBy fun a b => s.isContent a && s.isContent b

/-- The layer of a run of content with nodes `before` it, if it is implicitly layered. -/
def implicitLayer? (s : Stylesheet) (before run : List NodeId) (later : List (List NodeId)) :
    Option Layer :=
  if run.all s.isContent && !later.isEmpty then s.layerAfter before else none

def implicitRuns (s : Stylesheet) (before : List NodeId) :
    List (List NodeId) → List (Layer × List NodeId)
  | [] => []
  | run :: later =>
    match s.implicitLayer? before run later with
    | some layer => (layer, run) :: s.implicitRuns (before ++ run) later
    | none => s.implicitRuns (before ++ run) later

/-- The nodes in their order, with one new node, numbered from `n` on, for each implicitly layered
run. -/
def regrouped (s : Stylesheet) (n : Nat) (before : List NodeId) : List (List NodeId) → List NodeId
  | [] => []
  | run :: later =>
    match s.implicitLayer? before run later with
    | some _ => ⟨n⟩ :: s.regrouped (n + 1) (before ++ run) later
    | none => run ++ s.regrouped n (before ++ run) later

/-- Lists of elements that have a property, with a single element without it between any two. -/
inductive Runs {α : Type} (p : α → Bool) : List (List α) → Prop
  | nil : Runs p []
  | other {a : α} {rest : List (List α)} (ha : p a = false) (hrest : Runs p rest) :
      Runs p ([a] :: rest)
  | run {l : List α} {rest : List (List α)} (hne : l ≠ []) (hall : ∀ a ∈ l, p a = true)
      (hnext : ∀ a ∈ rest.flatten.head?, p a = false) (hrest : Runs p rest) : Runs p (l :: rest)

theorem Runs.flatten_eq_nil {α : Type} {p : α → Bool} {rs : List (List α)} (h : Runs p rs)
    (hrs : rs.flatten = []) : rs = [] := by
  cases h with
  | nil => rfl
  | other => simp at hrs
  | run hne => exact absurd (List.append_eq_nil_iff.mp hrs).1 hne

theorem all_of_isChain_and {α : Type} {p : α → Bool} {a b : α} {l : List α}
    (h : (a :: b :: l).IsChain fun x y => (p x && p y) = true) :
    ∀ x ∈ a :: b :: l, p x = true := by
  induction l generalizing a b with
  | nil =>
    rw [List.isChain_cons_cons, Bool.and_eq_true] at h
    intro x hx
    rcases List.mem_cons.mp hx with rfl | hx
    · exact h.1.1
    · rw [List.mem_singleton.mp hx]
      exact h.1.2
  | cons c l ih =>
    rw [List.isChain_cons_cons, Bool.and_eq_true] at h
    intro x hx
    rcases List.mem_cons.mp hx with rfl | hx
    · exact h.1.1
    · exact ih h.2 x hx

theorem runs_of_isChain {α : Type} {p : α → Bool} {rs : List (List α)} (hnil : [] ∉ rs)
    (hchain : ∀ l ∈ rs, l.IsChain fun x y => (p x && p y) = true)
    (hgap : rs.IsChain fun a b => ∃ ha hb, (p (a.getLast ha) && p (b.head hb)) = false) :
    Runs p rs := by
  induction rs with
  | nil => exact .nil
  | cons l rest ih =>
    have hl : l ≠ [] := fun h => hnil (by simp [h])
    have hrest : Runs p rest := ih (fun h => hnil (by simp [h]))
      (fun m hm => hchain m (by simp [hm])) hgap.tail
    have hnext : (∀ a ∈ l, p a = true) → ∀ a ∈ rest.flatten.head?, p a = false := by
      intro hall a ha
      cases rest with
      | nil => cases ha
      | cons m rest =>
        obtain ⟨hl', hm, hgap'⟩ := (List.isChain_cons_cons.mp hgap).1
        rw [hall _ (List.getLast_mem hl'), Bool.true_and] at hgap'
        cases m with
        | nil => exact absurd rfl hm
        | cons b m =>
          cases ha
          exact hgap'
    match l with
    | [] => exact absurd rfl hl
    | [a] =>
      cases ha : p a with
      | false => exact .other ha hrest
      | true =>
        have hall : ∀ x ∈ [a], p x = true := fun x hx => by rwa [List.mem_singleton.mp hx]
        exact .run hl hall (hnext hall) hrest
    | a :: b :: l =>
      have hall := all_of_isChain_and (hchain (a :: b :: l) (by simp))
      exact .run hl hall (hnext hall) hrest

theorem runs_contentRuns (s : Stylesheet) : Runs s.isContent s.contentRuns :=
  runs_of_isChain (List.nil_notMem_splitBy _ _) (fun _ => List.isChain_of_mem_splitBy)
    (List.isChain_getLast_head_splitBy (fun a b => s.isContent a && s.isContent b) _)

theorem flatten_contentRuns (s : Stylesheet) : s.contentRuns.flatten = s.children root :=
  List.flatten_splitBy _ _

theorem layerAfter_append_singleton (s : Stylesheet) (ids : List NodeId) (id : NodeId) :
    s.layerAfter (ids ++ [id]) = (s.role id).layerAfter (s.layerAfter ids) := by
  unfold layerAfter
  rw [List.filterMap_append]
  cases h : s.role id <;> simp [Role.opens?, Role.layerAfter, h]

theorem layerAfter_append_of_isContent (s : Stylesheet) (ids : List NodeId) {run : List NodeId}
    (h : ∀ a ∈ run, s.isContent a = true) : s.layerAfter (ids ++ run) = s.layerAfter ids := by
  have hnone : run.filterMap (fun id => (s.role id).opens?) = [] := by
    refine List.filterMap_eq_nil_iff.mpr fun a ha => ?_
    have hrole : s.role a = .content := by simpa [isContent] using h a ha
    rw [hrole]
    rfl
  unfold layerAfter
  rw [List.filterMap_append, hnone, List.append_nil]

section Scan

variable {s : Stylesheet} {current : Option Layer} {run rest : List NodeId} {id : NodeId}

theorem changesFrom_other (h : s.isContent id = false) :
    s.changesFrom current run (id :: rest) =
      closeRun current run ++
        s.changeAlone current id :: s.changesFrom ((s.role id).layerAfter current) [] rest := by
  have hrole : s.role id ≠ .content := by simpa [isContent] using h
  rw [changesFrom]
  · exact fun hcontent => absurd hcontent hrole
  · exact fun _ hcontent => absurd hcontent hrole

theorem closeRun_nil (current : Option Layer) : closeRun current [] = [] := by
  cases current <;> rfl

theorem changesFrom_content_none (h : ∀ a ∈ run, s.isContent a = true) :
    s.changesFrom none [] (run ++ rest) = run.map .keep ++ s.changesFrom none [] rest := by
  induction run with
  | nil => rfl
  | cons a run ih =>
    have hrole : s.role a = .content := by simpa [isContent] using h a (by simp)
    rw [List.cons_append, changesFrom, ih fun x hx => h x (by simp [hx])]
    · rfl
    · exact hrole

theorem changesFrom_content_some {layer : Layer} {l : List NodeId}
    (h : ∀ a ∈ l, s.isContent a = true) :
    s.changesFrom (some layer) run (l ++ rest) = s.changesFrom (some layer) (run ++ l) rest := by
  induction l generalizing run with
  | nil => simp
  | cons a l ih =>
    have hrole : s.role a = .content := by simpa [isContent] using h a (by simp)
    rw [List.cons_append, changesFrom, ih fun x hx => h x (by simp [hx]), List.append_assoc]
    · rfl
    · exact hrole

end Scan

section ScanRun

variable {s : Stylesheet} {before l : List NodeId} {rest : List (List NodeId)}

theorem implicitLayer?_other {a : NodeId} (ha : s.isContent a = false) (before : List NodeId)
    (rest : List (List NodeId)) : s.implicitLayer? before [a] rest = none := by
  simp [implicitLayer?, ha]

theorem implicitLayer?_run (hall : ∀ a ∈ l, s.isContent a = true) (rest : List (List NodeId)) :
    s.implicitLayer? before l rest = if rest = [] then none else s.layerAfter before := by
  have hallB : l.all s.isContent = true := List.all_eq_true.mpr hall
  rw [implicitLayer?, hallB]
  cases rest <;> rfl

theorem changesFrom_alone {a : NodeId} (ha : s.isContent a = false) (before ids : List NodeId) :
    s.changesFrom (s.layerAfter before) [] (a :: ids) =
      s.changeAlone (s.layerAfter before) a ::
        s.changesFrom (s.layerAfter (before ++ [a])) [] ids := by
  rw [changesFrom_other ha, closeRun_nil, List.nil_append, layerAfter_append_singleton]

/-- The scan keeps a run of content that is not implicitly layered. -/
theorem changesFrom_of_implicitLayer?_eq_none (hall : ∀ a ∈ l, s.isContent a = true)
    (h : s.implicitLayer? before l rest = none) :
    s.changesFrom (s.layerAfter before) [] (l ++ rest.flatten) =
      l.map .keep ++ s.changesFrom (s.layerAfter (before ++ l)) [] rest.flatten := by
  rw [implicitLayer?_run hall] at h
  rw [layerAfter_append_of_isContent s before hall]
  cases hcurrent : s.layerAfter before with
  | none => exact changesFrom_content_none hall
  | some layer =>
    split at h
    · rename_i hrest
      rw [changesFrom_content_some hall, hrest]
      exact (List.append_nil _).symm
    · rw [hcurrent] at h
      cases h

theorem changesFrom_of_implicitLayer?_eq_some {layer : Layer}
    (hall : ∀ a ∈ l, s.isContent a = true) (hrest : Runs s.isContent rest)
    (hnext : ∀ a ∈ rest.flatten.head?, s.isContent a = false)
    (h : s.implicitLayer? before l rest = some layer) :
    s.changesFrom (s.layerAfter before) [] (l ++ rest.flatten) =
      closeRun (some layer) l ++ s.changesFrom (s.layerAfter (before ++ l)) [] rest.flatten := by
  rw [implicitLayer?_run hall] at h
  split at h
  · cases h
  · rename_i hne
    rw [layerAfter_append_of_isContent s before hall, h, changesFrom_content_some hall,
      List.nil_append]
    cases hflat : rest.flatten with
    | nil => exact absurd (hrest.flatten_eq_nil hflat) hne
    | cons a tail =>
      have ha : s.isContent a = false := hnext a (by rw [hflat]; rfl)
      rw [changesFrom_other ha, changesFrom_other ha, closeRun_nil, List.nil_append]

end ScanRun
end Stylesheet

namespace Change

theorem placed_append_keep (n : Nat) (l : List NodeId) (cs : List Change) :
    placed n (l.map .keep ++ cs) = l ++ placed n cs := by
  induction l with
  | nil => rfl
  | cons a l ih => simp [placed, ih]

theorem wrapped_append_keep (l : List NodeId) (cs : List Change) :
    wrapped (l.map .keep ++ cs) = wrapped cs := by
  induction l with
  | nil => rfl
  | cons a l ih => simp [wrapped, ih]

theorem placed_changeAlone (s : Stylesheet) (current : Option Layer) (id : NodeId) (n : Nat)
    (cs : List Change) : placed n (s.changeAlone current id :: cs) = id :: placed n cs := by
  unfold Stylesheet.changeAlone
  split <;> rfl

theorem wrapped_changeAlone (s : Stylesheet) (current : Option Layer) (id : NodeId)
    (cs : List Change) : wrapped (s.changeAlone current id :: cs) = wrapped cs := by
  unfold Stylesheet.changeAlone
  split <;> rfl

theorem ids_changeAlone (s : Stylesheet) (current : Option Layer) (id : NodeId) :
    (s.changeAlone current id).ids = [id] := by
  unfold Stylesheet.changeAlone
  split <;> rfl

end Change

namespace Stylesheet

/-- The scan wraps the implicitly layered runs and leaves the order as it is. -/
theorem changesFrom_flatten {s : Stylesheet} {rs : List (List NodeId)} (h : Runs s.isContent rs)
    (before : List NodeId) (n : Nat) :
    Change.placed n (s.changesFrom (s.layerAfter before) [] rs.flatten) =
        s.regrouped n before rs ∧
      (Change.wrapped (s.changesFrom (s.layerAfter before) [] rs.flatten)).map
          (fun w => (w.1, w.2.1 :: w.2.2)) =
        s.implicitRuns before rs := by
  induction h generalizing before n with
  | nil => exact ⟨rfl, rfl⟩
  | @other a rest ha _ ih =>
    obtain ⟨hplaced, hwrapped⟩ := ih (before ++ [a]) n
    rw [List.flatten_cons, List.singleton_append, changesFrom_alone ha, Change.placed_changeAlone,
      Change.wrapped_changeAlone, regrouped, implicitRuns, implicitLayer?_other ha, hplaced,
      hwrapped]
    exact ⟨rfl, rfl⟩
  | @run l rest hne hall hnext hrest ih =>
    rw [List.flatten_cons, regrouped, implicitRuns]
    cases himplicit : s.implicitLayer? before l rest with
    | none =>
      obtain ⟨hplaced, hwrapped⟩ := ih (before ++ l) n
      rw [changesFrom_of_implicitLayer?_eq_none hall himplicit, Change.placed_append_keep,
        Change.wrapped_append_keep, hplaced, hwrapped]
      exact ⟨rfl, rfl⟩
    | some layer =>
      obtain ⟨hplaced, hwrapped⟩ := ih (before ++ l) (n + 1)
      rw [changesFrom_of_implicitLayer?_eq_some hall hrest hnext himplicit]
      obtain ⟨first, more, rfl⟩ := List.exists_cons_of_ne_nil hne
      constructor
      · exact congrArg (_ :: ·) hplaced
      · exact congrArg (_ :: ·) hwrapped

end Stylesheet
end UtilityCss
