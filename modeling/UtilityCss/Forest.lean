/-!
# Forests

An ordered forest of labelled trees, first tree first: its root label, the forest below that root,
and the remaining trees.
-/
namespace UtilityCss

inductive Forest (α : Type)
  | nil
  | cons (label : α) (children rest : Forest α)
  deriving DecidableEq, Repr

namespace Forest

variable {α β : Type}

def isEmpty : Forest α → Bool
  | nil => true
  | cons .. => false

def map (f : α → β) : Forest α → Forest β
  | nil => nil
  | cons a children rest => cons (f a) (children.map f) (rest.map f)

/-- The labels, each before those below it. -/
def preorder : Forest α → List α
  | nil => []
  | cons a children rest => a :: (children.preorder ++ rest.preorder)

def roots : Forest α → List α
  | nil => []
  | cons a _ rest => a :: rest.roots

def inner : Forest α → List α
  | nil => []
  | cons _ children rest => children.preorder ++ rest.inner

def append : Forest α → Forest α → Forest α
  | nil, other => other
  | cons a children rest, other => cons a children (rest.append other)

def size : Forest α → Nat
  | nil => 0
  | cons _ children rest => children.size + rest.size + 1

theorem preorder_map (f : α → β) (t : Forest α) : (t.map f).preorder = t.preorder.map f := by
  induction t with
  | nil => rfl
  | cons a children rest ihc ihr => simp [map, preorder, ihc, ihr]

theorem length_preorder (t : Forest α) : t.preorder.length = t.size := by
  induction t with
  | nil => rfl
  | cons a children rest ihc ihr =>
    simp only [preorder, List.length_cons, List.length_append, ihc, ihr, size]

end Forest
end UtilityCss
