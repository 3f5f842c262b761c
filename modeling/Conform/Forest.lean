/-!
# Forests

A row of ordered trees: each tree is a root with the forest below it, followed
by the trees to its right.
-/

namespace Conform

universe u v w

/-- A row of ordered trees with a label at every node. -/
inductive Forest (α : Type u) where
  | nil
  | cons (root : α) (below rest : Forest α)
  deriving DecidableEq, Repr, Inhabited

namespace Forest

variable {α : Type u} {β : Type v}

def map (f : α → β) : Forest α → Forest β
  | nil => nil
  | cons root below rest => cons (f root) (below.map f) (rest.map f)

def size : Forest α → Nat
  | nil => 0
  | cons _ below rest => below.size + rest.size + 1

def preorder : Forest α → List α
  | nil => []
  | cons root below rest => root :: (below.preorder ++ rest.preorder)

/-- The labels of the trees' roots, from left to right. -/
def roots : Forest α → List α
  | nil => []
  | cons root _ rest => root :: rest.roots

/-- The labels of the nodes with nothing below them, from left to right. -/
def leaves : Forest α → List α
  | nil => []
  | cons root nil rest => root :: rest.leaves
  | cons _ below rest => below.leaves ++ rest.leaves

def isEmpty : Forest α → Bool
  | nil => true
  | cons .. => false

def append : Forest α → Forest α → Forest α
  | nil, other => other
  | cons root below rest, other => cons root below (rest.append other)

/-- The trees whose roots satisfy a test; what is below a root is not tested. -/
def filterRoots (keep : α → Bool) : Forest α → Forest α
  | nil => nil
  | cons root below rest =>
    if keep root then cons root below (rest.filterRoots keep) else rest.filterRoots keep

/-- The first tree whose root satisfies a test, as its root and the forest below. -/
def findRoot? (test : α → Bool) : Forest α → Option (α × Forest α)
  | nil => none
  | cons root below rest => if test root then some (root, below) else rest.findRoot? test

@[simp] theorem length_preorder (forest : Forest α) : forest.preorder.length = forest.size := by
  induction forest with
  | nil => rfl
  | cons root below rest hbelow hrest => simp [preorder, size, hbelow, hrest]

@[simp] theorem preorder_map (f : α → β) (forest : Forest α) :
    (forest.map f).preorder = forest.preorder.map f := by
  induction forest with
  | nil => rfl
  | cons root below rest hbelow hrest => simp [map, preorder, hbelow, hrest]

@[simp] theorem map_map {γ : Type w} (f : α → β) (g : β → γ) (forest : Forest α) :
    (forest.map f).map g = forest.map (g ∘ f) := by
  induction forest with
  | nil => rfl
  | cons root below rest hbelow hrest => simp [map, hbelow, hrest]

end Forest

end Conform
