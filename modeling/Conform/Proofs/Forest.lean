import Conform.Forest
/-!
# Rows of trees

A forest read as the list of its trees, each a root with the forest below it.
What forests are asked for then are questions about lists. Conditions on rows
are meant for the row at the top and for every row below it.
-/

namespace Conform.Forest

universe u v w

variable {α : Type u} {β : Type v}

def trees : Forest α → List (α × Forest α)
  | nil => []
  | cons root below rest => (root, below) :: rest.trees

@[simp] theorem trees_cons (root : α) (below rest : Forest α) :
    (cons root below rest).trees = (root, below) :: rest.trees := rfl

theorem roots_eq (forest : Forest α) : forest.roots = forest.trees.map (·.1) := by
  induction forest with
  | nil => rfl
  | cons root below rest _ ih => rw [roots, trees_cons, List.map_cons, ih]

theorem mem_roots_of_mem_trees {forest : Forest α} {tree : α × Forest α}
    (htree : tree ∈ forest.trees) : tree.1 ∈ forest.roots := by
  rw [roots_eq]
  exact List.mem_map_of_mem htree

theorem findRoot?_eq (forest : Forest α) (test : α → Bool) :
    forest.findRoot? test = forest.trees.find? fun tree => test tree.1 := by
  induction forest with
  | nil => rfl
  | cons root below rest _ ih =>
    rw [findRoot?, trees_cons, List.find?_cons, ih]
    cases test root <;> rfl

@[simp] theorem trees_append (forest other : Forest α) :
    (forest.append other).trees = forest.trees ++ other.trees := by
  induction forest with
  | nil => rfl
  | cons root below rest _ ih => rw [append, trees_cons, trees_cons, ih, List.cons_append]

@[simp] theorem trees_filterRoots (forest : Forest α) (keep : α → Bool) :
    (forest.filterRoots keep).trees = forest.trees.filter fun tree => keep tree.1 := by
  induction forest with
  | nil => rfl
  | cons root below rest _ ih =>
    rw [filterRoots, trees_cons, List.filter_cons]
    cases keep root <;> simp [ih]

@[simp] theorem trees_map (f : α → β) (forest : Forest α) :
    (forest.map f).trees = forest.trees.map fun tree => (f tree.1, tree.2.map f) := by
  induction forest with
  | nil => rfl
  | cons root below rest _ ih => rw [map, trees_cons, trees_cons, List.map_cons, ih]

theorem roots_map (f : α → β) (forest : Forest α) : (forest.map f).roots = forest.roots.map f := by
  rw [roots_eq, roots_eq, trees_map, List.map_map, List.map_map]
  rfl

theorem isEmpty_eq (forest : Forest α) : forest.isEmpty = forest.trees.isEmpty := by
  cases forest <;> rfl

theorem isEmpty_iff (forest : Forest α) : forest.isEmpty = true ↔ forest = nil := by
  cases forest <;> simp [isEmpty]

@[simp] theorem isEmpty_map (f : α → β) (forest : Forest α) :
    (forest.map f).isEmpty = forest.isEmpty := by
  cases forest <;> rfl

@[simp] theorem size_map (f : α → β) (forest : Forest α) : (forest.map f).size = forest.size := by
  rw [← length_preorder, ← length_preorder, preorder_map, List.length_map]

theorem size_eq_of_map_eq {γ : Type w} {f : α → γ} {g : β → γ} {forest : Forest α}
    {other : Forest β} (h : forest.map f = other.map g) : forest.size = other.size := by
  rw [← size_map f, h, size_map]

theorem append_nil (forest : Forest α) : forest.append nil = forest := by
  induction forest with
  | nil => rfl
  | cons root below rest _ ih => rw [append, ih]

theorem eq_nil_of_trees {forest : Forest α} (h : forest.trees = []) : forest = nil := by
  cases forest with
  | nil => rfl
  | cons => cases h

theorem eq_of_trees {forest other : Forest α} (h : forest.trees = other.trees) :
    forest = other := by
  induction forest generalizing other with
  | nil => exact (eq_nil_of_trees h.symm).symm
  | cons root below rest _ ih =>
    cases other with
    | nil => cases h
    | cons root' below' rest' =>
      rw [trees_cons, trees_cons, List.cons.injEq, Prod.mk.injEq] at h
      obtain ⟨⟨rfl, rfl⟩, hrest⟩ := h
      rw [ih hrest]

theorem mem_leaves_cons {root : α} {below rest : Forest α} {label : α} :
    label ∈ (cons root below rest).leaves ↔
      (below = nil ∧ label = root) ∨ label ∈ below.leaves ∨ label ∈ rest.leaves := by
  cases below with
  | nil => simp [leaves]
  | cons => simp [leaves]

theorem leaves_map (f : α → β) (forest : Forest α) : (forest.map f).leaves = forest.leaves.map f := by
  induction forest with
  | nil => rfl
  | cons root below rest ihbelow ihrest =>
    cases below with
    | nil => simp [map, leaves, ihrest]
    | cons first down right =>
      rw [map] at ihbelow
      simp [map, leaves, ihbelow, ihrest]

/-- The nodes that pass a test together with all above them. -/
def sift (keep : α → Bool) : Forest α → Forest α
  | nil => nil
  | cons root below rest =>
    if keep root then cons root (below.sift keep) (rest.sift keep) else rest.sift keep

theorem sift_eq_self {keep : α → Bool} (h : ∀ label, keep label = true) (forest : Forest α) :
    forest.sift keep = forest := by
  induction forest with
  | nil => rfl
  | cons root below rest ihbelow ihrest => rw [sift, if_pos (h root), ihbelow, ihrest]

@[simp] theorem roots_sift (forest : Forest α) (keep : α → Bool) :
    (forest.sift keep).roots = forest.roots.filter keep := by
  induction forest with
  | nil => rfl
  | cons root below rest _ ih => cases h : keep root <;> simp [sift, roots, h, ih]

theorem preorder_sift (forest : Forest α) (keep : α → Bool) :
    (forest.sift keep).preorder.Sublist forest.preorder := by
  induction forest with
  | nil => exact .slnil
  | cons root below rest ihbelow ihrest =>
    rw [sift]
    cases keep root with
    | true => exact (ihbelow.append ihrest).cons_cons root
    | false => exact (ihrest.trans (List.sublist_append_right _ _)).cons root

/-- The rows right below the nodes, in pre-order of the nodes. -/
def rows : Forest α → List (List α)
  | nil => []
  | cons _ below rest => below.roots :: (below.rows ++ rest.rows)

theorem rows_map (f : α → β) (forest : Forest α) :
    (forest.map f).rows = forest.rows.map (·.map f) := by
  induction forest with
  | nil => rfl
  | cons root below rest ihbelow ihrest => simp [map, rows, roots_map, ihbelow, ihrest]

/-- Forests of one shape with the same labels in pre-order are the same. -/
theorem eq_of_preorder {forest other : Forest α}
    (hshape : (forest.map fun _ => ()) = other.map fun _ => ())
    (h : forest.preorder = other.preorder) : forest = other := by
  induction forest generalizing other with
  | nil =>
    cases other with
    | nil => rfl
    | cons => cases h
  | cons root below rest ihbelow ihrest =>
    cases other with
    | nil => cases h
    | cons root' below' rest' =>
      simp only [map, cons.injEq, true_and] at hshape
      simp only [preorder, List.cons.injEq] at h
      have hlength : below.preorder.length = below'.preorder.length := by
        rw [length_preorder, length_preorder, size_eq_of_map_eq hshape.1]
      obtain ⟨hbelow, hrest⟩ := List.append_inj h.2 hlength
      rw [h.1, ihbelow hshape.1 hbelow, ihrest hshape.2 hrest]

/-- A condition on rows that the row at the top and every row below satisfies. -/
inductive EachRow (good : List α → Prop) : Forest α → Prop
  | intro {forest : Forest α} (row : good forest.roots)
      (down : ∀ tree ∈ forest.trees, EachRow good tree.2) : EachRow good forest

namespace EachRow

variable {good : List α → Prop} {forest : Forest α}

theorem row (h : EachRow good forest) : good forest.roots := by
  cases h with
  | intro row _ => exact row

theorem down (h : EachRow good forest) {tree : α × Forest α} (htree : tree ∈ forest.trees) :
    EachRow good tree.2 := by
  cases h with
  | intro _ down => exact down tree htree

theorem map {good' : List β → Prop} (f : α → β) (hgood : ∀ row, good row → good' (row.map f))
    (h : EachRow good forest) : EachRow good' (forest.map f) := by
  induction h with
  | @intro forest row _ ih =>
    refine .intro ?_ fun tree htree => ?_
    · rw [roots_map]
      exact hgood _ row
    · rw [trees_map, List.mem_map] at htree
      obtain ⟨former, hformer, rfl⟩ := htree
      exact ih former hformer

end EachRow

end Conform.Forest
