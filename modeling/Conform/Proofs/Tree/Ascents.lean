import Conform.Proofs.Tree.Reachable
/-!
# Ways up

What is read off the way up from a node: its path, the paths that lead to it
from an ancestor or from where another path ends, and the heights above it.
Each can be told from what it is for the parent, so that all of them are
followed from the root downward, one name at a time.
-/

namespace Conform

universe u

theorem Path.appendAll_inj {path rest other : Path} :
    path.appendAll rest.segments = path.appendAll other.segments ↔ rest = other := by
  obtain ⟨names⟩ := rest
  obtain ⟨others⟩ := other
  simp [Path.appendAll]

namespace Tree

variable {P : Type u} {tree : Tree P}

theorem Line.exists_cons {id : NodeId} {line : List NodeId} (h : tree.Line id line) :
    ∃ rest, line = id :: rest := by
  cases h with
  | root => exact ⟨_, rfl⟩
  | child _ _ => exact ⟨_, rfl⟩

theorem map_fst_ascent {id : NodeId} (hid : tree.contains id = true) :
    (tree.ascent id).map (·.1) = tree.lineage id := by
  rw [ascent, if_pos hid, List.map_map]
  exact List.zipIdx_map_fst _ _

/-- A node is another one or an ancestor of it, by the links to parents. -/
inductive Above (tree : Tree P) (ancestor : NodeId) : NodeId → Prop
  | self : Above tree ancestor ancestor
  | child {id parent : NodeId} (link : tree.parent? id = some parent)
      (up : Above tree ancestor parent) : Above tree ancestor id

theorem Above.trans {top middle id : NodeId} (h : tree.Above top middle)
    (hbelow : tree.Above middle id) : tree.Above top id := by
  induction hbelow with
  | self => exact h
  | child link _ ih => exact .child link ih

namespace Linked

variable {ancestor id parent : NodeId}

theorem isAbove_iff (h : tree.Linked) (hid : tree.contains id = true) :
    tree.isAbove ancestor id = true ↔ tree.Above ancestor id := by
  constructor
  · refine h.up_induction (motive := fun id => tree.isAbove ancestor id = true →
      tree.Above ancestor id) ?_ ?_ hid
    · intro habove
      rw [h.isAbove_root_iff.mp habove]
      exact .self
    · intro id parent hlink ih habove
      rcases (h.isAbove_child_iff hlink).mp habove with rfl | habove
      · exact .self
      · exact .child hlink (ih habove)
  · intro habove
    induction habove with
    | self => exact h.isAbove_self hid
    | child link _ ih => exact (h.isAbove_child_iff link).mpr (.inr (ih (h.contains_parent link)))

theorem contains_of_above (h : tree.Linked) (hid : tree.contains id = true)
    (habove : tree.Above ancestor id) : tree.contains ancestor = true := by
  induction habove with
  | self => exact hid
  | child link _ ih => exact ih (h.contains_parent link)

theorem ne_of_above_parent (h : tree.Linked) (hlink : tree.parent? id = some parent)
    (habove : tree.Above ancestor parent) : id ≠ ancestor := by
  rintro rfl
  exact h.not_isAbove_parent hlink ((h.isAbove_iff (h.contains_parent hlink)).mpr habove)

/-! ## Paths -/

theorem path_root (h : tree.Linked) : tree.path root = ⟨[tree.title root]⟩ := by
  rw [path, h.lineage_root]
  simp [h.contains_root]

theorem path_child (h : tree.Linked) (hlink : tree.parent? id = some parent) :
    tree.path id = (tree.path parent).append (tree.title id) := by
  rw [path, path, h.lineage_child hlink]
  simp [contains_of_parent? hlink, Path.append]

theorem path_ne_empty (h : tree.Linked) (hid : tree.contains id = true) :
    tree.path id ≠ .empty := by
  cases h.rooted hid with
  | root => simp [h.path_root, Path.empty]
  | child link _ => simp [h.path_child link, Path.append, Path.empty]

/-! ## Paths from an ancestor -/

theorem isAbove_of_pathFrom? {rest : Path} (hpath : tree.pathFrom? ancestor id = some rest) :
    tree.isAbove ancestor id = true := by
  rw [pathFrom?] at hpath
  split at hpath
  · next habove => exact habove
  · cases hpath

theorem pathFrom?_self (h : tree.Linked) (hid : tree.contains id = true) :
    tree.pathFrom? id id = some .empty := by
  obtain ⟨rest, hline⟩ := (h.line_lineage hid).exists_cons
  rw [pathFrom?, hline]
  simp [Path.empty]

theorem pathFrom?_of_ne (h : tree.Linked) (hlink : tree.parent? id = some parent)
    (hne : id ≠ ancestor) :
    tree.pathFrom? ancestor id =
      (tree.pathFrom? ancestor parent).map (·.append (tree.title id)) := by
  have hkeep : (id != ancestor) = true := bne_iff_ne.mpr hne
  have hcontains : (id :: tree.lineage parent).contains ancestor =
      (tree.lineage parent).contains ancestor := by
    rw [List.contains_cons]
    simp [Ne.symm hne]
  rw [pathFrom?, pathFrom?, h.lineage_child hlink, List.takeWhile_cons, if_pos hkeep, hcontains]
  split <;> simp [Path.append]

/-- The path from an ancestor is what is behind the ancestor's own path. -/
theorem exists_pathFrom? (h : tree.Linked) (hid : tree.contains id = true)
    (habove : tree.Above ancestor id) :
    ∃ rest, tree.pathFrom? ancestor id = some rest ∧
      tree.path id = (tree.path ancestor).appendAll rest.segments := by
  induction habove with
  | self => exact ⟨.empty, h.pathFrom?_self hid, by simp [Path.appendAll, Path.empty]⟩
  | @child id parent link up ih =>
    obtain ⟨rest, hrest, hpath⟩ := ih (h.contains_parent link)
    refine ⟨rest.append (tree.title id), ?_, ?_⟩
    · rw [h.pathFrom?_of_ne link (h.ne_of_above_parent link up), hrest, Option.map_some]
    · rw [h.path_child link, hpath]
      simp [Path.append, Path.appendAll]

theorem pathFrom?_eq_some_iff (h : tree.Linked) (hid : tree.contains id = true) {rest : Path} :
    tree.pathFrom? ancestor id = some rest ↔
      tree.Above ancestor id ∧ tree.path id = (tree.path ancestor).appendAll rest.segments := by
  constructor
  · intro hrest
    have habove := (h.isAbove_iff hid).mp (isAbove_of_pathFrom? hrest)
    obtain ⟨found, hfound, hpath⟩ := h.exists_pathFrom? hid habove
    rw [hrest] at hfound
    cases hfound
    exact ⟨habove, hpath⟩
  · rintro ⟨habove, hpath⟩
    obtain ⟨found, hfound, hpath'⟩ := h.exists_pathFrom? hid habove
    rw [hpath, Path.appendAll_inj] at hpath'
    rw [hfound, hpath']

/-! ## Paths below a path -/

theorem exists_above_of_startsWith (h : tree.Linked) (hid : tree.contains id = true) {path : Path}
    (hne : path ≠ .empty) (hpath : (tree.path id).startsWith path = true) :
    ∃ ancestor, tree.Above ancestor id ∧ tree.path ancestor = path := by
  rw [Path.startsWith_iff] at hpath
  revert hpath
  refine h.up_induction (motive := fun id => path.segments <+: (tree.path id).segments →
    ∃ ancestor, tree.Above ancestor id ∧ tree.path ancestor = path) ?_ ?_ hid
  · intro hpath
    rw [h.path_root, ← List.nil_append [tree.title root], List.prefix_concat_iff] at hpath
    rcases hpath with heq | hnil
    · exact ⟨root, .self, by rw [h.path_root, ← List.nil_append [tree.title root], ← heq]⟩
    · exact absurd (congrArg Path.mk (List.prefix_nil.mp hnil)) hne
  · intro id parent hlink ih hpath
    rw [h.path_child hlink, Path.append_segments, List.prefix_concat_iff] at hpath
    rcases hpath with heq | hbefore
    · exact ⟨id, .self, by rw [h.path_child hlink, Path.append, ← heq]⟩
    · obtain ⟨ancestor, habove, hfound⟩ := ih hbefore
      exact ⟨ancestor, .child hlink habove, hfound⟩

theorem path_of_pathBelow? (h : tree.Linked) (hid : tree.contains id = true) {path rest : Path}
    (hrest : tree.pathBelow? id path = some rest) :
    path ≠ .empty ∧ tree.path id = path.appendAll rest.segments := by
  obtain ⟨ancestor, hancestor, hrest⟩ := Option.bind_eq_some_iff.mp hrest
  have hheld := (h.line_lineage hid).contains_of_mem h.contains_root
    (List.mem_of_find?_eq_some hancestor)
  have htest := List.find?_some hancestor
  have hsame : tree.path ancestor = path := eq_of_beq htest
  rw [← hsame]
  exact ⟨h.path_ne_empty hheld, ((h.pathFrom?_eq_some_iff hid).mp hrest).2⟩

theorem exists_pathBelow? (h : tree.Linked) (hid : tree.contains id = true) {path : Path}
    (hne : path ≠ .empty) (hpath : (tree.path id).startsWith path = true) :
    ∃ rest, tree.pathBelow? id path = some rest := by
  obtain ⟨other, hother, hsame⟩ := h.exists_above_of_startsWith hid hne hpath
  rw [← h.isAbove_iff hid, isAbove, List.contains_iff_mem] at hother
  have hsome : ((tree.lineage id).find? (tree.path · == path)).isSome = true :=
    List.find?_isSome.mpr ⟨other, hother, beq_iff_eq.mpr hsame⟩
  obtain ⟨ancestor, hancestor⟩ := Option.isSome_iff_exists.mp hsome
  have habove : tree.isAbove ancestor id = true := by
    rw [isAbove, List.contains_iff_mem]
    exact List.mem_of_find?_eq_some hancestor
  obtain ⟨rest, hrest, _⟩ := h.exists_pathFrom? hid ((h.isAbove_iff hid).mp habove)
  exact ⟨rest, by rw [pathBelow?, hancestor, Option.bind_some, hrest]⟩

theorem pathBelow?_eq_some_iff (h : tree.Linked) (hid : tree.contains id = true)
    {path rest : Path} :
    tree.pathBelow? id path = some rest ↔
      path ≠ .empty ∧ tree.path id = path.appendAll rest.segments := by
  constructor
  · exact h.path_of_pathBelow? hid
  · rintro ⟨hne, hpath⟩
    have hbegins : (tree.path id).startsWith path = true := by
      rw [Path.startsWith_iff, hpath]
      exact List.prefix_append _ _
    obtain ⟨found, hfound⟩ := h.exists_pathBelow? hid hne hbegins
    have hsame := (h.path_of_pathBelow? hid hfound).2
    rw [hpath, Path.appendAll_inj] at hsame
    rw [hfound, hsame]

/-! ## The walk up -/

theorem path_segments (h : tree.Linked) (hid : tree.contains id = true) :
    (tree.path id).segments = (tree.lineage id).reverse.map tree.title := by
  have hall : (tree.lineage id).filter tree.contains = tree.lineage id :=
    List.filter_eq_self.mpr fun _ => (h.line_lineage hid).contains_of_mem h.contains_root
  rw [path, hall]

theorem map_snd_ascent (h : tree.Linked) (hid : tree.contains id = true) :
    (tree.ascent id).map (·.2) =
      (List.range (tree.path id).length).map fun height : Nat => -(height : Int) := by
  have hlength : (tree.path id).length = (tree.lineage id).length := by
    rw [Path.length, h.path_segments hid, List.length_map, List.length_reverse]
  calc (tree.ascent id).map (·.2)
      = ((tree.lineage id).zipIdx.map (·.2)).map fun height : Nat => -(height : Int) := by
        rw [ascent, if_pos hid, List.map_map, List.map_map]
        rfl
    _ = (List.range (tree.path id).length).map fun height : Nat => -(height : Int) := by
        rw [List.zipIdx_map_snd, List.range_eq_range', hlength]

end Linked

/-- The path of a node is that of its parent and its own name behind it; the root has one name. A
path below another one is what the path of the node has behind that one, and a path from an ancestor
what it has behind the ancestor's. The walk up comes to the node, its parent and so on to the root at
heights counted down from zero, and the names on it read backwards are the path. -/
theorem paths_read_upward {good : P → Prop} (hreach : Reachable good tree) {id : NodeId}
    (hid : tree.contains id = true) :
    (tree.path root = ⟨[tree.title root]⟩ ∧ (id ≠ root → ∃ parent, tree.parent? id = some parent ∧
      tree.path id = (tree.path parent).append (tree.title id))) ∧
    (∀ path rest, tree.pathBelow? id path = some rest ↔
      path ≠ .empty ∧ tree.path id = path.appendAll rest.segments) ∧
    (∀ ancestor, ((∃ rest, tree.pathFrom? ancestor id = some rest) ↔ tree.Above ancestor id) ∧
      ∀ rest, tree.pathFrom? ancestor id = some rest →
        tree.path id = (tree.path ancestor).appendAll rest.segments) ∧
    ∃ line, tree.Line id line ∧ (tree.ascent id).map (·.1) = line ∧
      (tree.ascent id).map (·.2) =
        (List.range (tree.path id).length).map (fun height : Nat => -(height : Int)) ∧
      line.reverse.map tree.title = (tree.path id).segments := by
  have h := hreach.linked
  refine ⟨⟨h.path_root, fun hne => ?_⟩, fun path rest => h.pathBelow?_eq_some_iff hid, ?_, ?_⟩
  · obtain ⟨parent, hlink⟩ := h.exists_parent hid hne
    exact ⟨parent, hlink, h.path_child hlink⟩
  · refine fun ancestor => ⟨⟨?_, fun habove => ?_⟩, fun rest hrest => ?_⟩
    · rintro ⟨rest, hrest⟩
      exact ((h.pathFrom?_eq_some_iff hid).mp hrest).1
    · obtain ⟨rest, hrest, _⟩ := h.exists_pathFrom? hid habove
      exact ⟨rest, hrest⟩
    · exact ((h.pathFrom?_eq_some_iff hid).mp hrest).2
  · exact ⟨tree.lineage id, h.line_lineage hid, map_fst_ascent hid, h.map_snd_ascent hid,
      (h.path_segments hid).symm⟩

private def lake : Tree Nat :=
  ofOutline ⟨⟨some "lake", 0⟩,
    .cons ⟨none, 1⟩ (.cons ⟨some "reed", 2⟩ (.cons ⟨some "reed", 3⟩ .nil .nil) .nil)
      (.cons ⟨some "reed", 4⟩ .nil .nil)⟩

theorem paths_read_upward_lake :
    Reachable (fun _ => True) lake ∧ lake.contains 3 = true ∧
    lake.path 3 = ⟨["lake", "", "reed", "reed"]⟩ ∧
    lake.pathBelow? 3 ⟨["lake", ""]⟩ = some ⟨["reed", "reed"]⟩ ∧
    lake.pathBelow? 3 ⟨["lake", "reed"]⟩ = none ∧
    lake.Above 1 3 ∧ ¬lake.Above 4 3 ∧
    (∃ rest, lake.pathFrom? 2 3 = some rest ∧ lake.path 3 = (lake.path 2).appendAll rest.segments) ∧
    lake.Line 3 [3, 2, 1, 0] ∧ (lake.ascent 3).map (·.2) = [0, -1, -2, -3] := by
  have hreach : Reachable (fun _ => True) lake := reachable_ofOutline _ trivial fun _ _ => trivial
  obtain ⟨⟨_, hparent⟩, hbelow, hfrom, line, hline, hnodes, hheights, _⟩ :=
    paths_read_upward hreach (show lake.contains 3 = true from rfl)
  obtain ⟨parent, hlink, hpath⟩ := hparent (by decide)
  have htwo : lake.parent? 3 = some 2 := rfl
  rw [htwo] at hlink
  cases hlink
  have hall : lake.path 3 = ⟨["lake", "", "reed", "reed"]⟩ := hpath
  refine ⟨hreach, rfl, hall, (hbelow _ _).mpr ⟨by decide, hall⟩, ?_, (hfrom 1).1.mp ⟨_, rfl⟩, ?_,
    ⟨_, rfl, (hfrom 2).2 _ rfl⟩, ?_, hheights⟩
  · apply Option.eq_none_iff_forall_ne_some.mpr
    intro rest hrest
    have hwrong := ((hbelow _ _).mp hrest).2
    rw [hall] at hwrong
    simp [Path.appendAll] at hwrong
  · intro habove
    obtain ⟨rest, hrest⟩ := (hfrom 4).1.mpr habove
    cases hrest
  · rw [← hnodes] at hline
    exact hline

end Tree

end Conform
