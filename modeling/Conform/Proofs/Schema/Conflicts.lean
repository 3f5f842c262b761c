import Conform.Proofs.Failure
import Conform.Proofs.Schema.Merge
import Conform.Proofs.Tree.Ways
/-!
# Conflicts of schemas

Two schemas cannot be merged when they clash at some path below the root, and
then the failure is that of the first such path in the pre-order of the first
schema. Merging goes down only where both have nodes with children; nothing is
missed by that, since where one has a leaf they have no longer path in common.
-/

namespace Conform

universe u

open Conform.Tree (root NamedRow NumberedRow)

theorem Tree.NamedRow.named?_of_mem {P : Type u} {forest : Forest (Label P)}
    (hrow : NamedRow forest.roots) {tree : Label P × Forest (Label P)} (htree : tree ∈ forest.trees)
    {name : String} (hname : tree.1.name? = some name) : forest.named? name = some tree := by
  have hnodup : (forest.trees.map fun tree => tree.1.name?).Nodup := by
    have hnames := hrow.2
    rwa [Forest.roots_eq, List.map_map] at hnames
  rw [Forest.named?]
  exact find?_of_nodup hnodup htree hname

namespace Schema

/-- A schema whose nodes are told apart by their paths, with its outline. -/
structure Outlined (schema : Schema) (outline : Outline Entry) : Prop where
  linked : schema.Linked
  named : schema.Named
  outline? : schema.outline? root = some outline

theorem exists_outlined {good : Entry → Prop} {schema : Schema}
    (hreachable : Tree.Reachable good schema) (hnamed : schema.Named) :
    ∃ outline, Outlined schema outline := by
  have hlinked := hreachable.linked
  obtain ⟨node, hnode⟩ := Tree.contains_iff.mp hlinked.contains_root
  exact ⟨_, hlinked, hnamed, Tree.outline?_of_find? hnode⟩

theorem Outlined.eachRow {schema : Schema} {outline : Outline Entry}
    (h : Outlined schema outline) : outline.below.EachRow NamedRow := by
  rw [← Tree.labelsBelow_of_outline? h.outline?]
  exact eachRow_labelsBelow h.named h.linked

/-- Why nodes at one path of two schemas cannot become one, if they cannot: both are leaves and one
has no kind, or both are leaves of different kinds or cardinalities, or only one of them is a leaf. -/
def clash? (path : Path) (ourLeaf theirLeaf : Bool) (ours theirs : Entry) : Option Failure :=
  if ourLeaf = true ∧ theirLeaf = true ∧ (ours.kind? = none ∨ theirs.kind? = none) then
    some (.misuse (.untypedLeaf path))
  else if ourLeaf = true ∧ theirLeaf = true ∧
        (ours.kind? ≠ theirs.kind? ∨ ours.cardinality ≠ theirs.cardinality) ∨
      ourLeaf ≠ theirLeaf then
    some (.mismatch path ours.describe theirs.describe)
  else none

/-- The clash of the nodes at a path, where there are nodes in both schemas. -/
def clashAt? (a b : Schema) (path : Path) : Option Failure := do
  let ours ← a.resolve? root path
  let theirs ← b.resolve? root path
  clash? path (a.isLeaf ours) (b.isLeaf theirs) (← a.payload? ours) (← b.payload? theirs)

/-! ## Clashes of outlines -/

def clashOf? (path : Path) (ours theirs : Outline Entry) : Option Failure :=
  clash? path ours.below.isEmpty theirs.below.isEmpty ours.root.payload theirs.root.payload

def clashBelow? (place : Path) (ours theirs : Outline Entry) (names : List String) :
    Option Failure := do
  clashOf? (place.appendAll names) (← ours.at? names) (← theirs.at? names)

def clashesBelow (place : Path) (ours theirs : Outline Entry) : List Failure :=
  ours.below.ways.flatMap fun names => (clashBelow? place ours theirs names).toList

/-- The clashes of a tree of a row with the one of the same name in another row. -/
def clashesWith (place : Path) (theirs : Forest (NodeId × Label Entry))
    (tree : Label Entry × Forest (Label Entry)) : List Failure :=
  match partner? theirs tree.1.title with
  | none => []
  | some found =>
    let path := place.append tree.1.title
    let other : Outline Entry := ⟨found.1.2, found.2.map (·.2)⟩
    (clashOf? path ⟨tree.1, tree.2⟩ other).toList ++ clashesBelow path ⟨tree.1, tree.2⟩ other

theorem clashBelow?_nil (place : Path) (ours theirs : Outline Entry) :
    clashBelow? place ours theirs [] = clashOf? place ours theirs := by
  show clashOf? (place.appendAll []) ours theirs = clashOf? place ours theirs
  rw [Path.appendAll, List.append_nil]

theorem clashBelow?_cons {place : Path} {ours : Forest (Label Entry)} (hrow : NamedRow ours.roots)
    (theirs : Forest (NodeId × Label Entry)) (label other : Label Entry)
    {tree : Label Entry × Forest (Label Entry)} (htree : tree ∈ ours.trees) (rest : List String) :
    clashBelow? place ⟨label, ours⟩ ⟨other, theirs.map (·.2)⟩ (tree.1.title :: rest) =
      (partner? theirs tree.1.title).bind fun found =>
        clashBelow? (place.append tree.1.title) ⟨tree.1, tree.2⟩
          ⟨found.1.2, found.2.map (·.2)⟩ rest := by
  obtain ⟨name, hname⟩ := hrow.1 tree.1 (Forest.mem_roots_of_mem_trees htree)
  have hpath : place.appendAll (name :: rest) = (place.append name).appendAll rest := by
    simp [Path.appendAll, Path.append]
  rw [title_of_name? hname, clashBelow?, Outline.at?_cons, Outline.at?_cons,
    hrow.named?_of_mem htree hname, named?_map_snd, hpath]
  cases partner? theirs name with
  | none => simp
  | some found => rfl

theorem clashesBelow_eq {place : Path} {ours : Forest (Label Entry)} (hrow : NamedRow ours.roots)
    (theirs : Forest (NodeId × Label Entry)) (label other : Label Entry) :
    clashesBelow place ⟨label, ours⟩ ⟨other, theirs.map (·.2)⟩ =
      ours.trees.flatMap (clashesWith place theirs) := by
  rw [clashesBelow, Forest.ways_eq, List.flatMap_assoc]
  apply List.flatMap_congr
  intro tree htree
  rw [List.flatMap_map, clashesWith]
  simp only [clashBelow?_cons hrow theirs label other htree]
  cases partner? theirs tree.1.title with
  | none => simp
  | some found =>
    simp only [Option.bind_some]
    rw [List.flatMap_cons, clashBelow?_nil]
    rfl

/-! ## Failures of merging -/

theorem reports_checkLeaves (path : Path) (ours theirs : Entry) :
    Reports (checkLeaves path ours theirs) (clash? path true true ours theirs).toList := by
  have hkinds : (ours.kind?.isNone || theirs.kind?.isNone) = true ↔
      ours.kind? = none ∨ theirs.kind? = none := by
    simp
  have hshape : ours.sameShape theirs = true ↔
      ours.kind? = theirs.kind? ∧ ours.cardinality = theirs.cardinality := by
    simp [Entry.sameShape]
  have hclash : ((ours.kind? ≠ theirs.kind? ∨ ours.cardinality ≠ theirs.cardinality) ∨
        true ≠ true) ↔ ¬(ours.kind? = theirs.kind? ∧ ours.cardinality = theirs.cardinality) := by
    rw [not_and_or]
    simp
  simp only [checkLeaves, clash?, hkinds, hshape, true_and, hclash]
  by_cases huntyped : ours.kind? = none ∨ theirs.kind? = none
  · simp only [if_pos huntyped]
    exact Reports.error _ _
  · by_cases hsame : ours.kind? = theirs.kind? ∧ ours.cardinality = theirs.cardinality
    · simp only [if_neg huntyped, if_pos hsame, if_neg (not_not.mpr hsame)]
      exact Reports.ok ()
    · simp only [if_neg huntyped, if_neg hsame, if_pos hsame]
      exact Reports.error _ _

theorem reports_mergeBelow {path : Path} {ours other : Label Entry} {below : Forest (Label Entry)}
    {otherBelow : Forest (NodeId × Label Entry)} {failures : List Failure}
    (h : Reports (mergeRow path otherBelow below) failures) :
    Reports (mergeBelow path ours other below otherBelow)
      ((clashOf? path ⟨ours, below⟩ ⟨other, otherBelow.map (·.2)⟩).toList ++ failures) := by
  simp only [mergeBelow, clashOf?, Forest.isEmpty_map]
  cases hours : below.isEmpty with
  | true =>
    cases hother : otherBelow.isEmpty with
    | true =>
      obtain rfl := (Forest.isEmpty_iff below).mp hours
      have hnil : failures = [] := h
      rw [hnil, List.append_nil]
      exact (reports_checkLeaves path ours.payload other.payload).map _
    | false => exact Reports.error _ _
  | false =>
    cases hother : otherBelow.isEmpty with
    | true => exact Reports.error _ _
    | false => exact h.map _

theorem reports_mergeRow_of_trees {place : Path} {theirs : Forest (NodeId × Label Entry)}
    {ours : Forest (Label Entry)}
    (h : ∀ tree ∈ ours.trees, ∀ id other otherBelow,
      partner? theirs tree.1.title = some ((id, other), otherBelow) →
      Reports (mergeRow (place.append tree.1.title) otherBelow tree.2)
        (clashesBelow (place.append tree.1.title) ⟨tree.1, tree.2⟩
          ⟨other, otherBelow.map (·.2)⟩)) :
    Reports (mergeRow place theirs ours) (ours.trees.flatMap (clashesWith place theirs)) := by
  induction ours with
  | nil => exact Reports.ok _
  | cons label below rest _ ih =>
    have hrest := ih fun tree htree => h tree (List.mem_cons_of_mem _ htree)
    rw [Forest.trees_cons, List.flatMap_cons, clashesWith]
    cases hfind : partner? theirs label.title with
    | none =>
      rw [mergeRow_cons_missing hfind]
      exact hrest.bind_pure _
    | some found =>
      obtain ⟨⟨id, other⟩, otherBelow⟩ := found
      have hbelow := h (label, below) List.mem_cons_self id other otherBelow hfind
      rw [mergeRow_cons_found hfind]
      exact (reports_mergeBelow hbelow).bind fun _ _ => hrest.bind_pure _

/-- Merging a row fails with the first clash below its place. -/
theorem reports_mergeRow (place : Path) {theirs : Forest (NodeId × Label Entry)}
    {ours : Forest (Label Entry)} (hours : ours.EachRow NamedRow)
    (htheirs : theirs.EachRow NumberedRow) (label other : Label Entry) :
    Reports (mergeRow place theirs ours)
      (clashesBelow place ⟨label, ours⟩ ⟨other, theirs.map (·.2)⟩) := by
  induction hours generalizing place theirs label other with
  | @intro ours row down ih =>
    rw [clashesBelow_eq row]
    apply reports_mergeRow_of_trees
    intro tree htree id partner below hpartner
    exact ih tree htree _ (htheirs.down (mem_trees_of_partner? hpartner)) tree.1 partner

section Outlined

variable {a b : Schema} {ours theirs : Outline Entry}

theorem reports_merge (ha : Outlined a ours) (hb : Outlined b theirs) :
    Reports (a.merge b) (clashesBelow .empty ours theirs) := by
  have hrow := reports_mergeRow .empty ha.eachRow (eachRow_numberedBelow hb.named hb.linked)
    ours.root theirs.root
  rw [map_snd_numberedBelow, Tree.labelsBelow_of_outline? hb.outline?] at hrow
  rw [merge_eq_mergeRows ha.linked hb.linked, mergeRows,
    Tree.labelsBelow_of_outline? ha.outline?]
  exact hrow.bind_pure _

theorem clashAt?_eq (ha : Outlined a ours) (hb : Outlined b theirs) (path : Path) :
    a.clashAt? b path = clashBelow? .empty ours theirs path.segments := by
  rw [clashAt?, clashBelow?]
  cases hid : a.resolve? root path with
  | none => 
    rw [ha.linked.at?_of_resolve?_none ha.outline? hid]
    rfl
  | some id =>
    obtain ⟨place, hplace, hplace'⟩ := ha.linked.at?_of_resolve? ha.outline? hid
    rw [hplace]
    cases hid' : b.resolve? root path with
    | none =>
      rw [hb.linked.at?_of_resolve?_none hb.outline? hid']
      rfl
    | some other =>
      obtain ⟨found, hfound, hfound'⟩ := hb.linked.at?_of_resolve? hb.outline? hid'
      simp only [hfound, Option.bind_eq_bind, Option.bind_some, Tree.payload?_of_outline? hplace',
        Tree.payload?_of_outline? hfound', ha.linked.isLeaf_of_outline? hplace',
        hb.linked.isLeaf_of_outline? hfound']
      rfl

theorem clashesBelow_empty_eq (ha : Outlined a ours) (hb : Outlined b theirs) :
    clashesBelow .empty ours theirs =
      ours.below.ways.flatMap fun names => (a.clashAt? b ⟨names⟩).toList := by
  simp only [clashesBelow, clashAt?_eq ha hb]

/-- The clash at the path of a node other than the root. -/
def clashOn? (a b : Schema) (id : NodeId) : Option Failure :=
  (a.pathFrom? root id).bind fun path => if path = .empty then none else a.clashAt? b path

theorem clashOn?_eq_some_iff {id : NodeId} {failure : Failure} :
    a.clashOn? b id = some failure ↔
      ∃ path, a.pathFrom? root id = some path ∧ path ≠ .empty ∧ a.clashAt? b path = some failure := by
  rw [clashOn?, Option.bind_eq_some_iff]
  simp only [Option.ite_none_left_eq_some]

theorem clashOn?_eq_none_iff {id : NodeId} :
    a.clashOn? b id = none ↔ ∀ place, a.pathFrom? root id = some place → place ≠ .empty →
      a.clashAt? b place = none := by
  rw [clashOn?, Option.bind_eq_none_iff]
  simp only [ite_eq_left_iff, ne_eq]

/-- The clashes along the nodes of the first schema are the clashes below its root. -/
theorem flatMap_clashOn? (ha : Outlined a ours) (hb : Outlined b theirs) :
    ((a.descendants root).flatMap fun id => (a.clashOn? b id).toList) =
      clashesBelow .empty ours theirs := by
  let clash (path? : Option Path) : List Failure :=
    (path?.bind fun path => if path = .empty then none else a.clashAt? b path).toList
  calc (a.descendants root).flatMap (fun id => (a.clashOn? b id).toList)
      = ((a.descendants root).map (a.pathFrom? root)).flatMap clash := by
        rw [List.flatMap_map]
        rfl
    _ = ([] :: ours.below.ways).flatMap fun names => clash (some ⟨names⟩) := by
        rw [ha.linked.pathFrom?_descendants, Tree.labelsBelow_of_outline? ha.outline?,
          List.flatMap_map]
    _ = ours.below.ways.flatMap fun names => (a.clashAt? b ⟨names⟩).toList := by
        rw [List.flatMap_cons]
        apply List.flatMap_congr
        intro names hnames
        simp [clash, Forest.path_ne_empty_of_mem_ways hnames]
    _ = clashesBelow .empty ours theirs := (clashesBelow_empty_eq ha hb).symm

theorem clashesBelow_ne_nil_iff (ha : Outlined a ours) (hb : Outlined b theirs) :
    clashesBelow .empty ours theirs ≠ [] ↔
      ∃ path, path ≠ .empty ∧ (a.clashAt? b path).isSome = true := by
  rw [clashesBelow_empty_eq ha hb]
  constructor
  · intro hne
    obtain ⟨failure, hmem⟩ := List.exists_mem_of_ne_nil _ hne
    obtain ⟨names, hnames, hclash⟩ := List.mem_flatMap.mp hmem
    have hsome : a.clashAt? b ⟨names⟩ = some failure := Option.mem_toList.mp hclash
    exact ⟨⟨names⟩, Forest.path_ne_empty_of_mem_ways hnames, by rw [hsome]; rfl⟩
  · intro ⟨path, hpath, hclash⟩
    obtain ⟨failure, hsome⟩ := Option.isSome_iff_exists.mp hclash
    have hbelow := hsome
    rw [clashAt?_eq ha hb, clashBelow?] at hbelow
    obtain ⟨place, hplace, _⟩ := Option.bind_eq_some_iff.mp hbelow
    have hways : path.segments ∈ ours.below.ways := by
      apply List.mem_of_ne_of_mem _ (Outline.mem_ways_of_at? hplace)
      intro hnil
      exact hpath (congrArg Path.mk hnil)
    apply List.ne_nil_of_mem
    exact List.mem_flatMap.mpr ⟨path.segments, hways, Option.mem_toList.mpr hsome⟩

end Outlined

/-- Two schemas cannot be merged exactly when they clash somewhere below the root. The failure is
the clash at the first node of the first schema, in pre-order, at whose path they clash. -/
theorem merge_error_iff_clash {good good' : Entry → Prop} {a b : Schema}
    (ha : Tree.Reachable good a) (hb : Tree.Reachable good' b) (hnamed : a.Named)
    (hnamed' : b.Named) :
    ((∃ failure, a.merge b = .error failure) ↔
      ∃ path, path ≠ .empty ∧ (a.clashAt? b path).isSome = true) ∧
    ∀ failure, a.merge b = .error failure ↔
      ∃ before id after path, a.descendants root = before ++ id :: after ∧
        a.pathFrom? root id = some path ∧ path ≠ .empty ∧ a.clashAt? b path = some failure ∧
        ∀ earlier ∈ before, ∀ place, a.pathFrom? root earlier = some place → place ≠ .empty →
          a.clashAt? b place = none := by
  obtain ⟨ours, ha⟩ := exists_outlined ha hnamed
  obtain ⟨theirs, hb⟩ := exists_outlined hb hnamed'
  have hmerge := reports_merge ha hb
  constructor
  · rw [hmerge.exists_error_iff, clashesBelow_ne_nil_iff ha hb]
  · intro failure
    rw [hmerge.error_iff, ← flatMap_clashOn? ha hb, List.head?_flatMap, List.findSome?_eq_some_iff]
    simp only [Option.head?_toList, clashOn?_eq_some_iff, clashOn?_eq_none_iff]
    constructor
    · intro ⟨before, id, after, hsplit, ⟨path, hpath, hne, hclash⟩, hbefore⟩
      exact ⟨before, id, after, path, hsplit, hpath, hne, hclash, hbefore⟩
    · intro ⟨before, id, after, path, hsplit, hpath, hne, hclash, hbefore⟩
      exact ⟨before, id, after, hsplit, ⟨path, hpath, hne, hclash⟩, hbefore⟩

private def memberSchema : Schema :=
  .ofOutline ⟨⟨some "member", .blank⟩,
    .cons ⟨some "person", .blank⟩
      (.cons ⟨some "name", .ofKind .string⟩ .nil (.cons ⟨some "born", .ofKind .date⟩ .nil .nil))
      (.cons ⟨some "tags", ⟨some .string, some .set, .empty⟩⟩ .nil .nil)⟩

private def guestSchema : Schema :=
  .ofOutline ⟨⟨some "guest", .blank⟩,
    .cons ⟨some "tags", .ofKind .string⟩ .nil
      (.cons ⟨some "person", .blank⟩ (.cons ⟨some "born", .ofKind .time⟩ .nil .nil) .nil)⟩

theorem merge_error_iff_clash_member :
    Tree.Reachable (fun _ => True) memberSchema ∧ Tree.Reachable (fun _ => True) guestSchema ∧
    memberSchema.Named ∧ guestSchema.Named ∧
    (memberSchema.clashAt? guestSchema ⟨["tags"]⟩).isSome = true ∧
    memberSchema.merge guestSchema =
      .error (.mismatch ⟨["person", "born"]⟩ (describe (some .date) .single)
        (describe (some .time) .single)) := by
  have hmember : Tree.Reachable (fun _ => True) memberSchema :=
    Tree.reachable_ofOutline _ trivial fun _ _ => trivial
  have hguest : Tree.Reachable (fun _ => True) guestSchema :=
    Tree.reachable_ofOutline _ trivial fun _ _ => trivial
  have hnamed : memberSchema.Named := by decide
  have hnamed' : guestSchema.Named := by decide
  have hfirst := (merge_error_iff_clash hmember hguest hnamed hnamed').2
  refine ⟨hmember, hguest, hnamed, hnamed', rfl, (hfirst _).mpr ?_⟩
  refine ⟨[0, 1, 2], 3, [4], ⟨["person", "born"]⟩, rfl, rfl, by decide, rfl, ?_⟩
  intro earlier hearlier place hplace hne
  simp only [List.mem_cons, List.not_mem_nil, or_false] at hearlier
  rcases hearlier with rfl | rfl | rfl
  · cases hplace
    exact absurd rfl hne
  · cases hplace
    rfl
  · cases hplace
    rfl

end Schema

end Conform
