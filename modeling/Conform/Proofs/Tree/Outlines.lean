import Conform.Proofs.Forest
import Conform.Proofs.Tree.Growth
/-!
# Outlines and paths

The outline of a tree says all that paths can tell: a path leads to a node
exactly when it leads to an outline, which is the outline of that node. The
tree planted from an outline has it as its own.
-/

namespace Conform

universe u

def Outline.at? {P : Type u} (outline : Outline P) : List String → Option (Outline P)
  | [] => some outline
  | name :: rest =>
    match outline.below.findRoot? (·.name? == some name) with
    | some (root, below) => at? ⟨root, below⟩ rest
    | none => none

def Forest.named? {P : Type u} (forest : Forest (Label P)) (name : String) :
    Option (Label P × Forest (Label P)) :=
  forest.trees.find? fun tree => tree.1.name? == some name

theorem Forest.named?_append {P : Type u} (forest other : Forest (Label P)) (name : String) :
    (forest.append other).named? name = (forest.named? name).or (other.named? name) := by
  rw [named?, trees_append, List.find?_append, ← named?, ← named?]

theorem Forest.mem_trees_of_named? {P : Type u} {forest : Forest (Label P)} {name : String}
    {tree : Label P × Forest (Label P)} (h : forest.named? name = some tree) :
    tree ∈ forest.trees :=
  List.mem_of_find?_eq_some h

theorem Forest.name?_of_named? {P : Type u} {forest : Forest (Label P)} {name : String}
    {tree : Label P × Forest (Label P)} (h : forest.named? name = some tree) :
    tree.1.name? = some name := by
  have htest := List.find?_some h
  exact eq_of_beq htest

theorem Outline.at?_cons {P : Type u} (outline : Outline P) (name : String) (rest : List String) :
    outline.at? (name :: rest) =
      (outline.below.named? name).bind fun tree => at? ⟨tree.1, tree.2⟩ rest := by
  rw [at?, Forest.findRoot?_eq, Forest.named?]
  cases outline.below.trees.find? fun tree => tree.1.name? == some name <;> rfl

def Outline.names {P : Type u} (outline : Outline P) : List (Option String) :=
  outline.below.roots.map (·.name?)

theorem Outline.isEmpty_names {P : Type u} (outline : Outline P) :
    outline.names.isEmpty = outline.below.isEmpty := by
  rw [names, Forest.roots_eq, List.isEmpty_map, List.isEmpty_map, Forest.isEmpty_eq]

theorem find?_of_nodup {α κ : Type*} [BEq κ] [LawfulBEq κ] {key : α → κ} {things : List α}
    (hnodup : (things.map key).Nodup) {thing : α} (hthing : thing ∈ things) {wanted : κ}
    (hkey : key thing = wanted) : (things.find? fun other => key other == wanted) = some thing := by
  cases hfind : things.find? fun other => key other == wanted with
  | none =>
    have hnot := List.find?_eq_none.mp hfind thing hthing
    exact absurd (beq_iff_eq.mpr hkey) hnot
  | some found =>
    have heq := List.find?_some hfind
    have hsame : key found = key thing := (eq_of_beq heq).trans hkey.symm
    rw [List.inj_on_of_nodup_map hnodup (List.mem_of_find?_eq_some hfind) hthing hsame]

namespace Tree

variable {P : Type u} {tree : Tree P}

namespace Spans

theorem unique {ids : List NodeId} {forest other : Forest (NodeId × Node P)}
    (h : tree.Spans ids forest) (hother : tree.Spans ids other) : forest = other := by
  induction h generalizing other with
  | nil =>
    cases hother
    rfl
  | cons found _ _ ihdown ihright =>
    cases hother with
    | cons found' down' right' =>
      rw [found] at found'
      cases found'
      rw [ihdown down', ihright right']

theorem roots_fst {ids : List NodeId} {forest : Forest (NodeId × Node P)}
    (h : tree.Spans ids forest) : forest.roots.map (·.1) = ids := by
  induction h with
  | nil => rfl
  | cons found _ _ _ ihright => rw [Forest.roots, List.map_cons, ihright]

theorem find?_of_mem_roots {ids : List NodeId} {forest : Forest (NodeId × Node P)}
    (h : tree.Spans ids forest) {entry : NodeId × Node P} (hentry : entry ∈ forest.roots) :
    tree.find? entry.1 = some entry.2 := by
  induction h with
  | nil => cases hentry
  | cons found _ _ _ ihright =>
    rw [Forest.roots, List.mem_cons] at hentry
    rcases hentry with rfl | hentry
    · exact found
    · exact ihright hentry

theorem isEmpty_eq {ids : List NodeId} {forest : Forest (NodeId × Node P)}
    (h : tree.Spans ids forest) : ids.isEmpty = forest.isEmpty := by
  cases h <;> rfl

theorem find?_named {ids : List NodeId} {forest : Forest (NodeId × Node P)}
    (h : tree.Spans ids forest) (name : String) :
    (ids.find? fun id => tree.name? id == some name) =
      (forest.findRoot? fun entry => entry.2.name? == some name).map (·.1.1) := by
  induction h with
  | nil => rfl
  | cons found _ _ _ ihright =>
    rw [List.find?_cons, Forest.findRoot?, ihright, name?, found, Option.bind_some]
    split <;> simp_all

theorem of_findRoot? {ids : List NodeId} {forest below : Forest (NodeId × Node P)}
    (h : tree.Spans ids forest) {test : NodeId × Node P → Bool} {id : NodeId} {node : Node P}
    (hfound : forest.findRoot? test = some ((id, node), below)) :
    tree.find? id = some node ∧ tree.Spans node.children below := by
  induction h with
  | nil => cases hfound
  | cons found down _ _ ihright =>
    rw [Forest.findRoot?] at hfound
    split at hfound
    · cases hfound
      exact ⟨found, down⟩
    · exact ihright hfound

theorem eachRow {good : List (NodeId × Node P) → Prop}
    (hgood : ∀ id row, tree.contains id = true → row.map (·.1) = tree.children id →
      (∀ entry ∈ row, tree.find? entry.1 = some entry.2) → good row)
    {ids : List NodeId} {forest : Forest (NodeId × Node P)} (h : tree.Spans ids forest)
    (hrow : good forest.roots) : forest.EachRow good := by
  refine .intro hrow ?_
  clear hrow
  induction h with
  | nil => exact fun _ htree => absurd htree List.not_mem_nil
  | @cons id node rest below others found down right ihdown ihright =>
    intro part hpart
    rcases List.mem_cons.mp hpart with rfl | hpart
    · refine .intro (hgood id _ (contains_iff.mpr ⟨node, found⟩) ?_ fun _ => ?_) ihdown
      · rw [down.roots_fst, children_of_find? found]
      · exact down.find?_of_mem_roots
    · exact ihright part hpart

end Spans

/-! ## Outlines of nodes -/

theorem outline?_of_find? {id : NodeId} {node : Node P} (hnode : tree.find? id = some node) :
    tree.outline? id = some ⟨node.toLabel, tree.labelsBelow id⟩ := by
  rw [outline?, hnode]
  rfl

theorem Linked.exists_outline? (h : tree.Linked) : ∃ outline, tree.outline? root = some outline := by
  obtain ⟨node, hnode⟩ := contains_iff.mp h.contains_root
  exact ⟨_, outline?_of_find? hnode⟩

theorem Linked.labels_branches (h : tree.Linked) {outline : Outline P}
    (houtline : tree.outline? root = some outline) :
    (tree.branches [root]).map (·.2.toLabel) = .cons outline.root outline.below .nil := by
  obtain ⟨node, hnode, rfl⟩ := Option.map_eq_some_iff.mp houtline
  rw [h.branches_eq (h.spans_singleton hnode) (apart_singleton tree root)]
  rfl

theorem isSome_outline? (tree : Tree P) (id : NodeId) :
    (tree.outline? id).isSome = tree.contains id := by
  rw [outline?, Option.isSome_map, contains]

theorem outline?_of_not_contains {id : NodeId} (hid : ¬tree.contains id = true) :
    tree.outline? id = none := by
  rwa [← isSome_outline?, Option.not_isSome_iff_eq_none] at hid

theorem name?_of_outline? {id : NodeId} {outline : Outline P}
    (h : tree.outline? id = some outline) : tree.name? id = outline.root.name? := by
  obtain ⟨node, hnode, rfl⟩ := Option.map_eq_some_iff.mp h
  exact name?_of_find? hnode

theorem payload?_of_outline? {id : NodeId} {outline : Outline P}
    (h : tree.outline? id = some outline) : tree.payload? id = some outline.root.payload := by
  obtain ⟨node, hnode, rfl⟩ := Option.map_eq_some_iff.mp h
  exact payload?_of_find? hnode

theorem labelsBelow_of_outline? {id : NodeId} {outline : Outline P}
    (h : tree.outline? id = some outline) : tree.labelsBelow id = outline.below := by
  obtain ⟨node, hnode, rfl⟩ := Option.map_eq_some_iff.mp h
  rfl

namespace Linked

theorem trees_labelsBelow (h : tree.Linked) (id : NodeId) :
    (tree.labelsBelow id).trees = (tree.children id).filterMap fun child =>
      (tree.outline? child).map fun outline => (outline.root, outline.below) := by
  have hrow : ∀ {ids : List NodeId} {forest : Forest (NodeId × Node P)}, tree.Spans ids forest →
      (forest.map (·.2.toLabel)).trees = ids.filterMap fun child =>
        (tree.outline? child).map fun outline => (outline.root, outline.below) := by
    intro ids forest hspan
    induction hspan with
    | nil => rfl
    | @cons id node rest below others found down right ihdown ihright =>
      have hbelow : tree.labelsBelow id = below.map (·.2.toLabel) := by
        have hspan := h.spans_children id
        rw [children_of_find? found] at hspan
        rw [labelsBelow, children_of_find? found, hspan.unique down]
      rw [Forest.map, Forest.trees_cons, ihright, List.filterMap_cons, outline?_of_find? found,
        hbelow]
      rfl
  rw [labelsBelow]
  exact hrow (h.spans_children id)

theorem names_of_outline? (h : tree.Linked) {id : NodeId} {outline : Outline P}
    (houtline : tree.outline? id = some outline) :
    outline.names = (tree.children id).map tree.name? := by
  obtain ⟨node, hnode, rfl⟩ := Option.map_eq_some_iff.mp houtline
  have hspan := h.spans_children id
  show ((tree.branches (tree.children id)).map (·.2.toLabel)).roots.map (·.name?) = _
  rw [Forest.roots_map, List.map_map]
  have hnames : ∀ entry ∈ (tree.branches (tree.children id)).roots,
      entry.2.name? = tree.name? entry.1 := by
    intro entry hentry
    rw [name?, hspan.find?_of_mem_roots hentry]
    rfl
  calc (tree.branches (tree.children id)).roots.map _
      = (tree.branches (tree.children id)).roots.map fun entry => tree.name? entry.1 :=
        List.map_congr_left hnames
    _ = ((tree.branches (tree.children id)).roots.map (·.1)).map tree.name? := by
        rw [List.map_map]
        rfl
    _ = (tree.children id).map tree.name? := by rw [hspan.roots_fst]

theorem isLeaf_of_outline? (h : tree.Linked) {id : NodeId} {outline : Outline P}
    (houtline : tree.outline? id = some outline) : tree.isLeaf id = outline.below.isEmpty := by
  have hnames := congrArg List.isEmpty (h.names_of_outline? houtline)
  rw [Outline.isEmpty_names, List.isEmpty_map] at hnames
  rw [isLeaf, hnames]

theorem outline?_follow? (h : tree.Linked) {id : NodeId} {outline : Outline P}
    (houtline : tree.outline? id = some outline) (names : List String) :
    (tree.follow? id names).bind tree.outline? = outline.at? names := by
  induction names generalizing id outline with
  | nil => exact houtline
  | cons name rest ih =>
    obtain ⟨node, hnode, rfl⟩ := Option.map_eq_some_iff.mp houtline
    have htest : ∀ child, ((tree.outline? child).map fun outline =>
        (outline.root, outline.below)).any (fun part => part.1.name? == some name) =
          (tree.name? child == some name) := by
      intro child
      rw [outline?, name?]
      cases tree.find? child <;> rfl
    rw [follow?, Outline.at?_cons, childNamed?, Forest.named?, h.trees_labelsBelow,
      List.find?_filterMap]
    simp only [htest]
    cases hchild : (tree.children id).find? fun child => tree.name? child == some name with
    | none => rfl
    | some child =>
      have hcontains := h.contains_child (List.mem_of_find?_eq_some hchild)
      obtain ⟨held, hheld⟩ := contains_iff.mp hcontains
      have hbelow := outline?_of_find? hheld
      simp only [Option.bind_some, hbelow, Option.map_some]
      exact ih hbelow

theorem contains_of_follow? (h : tree.Linked) {id found : NodeId} {names : List String}
    (hid : tree.contains id = true) (hfound : tree.follow? id names = some found) :
    tree.contains found = true := by
  induction names generalizing id with
  | nil =>
    cases hfound
    exact hid
  | cons name rest ih =>
    rw [follow?] at hfound
    split at hfound
    · next child hchild => exact ih (h.contains_child (List.mem_of_find?_eq_some hchild)) hfound
    · cases hfound

/-- A path leads to the outline of the node that it leads to. -/
theorem outline?_resolve? (h : tree.Linked) {outline : Outline P}
    (houtline : tree.outline? root = some outline) (path : Path) :
    (tree.resolve? root path).bind tree.outline? = outline.at? path.segments := by
  rw [h.resolve?_root]
  exact h.outline?_follow? houtline path.segments

theorem at?_of_resolve? (h : tree.Linked) {outline : Outline P}
    (houtline : tree.outline? root = some outline) {path : Path} {id : NodeId}
    (hid : tree.resolve? root path = some id) :
    ∃ place, outline.at? path.segments = some place ∧ tree.outline? id = some place := by
  have hpath := h.outline?_resolve? houtline path
  rw [hid, Option.bind_some] at hpath
  rw [h.resolve?_root] at hid
  have hcontains := h.contains_of_follow? h.contains_root hid
  rw [← isSome_outline?, Option.isSome_iff_exists] at hcontains
  obtain ⟨place, hplace⟩ := hcontains
  exact ⟨place, by rw [← hpath, hplace], hplace⟩

theorem at?_of_resolve?_none (h : tree.Linked) {outline : Outline P}
    (houtline : tree.outline? root = some outline) {path : Path}
    (hnone : tree.resolve? root path = none) : outline.at? path.segments = none := by
  have hpath := h.outline?_resolve? houtline path
  rw [hnone] at hpath
  exact hpath.symm

theorem isSome_resolve? (h : tree.Linked) {outline : Outline P}
    (houtline : tree.outline? root = some outline) (path : Path) :
    (tree.resolve? root path).isSome = (outline.at? path.segments).isSome := by
  cases hid : tree.resolve? root path with
  | none =>
    rw [h.at?_of_resolve?_none houtline hid]
    rfl
  | some id =>
    obtain ⟨place, hplace, _⟩ := h.at?_of_resolve? houtline hid
    rw [hplace]
    rfl

theorem exists_resolve? (h : tree.Linked) {outline place : Outline P}
    (houtline : tree.outline? root = some outline) {path : Path}
    (hplace : outline.at? path.segments = some place) :
    ∃ id, tree.resolve? root path = some id ∧ tree.outline? id = some place := by
  have hsome := h.isSome_resolve? houtline path
  rw [hplace] at hsome
  obtain ⟨id, hid⟩ := Option.isSome_iff_exists.mp hsome
  obtain ⟨found, hfound, hid'⟩ := h.at?_of_resolve? houtline hid
  rw [hplace] at hfound
  cases hfound
  exact ⟨id, hid, hid'⟩

theorem payloadAt?_eq (h : tree.Linked) {outline : Outline P}
    (houtline : tree.outline? root = some outline) (path : Path) :
    tree.payloadAt? path = (outline.at? path.segments).map (·.root.payload) := by
  rw [payloadAt?, ← h.outline?_resolve? houtline path]
  cases tree.resolve? root path with
  | none => rfl
  | some id =>
    rw [Option.bind_some, Option.bind_some, outline?, Option.map_map]
    rfl

end Linked

def namesAt (tree : Tree P) (path : Path) : List (Option String) :=
  (tree.resolve? root path).elim [] fun id => (tree.children id).map tree.name?

theorem Linked.namesAt_eq (h : tree.Linked) {outline : Outline P}
    (houtline : tree.outline? root = some outline) (path : Path) :
    tree.namesAt path = (outline.at? path.segments).elim [] Outline.names := by
  rw [namesAt]
  cases hid : tree.resolve? root path with
  | none =>
    rw [h.at?_of_resolve?_none houtline hid]
    rfl
  | some id =>
    obtain ⟨place, hplace, hid'⟩ := h.at?_of_resolve? houtline hid
    rw [hplace]
    exact (h.names_of_outline? hid').symm

theorem Linked.find?_of_mem_leaves (h : tree.Linked) {ids : List NodeId}
    {forest : Forest (NodeId × Node P)} (hspan : tree.Spans ids forest)
    (hids : ∀ id ∈ ids, id ≠ root) {entry : NodeId × Node P} (hentry : entry ∈ forest.leaves) :
    tree.find? entry.1 = some entry.2 ∧ tree.isLeaf entry.1 = true ∧ entry.1 ≠ root := by
  induction hspan with
  | nil => cases hentry
  | @cons id node rest below others found down _ ihdown ihright =>
    rcases Forest.mem_leaves_cons.mp hentry with ⟨rfl, rfl⟩ | hentry | hentry
    · refine ⟨found, ?_, hids id List.mem_cons_self⟩
      rw [isLeaf, children_of_find? found, ← down.roots_fst]
      rfl
    · refine ihdown (fun child hchild => ?_) hentry
      rw [← children_of_find? found] at hchild
      exact h.ne_root_of_parent? ((h.mem_children_iff id child).mp hchild)
    · exact ihright (fun other hother => hids other (List.mem_cons_of_mem _ hother)) hentry

/-! ## Names -/

/-- Every node but the root has a name, which none of its siblings has. -/
structure Named (tree : Tree P) : Prop where
  exists_name {id : NodeId} (held : tree.contains id = true) (below : id ≠ root) :
    ∃ name, tree.name? id = some name
  nodup_names (id : NodeId) : ((tree.children id).map tree.name?).Nodup

theorem named_iff :
    tree.Named ↔ ∀ id < tree.bound, (tree.contains id = true → id ≠ root →
      (tree.name? id).isSome = true) ∧ ((tree.children id).map tree.name?).Nodup := by
  constructor
  · intro h id _
    refine ⟨fun hid hne => ?_, h.nodup_names id⟩
    obtain ⟨name, hname⟩ := h.exists_name hid hne
    rw [hname]
    rfl
  · intro h
    refine ⟨fun {id} hid hne => ?_, fun id => ?_⟩
    · exact Option.isSome_iff_exists.mp ((h id (lt_bound_of_contains hid)).1 hid hne)
    · by_cases hlt : id < tree.bound
      · exact (h id hlt).2
      · rw [children, find?_eq_none_of_le (Nat.le_of_not_lt hlt)]
        exact List.nodup_nil

instance (tree : Tree P) : Decidable tree.Named := decidable_of_iff _ named_iff.symm

/-- A row of labels with names that are all different. -/
def NamedRow (row : List (Label P)) : Prop :=
  (∀ label ∈ row, ∃ name, label.name? = some name) ∧ (row.map (·.name?)).Nodup

theorem namedRow_iff {row : List (Label P)} :
    NamedRow row ↔ none ∉ row.map (·.name?) ∧ (row.map (·.name?)).Nodup := by
  rw [NamedRow, List.mem_map]
  refine and_congr_left fun _ => ⟨?_, ?_⟩
  · rintro hnamed ⟨label, hlabel, hnone⟩
    obtain ⟨name, hname⟩ := hnamed label hlabel
    rw [hnone] at hname
    cases hname
  · intro hnone label hlabel
    rw [← Option.isSome_iff_exists, Option.isSome_iff_ne_none]
    exact fun hname => hnone ⟨label, hlabel, hname⟩

def NumberedRow (row : List (NodeId × Label P)) : Prop :=
  (row.map (·.1)).Nodup ∧ NamedRow (row.map (·.2))

theorem Named.numberedRow (hnamed : tree.Named) (h : tree.Linked) {id : NodeId}
    {row : List (NodeId × Node P)} (hids : row.map (·.1) = tree.children id)
    (hrow : ∀ entry ∈ row, tree.find? entry.1 = some entry.2) :
    NumberedRow (row.map fun entry => (entry.1, entry.2.toLabel)) := by
  have hname : ∀ entry ∈ row, tree.name? entry.1 = entry.2.name? := by
    intro entry hentry
    rw [name?, hrow entry hentry]
    rfl
  refine ⟨?_, ?_, ?_⟩
  · rw [List.map_map, show ((·.1) ∘ fun entry : NodeId × Node P => (entry.1, entry.2.toLabel)) =
      (·.1) from rfl, hids]
    exact h.nodup_children id
  · intro label hlabel
    rw [List.map_map, List.mem_map] at hlabel
    obtain ⟨entry, hentry, rfl⟩ := hlabel
    have hchild : entry.1 ∈ tree.children id := hids ▸ List.mem_map_of_mem hentry
    have hlink := (h.mem_children_iff id entry.1).mp hchild
    obtain ⟨name, hname'⟩ :=
      hnamed.exists_name (contains_of_parent? hlink) (h.ne_root_of_parent? hlink)
    exact ⟨name, (hname entry hentry).symm.trans hname'⟩
  · have hnames : (row.map (·.1)).map tree.name? = row.map (·.2.name?) := by
      rw [List.map_map]
      exact List.map_congr_left hname
    have hnodup := hnamed.nodup_names id
    rw [← hids, hnames] at hnodup
    rw [List.map_map, List.map_map]
    exact hnodup

theorem Named.eachRow (hnamed : tree.Named) (h : tree.Linked) (id : NodeId) :
    ((tree.branches (tree.children id)).map fun entry => (entry.1, entry.2.toLabel)).EachRow
      NumberedRow := by
  have hspan := h.spans_children id
  have hrows : (tree.branches (tree.children id)).EachRow fun row =>
      NumberedRow (row.map fun entry => (entry.1, entry.2.toLabel)) :=
    hspan.eachRow (fun _ _ _ hids hrow => hnamed.numberedRow h hids hrow)
      (hnamed.numberedRow h hspan.roots_fst fun _ => hspan.find?_of_mem_roots)
  exact hrows.map _ fun _ hrow => hrow

theorem named_of_eachRow (h : tree.Linked)
    (hrows : (tree.labelsBelow root).EachRow NamedRow) : tree.Named := by
  have hbelow : ∀ id, tree.contains id = true → (tree.labelsBelow id).EachRow NamedRow := by
    intro id hid
    refine h.up_induction (motive := fun id => (tree.labelsBelow id).EachRow NamedRow) hrows ?_ hid
    intro id parent hparent ih
    have hid := contains_of_parent? hparent
    obtain ⟨node, hnode⟩ := contains_iff.mp hid
    have htree : (node.toLabel, tree.labelsBelow id) ∈ (tree.labelsBelow parent).trees := by
      rw [h.trees_labelsBelow, List.mem_filterMap]
      refine ⟨id, (h.mem_children_iff parent id).mpr hparent, ?_⟩
      rw [outline?_of_find? hnode]
      rfl
    exact ih.down htree
  have hnames : ∀ id, tree.contains id = true →
      none ∉ (tree.children id).map tree.name? ∧ ((tree.children id).map tree.name?).Nodup := by
    intro id hid
    obtain ⟨node, hnode⟩ := contains_iff.mp hid
    rw [← h.names_of_outline? (outline?_of_find? hnode)]
    exact namedRow_iff.mp (hbelow id hid).row
  refine ⟨fun {id} hid hne => ?_, fun id => ?_⟩
  · obtain ⟨parent, hparent⟩ := h.exists_parent hid hne
    have hchild := (h.mem_children_iff parent id).mpr hparent
    have hsome := (hnames parent (h.contains_parent hparent)).1
    rw [← Option.isSome_iff_exists, Option.isSome_iff_ne_none]
    exact fun hnone => hsome (hnone ▸ List.mem_map_of_mem hchild)
  · cases hid : tree.contains id with
    | true => exact (hnames id hid).2
    | false =>
      have hmissing : tree.find? id = none := by simpa [contains] using hid
      rw [children, hmissing]
      exact List.nodup_nil

/-! ## Planted outlines -/

/-- A planted row spans the forest that was planted, numbered on from the last slot. -/
theorem spans_plantForest (parent : NodeId) (forest : Forest (Label P)) (tree : Tree P) :
    ∃ planted, (plantForest parent forest tree).1.Spans (plantForest parent forest tree).2 planted ∧
      planted.map (·.2.toLabel) = forest ∧
      planted.numbers = List.range' tree.bound forest.size := by
  induction forest generalizing parent tree with
  | nil => exact ⟨_, .nil, rfl, rfl⟩
  | cons label below rest ihbelow ihrest =>
    obtain ⟨downs, hdown, hbelow, hnumbers⟩ :=
      ihbelow tree.bound (tree.push ⟨label, some parent, []⟩)
    have hroot : (plantForest tree.bound below (tree.push ⟨label, some parent, []⟩)).1.find?
        tree.bound = some ⟨label, some parent, []⟩ := by
      rw [find?_plantForest below, find?_push, if_pos rfl]
      rw [bound_push]
      exact Nat.lt_succ_self _
    have hbound := bound_plantForest tree.bound below (tree.push ⟨label, some parent, []⟩)
    rw [bound_push] at hnumbers hbound
    simp only [plantForest]
    generalize plantForest tree.bound below (tree.push ⟨label, some parent, []⟩) = left at *
    obtain ⟨left, children⟩ := left
    simp only at hdown hroot hbound ⊢
    have hset : (left.update tree.bound fun node => { node with children }).find? tree.bound =
        some ⟨label, some parent, children⟩ := by
      rw [find?_update, if_pos rfl, hroot]
      rfl
    obtain ⟨rights, hright, hrest, hnumbers'⟩ :=
      ihrest parent (left.update tree.bound fun node => { node with children })
    rw [bound_update, hbound] at hnumbers'
    have hkept : ∀ id, id < left.bound →
        (plantForest parent rest (left.update tree.bound fun node =>
          { node with children })).1.find? id =
        (left.update tree.bound fun node => { node with children }).find? id := by
      intro id hid
      refine find?_plantForest rest ?_
      rwa [bound_update]
    refine ⟨.cons (tree.bound, ⟨label, some parent, children⟩) downs rights,
      .cons ?_ (hdown.congr _ ?_) hright, ?_, ?_⟩
    · rw [hkept _ (by omega), hset]
    · intro id hid
      have hlt := lt_bound_of_contains (hdown.contains_of_mem_numbers hid)
      rw [hnumbers, List.mem_range'_1] at hid
      have hne : id ≠ tree.bound := Nat.ne_of_gt hid.1
      rw [hkept id hlt, find?_update, if_neg hne]
    · rw [Forest.map, hbelow, hrest]
    · rw [Forest.numbers_cons, hnumbers, hnumbers', List.range'_append_1, Forest.size,
        List.range'_succ]

/-- The tree of an outline spans it, numbered in pre-order from zero. -/
theorem spans_ofOutline (outline : Outline P) :
    ∃ planted, (ofOutline outline).Spans [root] planted ∧
      planted.map (·.2.toLabel) = .cons outline.root outline.below .nil ∧
      planted.numbers = List.range planted.size := by
  obtain ⟨below, hspan, hlabels, hnumbers⟩ :=
    spans_plantForest root outline.below (single outline.root)
  have hroot : (plantForest root outline.below (single outline.root)).1.find? root =
      some ⟨outline.root, none, []⟩ := find?_plantForest outline.below Nat.one_pos
  have heq : ofOutline outline = (plantForest root outline.below (single outline.root)).1.update
      root fun node =>
        { node with children := (plantForest root outline.below (single outline.root)).2 } := rfl
  rw [show (single outline.root).bound = 1 from rfl] at hnumbers
  generalize plantForest root outline.below (single outline.root) = grown at *
  have hnode : (ofOutline outline).find? root = some ⟨outline.root, none, grown.2⟩ := by
    rw [heq, find?_update, if_pos rfl, hroot]
    rfl
  have hbelow : (ofOutline outline).Spans grown.2 below := by
    refine hspan.congr _ fun id hid => ?_
    rw [hnumbers, List.mem_range'_1] at hid
    have hne : id ≠ root := Nat.ne_of_gt hid.1
    rw [heq, find?_update, if_neg hne]
  have hsize : below.size = outline.below.size := by
    rw [← Forest.length_numbers, hnumbers, List.length_range']
  refine ⟨_, .cons hnode hbelow .nil, ?_, ?_⟩
  · rw [Forest.map, hlabels]
    rfl
  · simp only [Forest.numbers_cons, Forest.numbers_nil, List.append_nil, Forest.size, hnumbers, hsize,
      List.range_eq_range', List.range'_succ]
    rfl

/-- The tree of an outline has that outline. -/
theorem outline?_ofOutline (outline : Outline P) :
    (ofOutline outline).outline? root = some outline := by
  have hlinked := linked_ofOutline outline
  obtain ⟨planted, hspan, hlabels, -⟩ := spans_ofOutline outline
  obtain ⟨whole, hwhole⟩ := hlinked.exists_outline?
  have hsame := hlinked.labels_branches hwhole
  rw [hlinked.branches_eq hspan (apart_singleton _ root), hlabels] at hsame
  simp only [Forest.cons.injEq] at hsame
  rw [hwhole]
  obtain ⟨label, below⟩ := whole
  obtain ⟨rfl, rfl, -⟩ := hsame
  rfl

end Tree

end Conform
