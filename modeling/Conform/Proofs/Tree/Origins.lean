import Conform.Proofs.Tree.Copiers
/-!
# Origins

The nodes of a copy come one each from the nodes that survive, with their
names, their order and the links between them. A node of a copy is known by
its place in pre-order, and so is the node it comes from.
-/

namespace Conform.Tree

universe u

variable {P : Type u} {tree copy : Tree P} {keep : NodeId → Bool} {top : NodeId}

/-! ## Places -/

namespace Linked

variable {planted : Forest (NodeId × Node P)}

theorem contains_iff_lt_size (h : tree.Linked) (hspan : tree.Spans [root] planted)
    (hnumbers : planted.numbers = List.range planted.size) (number : NodeId) :
    tree.contains number = true ↔ number < tree.size := by
  rw [← h.mem_numbers_root_iff hspan, hnumbers, List.mem_range, h.size_of_spans hspan]

theorem descendants_root_eq_range (h : tree.Linked) (hspan : tree.Spans [root] planted)
    (hnumbers : planted.numbers = List.range planted.size) :
    tree.descendants root = List.range tree.size := by
  rw [hspan.descendants_eq (h.size_le_bound hspan (apart_singleton tree root)), hnumbers,
    h.size_of_spans hspan]

end Linked

theorem parent?_of_children (h : tree.Linked) (hcopy : copy.Linked) {origins : List NodeId}
    (hcontains : ∀ number, copy.contains number = true ↔ number < origins.length)
    (hnodup : origins.Nodup) (hfirst : origins[root]? = some top)
    (hchildren : ∀ number origin, origins[number]? = some origin →
      (copy.children number).map (origins[·]?) = ((tree.children origin).filter keep).map some)
    {number origin : NodeId} (hplace : origins[number]? = some origin) :
    (copy.parent? number).bind (origins[·]?) =
      if origin = top then none else tree.parent? origin := by
  have hheld : copy.contains number = true :=
    (hcontains number).mpr (List.getElem?_eq_some_iff.mp hplace).1
  by_cases hroot : number = root
  · subst hroot
    rw [hfirst, Option.some.injEq] at hplace
    rw [hcopy.parent?_root, if_pos hplace.symm]
    rfl
  · obtain ⟨parent, hlink⟩ := hcopy.exists_parent hheld hroot
    have hlt := (hcontains parent).mp (hcopy.contains_parent hlink)
    have hmem : some origin ∈ (copy.children parent).map (origins[·]?) := by
      rw [← hplace]
      exact List.mem_map_of_mem ((hcopy.mem_children_iff parent number).mpr hlink)
    rw [hchildren parent _ (List.getElem?_eq_getElem hlt),
      List.mem_map_of_injective fun _ _ => Option.some.inj, List.mem_filter] at hmem
    have hne : origin ≠ top := by
      rintro rfl
      exact hroot ((List.getElem?_inj ((hcontains number).mp hheld) hnodup).mp
        (hplace.trans hfirst.symm))
    rw [if_neg hne, hlink, (h.mem_children_iff _ _).mp hmem.1]
    exact List.getElem?_eq_getElem hlt

theorem map_getElem?_numbers {α β : Type u} {planted : Forest (NodeId × α)}
    {forest : Forest (NodeId × β)}
    (hshape : (planted.map fun _ => ()) = forest.map fun _ => ())
    (hnumbers : planted.numbers = List.range planted.size) :
    planted.map (fun entry => forest.numbers[entry.1]?) = forest.map fun entry => some entry.1 := by
  apply Forest.eq_of_preorder
  · simpa only [Forest.map_map, Function.comp_def] using hshape
  · have hsize : planted.size = forest.numbers.length := by
      rw [Forest.length_numbers, Forest.size_eq_of_map_eq hshape]
    have hplaces : planted.numbers.map (forest.numbers[·]?) = forest.numbers.map some := by
      rw [hnumbers, hsize]
      apply List.ext_getElem <;> simp
    simpa [Forest.numbers, Function.comp_def] using hplaces

theorem Spans.rows_planted {forest planted : Forest (NodeId × Node P)} {ids new : List NodeId}
    (hspan : tree.Spans ids forest) (hplanted : copy.Spans new planted)
    (hnumbers : planted.numbers = List.range planted.size)
    (hshape : (planted.map fun _ => ()) = (forest.sift (keep ·.1)).map fun _ => ()) :
    planted.preorder.map (·.2.children.map ((forest.sift (keep ·.1)).numbers[·]?)) =
      (forest.sift (keep ·.1)).preorder.map fun entry =>
        (entry.2.children.filter keep).map some := by
  have hold := hspan.rows_sift keep
  have hnew := hplanted.rows_eq
  generalize forest.sift (keep ·.1) = survivors at hold hshape ⊢
  have horigins := congrArg Forest.rows (map_getElem?_numbers hshape hnumbers)
  rw [Forest.rows_map, Forest.rows_map] at horigins
  calc planted.preorder.map (·.2.children.map (survivors.numbers[·]?))
    _ = (planted.rows.map (·.map (·.1))).map (·.map (survivors.numbers[·]?)) := by
      rw [hnew, List.map_map]
      rfl
    _ = (survivors.rows.map (·.map (·.1))).map (·.map some) := by
      simpa [Function.comp_def] using horigins
    _ = survivors.preorder.map fun entry => (entry.2.children.filter keep).map some := by
      rw [hold, List.map_map]
      rfl

/-! ## Copies of survivors -/

variable [Inhabited P]

/-- A tree numbered in pre-order whose nodes were copied, one from each, from the nodes that survive
below another node; the number of a copied node is the place of its origin in a list of them. -/
structure CopiedFrom (tree : Tree P) (keep : NodeId → Bool) (top : NodeId) (origins : List NodeId)
    (copy : Tree P) : Prop where
  contains_iff (number : NodeId) : copy.contains number = true ↔ number < copy.size
  descendants : copy.descendants root = List.range copy.size
  length : origins.length = copy.size
  nodup : origins.Nodup
  sublist : origins.Sublist (tree.descendants top)
  mem_iff (origin : NodeId) : origin ∈ origins ↔ tree.Survives keep top origin
  first : origins[root]? = some top
  name? {number origin : NodeId} (place : origins[number]? = some origin) :
    copy.name? number = tree.name? origin
  payload? {number origin : NodeId} (place : origins[number]? = some origin) :
    copy.payload? number = if tree.isLeaf origin then tree.payload? origin else some default
  children {number origin : NodeId} (place : origins[number]? = some origin) :
    (copy.children number).map (origins[·]?) = ((tree.children origin).filter keep).map some
  parent? {number origin : NodeId} (place : origins[number]? = some origin) :
    (copy.parent? number).bind (origins[·]?) = if origin = top then none else tree.parent? origin

/-- Place by place, a node of a planted forest and the one its label comes from: the planted node
bears the label of the copy, and its children lie at the places of the children that pass. -/
theorem Spans.exists_origin {forest planted : Forest (NodeId × Node P)} {ids new : List NodeId}
    (hspan : tree.Spans ids forest) (hplanted : copy.Spans new planted)
    (hnumbers : planted.numbers = List.range planted.size)
    (hlabels : planted.map (·.2.toLabel) = (forest.sift (keep ·.1)).map (Copier.label ·.2))
    {number origin : NodeId} (hplace : (forest.sift (keep ·.1)).numbers[number]? = some origin) :
    ∃ node copied, tree.find? origin = some node ∧ copy.find? number = some copied ∧
      copied.toLabel = Copier.label node ∧
      copied.children.map ((forest.sift (keep ·.1)).numbers[·]?) =
        (node.children.filter keep).map some := by
  have hshape : (planted.map fun _ => ()) = (forest.sift (keep ·.1)).map fun _ => () := by
    simpa only [Forest.map_map, Function.comp_def] using congrArg (Forest.map fun _ => ()) hlabels
  have hrow := congrArg (·[number]?) (hspan.rows_planted hplanted hnumbers hshape)
  have hsublist := forest.preorder_sift (keep ·.1)
  generalize forest.sift (keep ·.1) = survivors at *
  have hlabel := congrArg (·[number]?) (congrArg Forest.preorder hlabels)
  have hnumber := congrArg (·[number]?) hnumbers
  rw [Forest.numbers, List.getElem?_map, Option.map_eq_some_iff] at hplace
  obtain ⟨⟨_, node⟩, hentry, rfl⟩ := hplace
  have hsize : planted.size = survivors.size := Forest.size_eq_of_map_eq hlabels
  have hlt : number < planted.size := by
    rw [hsize, ← Forest.length_preorder]
    exact (List.getElem?_eq_some_iff.mp hentry).1
  obtain ⟨⟨place, copied⟩, hcopied⟩ : ∃ entry, planted.preorder[number]? = some entry :=
    ⟨_, List.getElem?_eq_getElem (planted.length_preorder.symm ▸ hlt)⟩
  simp only [Forest.numbers] at hnumber
  simp only [Forest.preorder_map, List.getElem?_map, hentry, hcopied,
    List.getElem?_range hlt, Option.map_some, Option.some.injEq] at hlabel hnumber hrow
  subst hnumber
  exact ⟨node, copied, hspan.find?_of_mem (hsublist.subset (List.mem_of_getElem? hentry)),
    hplanted.find?_of_mem (List.mem_of_getElem? hcopied), hlabel, hrow⟩

theorem name?_and_payload?_of_label {number origin : NodeId} {node copied : Node P}
    (hnode : tree.find? origin = some node) (hcopied : copy.find? number = some copied)
    (hlabel : copied.toLabel = Copier.label node) :
    copy.name? number = tree.name? origin ∧
      copy.payload? number = if tree.isLeaf origin then tree.payload? origin else some default := by
  have hname := congrArg Label.name? hlabel
  have hpayload := congrArg Label.payload hlabel
  rw [Copier.label] at hpayload
  constructor
  · rw [name?_of_find? hnode, name?_of_find? hcopied]
    exact hname
  · rw [payload?_of_find? hnode, payload?_of_find? hcopied, isLeaf, children_of_find? hnode,
      hpayload, apply_ite some]

/-- The tree of the labels that survive is a copy of the survivors. -/
theorem Linked.copiedFrom (h : tree.Linked) {forest : Forest (NodeId × Node P)}
    (hspan : tree.Spans [top] forest) (hkeep : keep top = true) {outline : Outline P}
    (houtline : .cons outline.root outline.below .nil =
      (forest.sift (keep ·.1)).map (Copier.label ·.2)) :
    tree.CopiedFrom keep top (forest.sift (keep ·.1)).numbers (ofOutline outline) := by
  obtain ⟨planted, hplanted, hlabels, hnumbers⟩ := spans_ofOutline outline
  have hcopy := linked_ofOutline outline
  have hsize : planted.size = (ofOutline outline).size := hcopy.size_of_spans hplanted
  have hlength : (forest.sift (keep ·.1)).numbers.length = (ofOutline outline).size := by
    rw [Forest.length_numbers, ← Forest.size_eq_of_map_eq (hlabels.trans houtline), hsize]
  have hcontains := hcopy.contains_iff_lt_size hplanted hnumbers
  have hsublist : (forest.sift (keep ·.1)).numbers.Sublist forest.numbers :=
    (forest.preorder_sift _).map _
  have hnodup := hsublist.nodup (h.nodup_numbers hspan (apart_singleton tree top))
  have hfirst : (forest.sift (keep ·.1)).numbers[root]? = some top := by
    cases hspan with
    | cons _ _ right =>
      rw [Forest.sift, if_pos hkeep]
      rfl
  have horigin := fun number origin
      (hplace : (forest.sift (keep ·.1)).numbers[number]? = some origin) =>
    hspan.exists_origin hplanted hnumbers (hlabels.trans houtline) hplace
  have hchildren : ∀ number origin, (forest.sift (keep ·.1)).numbers[number]? = some origin →
      ((ofOutline outline).children number).map ((forest.sift (keep ·.1)).numbers[·]?) =
        ((tree.children origin).filter keep).map some := by
    intro number origin hplace
    obtain ⟨node, copied, hnode, hcopied, -, hrow⟩ := horigin number origin hplace
    rw [children_of_find? hnode, children_of_find? hcopied, hrow]
  exact {
    contains_iff := hcontains
    descendants := hcopy.descendants_root_eq_range hplanted hnumbers
    length := hlength
    nodup := hnodup
    sublist := by
      rwa [hspan.descendants_eq (h.size_le_bound hspan (apart_singleton tree top))]
    mem_iff := fun origin => by simpa using h.mem_numbers_sift_iff hspan origin
    first := hfirst
    name? := fun {number origin} hplace => by
      obtain ⟨node, copied, hnode, hcopied, hlabel, -⟩ := horigin number origin hplace
      exact (name?_and_payload?_of_label hnode hcopied hlabel).1
    payload? := fun {number origin} hplace => by
      obtain ⟨node, copied, hnode, hcopied, hlabel, -⟩ := horigin number origin hplace
      exact (name?_and_payload?_of_label hnode hcopied hlabel).2
    children := fun {number origin} => hchildren number origin
    parent? := fun hplace => parent?_of_children h hcopy
      (fun number => by rw [hcontains, hlength]) hnodup hfirst hchildren hplace }

theorem Linked.exists_copy (h : tree.Linked) (htop : tree.contains top = true)
    (keep : NodeId → Bool) (hkeep : keep top = true) :
    ∃ forest copy, tree.Spans [top] forest ∧
      (Copier.filtering keep).copy? tree top = some copy ∧ copy.WellFormed ∧
      tree.CopiedFrom keep top (forest.sift (keep ·.1)).numbers copy := by
  obtain ⟨node, hnode⟩ := contains_iff.mp htop
  refine ⟨_, _, h.spans_singleton hnode, Copier.copy?_filtering h hnode keep hkeep,
    (linked_ofOutline _).wellFormed, h.copiedFrom (h.spans_singleton hnode) hkeep ?_⟩
  rw [Forest.sift, if_pos hkeep]
  rfl

/-- A copy without the branches that a filter refuses is there when the top is not refused. Its
nodes come from the survivors, one each, and are numbered in pre-order; without a filter these are
all nodes of the subtree. -/
theorem copy_keeps_survivors {good : P → Prop} (hreach : Reachable good tree) {id : NodeId}
    (hid : tree.contains id = true) :
    (∀ keep : NodeId → Bool,
      ((Copier.filtering keep).copy? tree id = none ↔ keep id = false) ∧
      ∀ copy, (Copier.filtering keep).copy? tree id = some copy →
        copy.WellFormed ∧ ∃ origins, tree.CopiedFrom keep id origins copy) ∧
    ∃ copy, Copier.plain.copy? tree id = some copy ∧ copy.WellFormed ∧
      tree.CopiedFrom (fun _ => true) id (tree.descendants id) copy := by
  have h := hreach.linked
  constructor
  · intro keep
    cases hkeep : keep id with
    | false =>
      have hrefused : (Copier.filtering keep).copy? tree id = none :=
        Copier.copy?_of_refused h hid hkeep
      simp [hrefused]
    | true =>
      obtain ⟨forest, made, _, hmade, hwell, horigins⟩ := h.exists_copy hid keep hkeep
      rw [hmade]
      simp only [reduceCtorEq, Option.some.injEq, forall_eq', true_and]
      exact ⟨hwell, _, horigins⟩
  · obtain ⟨forest, made, hspan, hmade, hwell, horigins⟩ := h.exists_copy hid (fun _ => true) rfl
    refine ⟨made, hmade, hwell, ?_⟩
    rw [Forest.sift_eq_self fun _ => rfl] at horigins
    rwa [hspan.descendants_eq (h.size_le_bound hspan (apart_singleton tree id))]

private def shelves : Tree Nat :=
  ofOutline ⟨⟨some "library", 1⟩,
    .cons ⟨some "north", 2⟩
      (.cons ⟨some "atlases", 3⟩ (.cons ⟨some "coasts", 4⟩ .nil .nil)
        (.cons ⟨some "novels", 5⟩ .nil .nil))
      (.cons ⟨some "south", 6⟩ .nil .nil)⟩

private def thinned : Tree Nat :=
  ofOutline ⟨⟨some "north", 0⟩,
    .cons ⟨some "atlases", 0⟩ .nil (.cons ⟨some "novels", 5⟩ .nil .nil)⟩

theorem copy_keeps_survivors_shelves :
    Reachable (fun _ => True) shelves ∧ shelves.contains 1 = true ∧
    (Copier.filtering (· != 3)).copy? shelves 3 = none ∧
    (Copier.filtering (· != 3)).copy? shelves 1 = some thinned ∧
    thinned.payload? 1 = some 0 ∧ thinned.payload? 2 = shelves.payload? 4 ∧
    (∃ origins, shelves.CopiedFrom (· != 3) 1 origins thinned) ∧
    ∃ whole, Copier.plain.copy? shelves 1 = some whole ∧
      shelves.CopiedFrom (fun _ => true) 1 [1, 2, 3, 4] whole := by
  have hreach : Reachable (fun _ => True) shelves :=
    reachable_ofOutline _ trivial fun _ _ => trivial
  have hnorth : shelves.contains 1 = true := rfl
  have hcoasts : shelves.contains 3 = true := rfl
  have hcopy : (Copier.filtering (· != 3)).copy? shelves 1 = some thinned := rfl
  obtain ⟨hfilter, whole, hwhole, _, horigins⟩ := copy_keeps_survivors hreach hnorth
  obtain ⟨hrefused, _⟩ := (copy_keeps_survivors hreach hcoasts).1 (· != 3)
  exact ⟨hreach, hnorth, hrefused.mpr rfl, hcopy, rfl, rfl, ((hfilter _).2 _ hcopy).2,
    whole, hwhole, horigins⟩

end Conform.Tree
