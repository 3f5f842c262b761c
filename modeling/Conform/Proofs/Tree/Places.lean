import Conform.Proofs.Tree.Addresses
import Conform.Proofs.Tree.Frames
import Conform.Tree.Place
/-!
# Places made by path

A path is followed as far as it leads, and from there on its names become new
nodes, each the only child of the one before it. Behind the first missing name
nothing is looked up any more, for a new node has no children. New nodes stand
last among their siblings, so that they never come before a node that a path
has led to: what could be followed leads where it led.
-/

namespace Conform

universe u

theorem Path.exists_eq_append {path : Path} (hne : path ≠ .empty) :
    ∃ parent name, path = Path.append parent name := by
  obtain ⟨segments⟩ := path
  rcases List.eq_nil_or_concat segments with rfl | ⟨init, name, rfl⟩
  · exact absurd rfl hne
  · exact ⟨⟨init⟩, name, by rw [Path.append, List.concat_eq_append]⟩

namespace Tree

variable {P : Type u} {tree : Tree P}

/-! ## One more leaf -/

@[simp] theorem bound_grow (tree : Tree P) (parent : NodeId) (label : Label P) :
    (tree.grow parent label).bound = tree.bound + 1 := by
  rw [grow, bound_update, bound_push]

theorem find?_grow {parent : NodeId} (hparent : tree.contains parent = true) (label : Label P)
    (id : NodeId) :
    (tree.grow parent label).find? id =
      if id = tree.bound then some ⟨label, some parent, []⟩
      else if id = parent then (tree.find? id).map (·.addChild tree.bound) else tree.find? id := by
  have hne : parent ≠ tree.bound := Nat.ne_of_lt (lt_bound_of_contains hparent)
  rw [grow, find?_update, find?_push, find?_push, if_neg hne]
  by_cases hid : id = parent
  · subst hid
    rw [if_pos rfl, if_neg hne, if_pos rfl]
  · rw [if_neg hid, if_neg hid]

theorem Linked.childNamed?_grow (h : tree.Linked) {parent : NodeId}
    (hparent : tree.contains parent = true) (label : Label P) (id : NodeId) (name : String) :
    (tree.grow parent label).childNamed? id name = (tree.childNamed? id name).or
      (if id = parent ∧ label.name? = some name then some tree.bound else none) := by
  have hold : (tree.children id).find? (fun child =>
      (tree.grow parent label).name? child == some name) = tree.childNamed? id name := by
    rw [childNamed?, ← List.head?_filter, ← List.head?_filter]
    congr 1
    apply List.filter_congr
    intro child hchild
    rw [name?_grow, if_neg (Nat.ne_of_lt (lt_bound_of_contains (h.contains_child hchild)))]
  have hnew : (tree.grow parent label).name? tree.bound = label.name? := by
    rw [name?_grow, if_pos rfl]
  rw [childNamed?, children_grow hparent]
  by_cases hid : id = parent
  · subst hid
    rw [if_pos rfl, List.find?_append, hold, List.find?_singleton, hnew]
    simp
  · rw [if_neg hid, hold, if_neg fun hboth => hid hboth.1, Option.or_none]

theorem Linked.follow?_grow (h : tree.Linked) {parent : NodeId}
    (hparent : tree.contains parent = true) (label : Label P) {id found : NodeId}
    {names : List String} (hfound : tree.follow? id names = some found) :
    (tree.grow parent label).follow? id names = some found := by
  induction names generalizing id with
  | nil => exact hfound
  | cons name rest ih =>
    rw [follow?] at hfound
    cases hchild : tree.childNamed? id name with
    | none => simp [hchild] at hfound
    | some child =>
      simp only [hchild] at hfound
      rw [follow?, h.childNamed?_grow hparent, hchild, Option.some_or]
      exact ih hfound

/-! ## Names followed before new nodes are made -/

/-- Where names stop leading on: those before lead to a node, and the next is no child's name. -/
theorem exists_known_and_missing (tree : Tree P) (id : NodeId) (names : List String) :
    ∃ known missing base, names = known ++ missing ∧ tree.follow? id known = some base ∧
      ∀ name ∈ missing.head?, tree.childNamed? base name = none := by
  induction names generalizing id with
  | nil => exact ⟨[], [], id, rfl, rfl, nofun⟩
  | cons name rest ih =>
    cases hchild : tree.childNamed? id name with
    | none => exact ⟨[], name :: rest, id, rfl, rfl, fun _ hname => by cases hname; exact hchild⟩
    | some child =>
      obtain ⟨known, missing, base, rfl, hknown, hmissing⟩ := ih child
      exact ⟨name :: known, missing, base, rfl, by simp only [follow?, hchild, hknown], hmissing⟩

section Ensure

variable [Inhabited P]

theorem ensureBelow_of_childNamed? {id child : NodeId} {name : String}
    (hchild : tree.childNamed? id name = some child) (rest : List String) :
    tree.ensureBelow id (name :: rest) = tree.ensureBelow child rest := by
  simp only [ensureBelow, hchild]

theorem ensureBelow_of_missing {id : NodeId} {name : String} (hid : tree.contains id = true)
    (hmissing : tree.childNamed? id name = none) (rest : List String) :
    tree.ensureBelow id (name :: rest) =
      (tree.grow id ⟨some name, default⟩).ensureBelow tree.bound rest := by
  simp only [ensureBelow, hmissing, addChild_eq hid]

theorem ensureBelow_append {id base : NodeId} {known : List String}
    (hknown : tree.follow? id known = some base) (missing : List String) :
    tree.ensureBelow id (known ++ missing) = tree.ensureBelow base missing := by
  induction known generalizing id with
  | nil =>
    cases hknown
    rfl
  | cons name known ih =>
    rw [follow?] at hknown
    cases hchild : tree.childNamed? id name with
    | none => simp [hchild] at hknown
    | some child =>
      simp only [hchild] at hknown
      rw [List.cons_append, ensureBelow_of_childNamed? hchild, ih hknown]

/-- What follows names step by step holds of making their place as well. -/
theorem Linked.ensureBelow_induction
    {motive : Tree P → NodeId → List String → Tree P → NodeId → Prop}
    (done : ∀ {tree : Tree P} {id}, tree.Linked → tree.contains id = true →
      motive tree id [] tree id)
    (found : ∀ {tree grown : Tree P} {id child name rest last}, tree.Linked →
      tree.contains id = true → tree.childNamed? id name = some child →
      motive tree child rest grown last → motive tree id (name :: rest) grown last)
    (made : ∀ {tree grown : Tree P} {id name rest last}, tree.Linked →
      tree.contains id = true → tree.childNamed? id name = none →
      motive (tree.grow id ⟨some name, default⟩) tree.bound rest grown last →
      motive tree id (name :: rest) grown last)
    (h : tree.Linked) {id : NodeId} (hid : tree.contains id = true) (names : List String) :
    motive tree id names (tree.ensureBelow id names).1 (tree.ensureBelow id names).2 := by
  induction names generalizing tree id with
  | nil => exact done h hid
  | cons name rest ih =>
    cases hchild : tree.childNamed? id name with
    | some child =>
      rw [ensureBelow_of_childNamed? hchild]
      exact found h hid hchild (ih h (h.contains_child (mem_children_of_childNamed? hchild).1))
    | none =>
      rw [ensureBelow_of_missing hid hchild]
      exact made h hid hchild (ih (h.grow hid _) (contains_grow_bound _ _ _))

namespace Linked

variable {id : NodeId}

theorem linked_ensureBelow (h : tree.Linked) (hid : tree.contains id = true)
    (names : List String) :
    (tree.ensureBelow id names).1.Linked ∧
      (tree.ensureBelow id names).1.contains (tree.ensureBelow id names).2 = true := by
  refine h.ensureBelow_induction
    (motive := fun _ _ _ grown last => grown.Linked ∧ grown.contains last = true) ?_ ?_ ?_ hid names
  · exact fun h hid => ⟨h, hid⟩
  · exact fun _ _ _ ih => ih
  · exact fun _ _ _ ih => ih

theorem childNamed?_ensureBelow (h : tree.Linked) (hid : tree.contains id = true)
    (names : List String) {other child : NodeId} {name : String}
    (hchild : tree.childNamed? other name = some child) :
    (tree.ensureBelow id names).1.childNamed? other name = some child := by
  revert hchild
  refine h.ensureBelow_induction (motive := fun tree _ _ grown _ =>
    tree.childNamed? other name = some child → grown.childNamed? other name = some child)
    ?_ ?_ ?_ hid names
  · exact fun _ _ hchild => hchild
  · exact fun _ _ _ ih => ih
  · intro tree grown id first rest last h hid _ ih hchild
    apply ih
    rw [h.childNamed?_grow hid, hchild, Option.some_or]

theorem follow?_ensureBelow (h : tree.Linked) (hid : tree.contains id = true)
    (names : List String) :
    (tree.ensureBelow id names).1.follow? id names = some (tree.ensureBelow id names).2 := by
  induction names generalizing tree id with
  | nil => rfl
  | cons name rest ih =>
    cases hchild : tree.childNamed? id name with
    | some child =>
      have hheld := h.contains_child (mem_children_of_childNamed? hchild).1
      rw [ensureBelow_of_childNamed? hchild, follow?, h.childNamed?_ensureBelow hheld rest hchild]
      exact ih h hheld
    | none =>
      have hgrown := h.grow hid ⟨some name, default⟩
      have hnew : (tree.grow id ⟨some name, default⟩).contains tree.bound = true :=
        contains_grow_bound _ _ _
      have hfound : (tree.grow id ⟨some name, default⟩).childNamed? id name = some tree.bound := by
        rw [h.childNamed?_grow hid, hchild]
        simp
      rw [ensureBelow_of_missing hid hchild, follow?,
        hgrown.childNamed?_ensureBelow hnew rest hfound]
      exact ih hgrown hnew

end Linked

/-! ## The new nodes -/

/-- New nodes of these names hang below a node one under the other, with the default payload, and
nothing else has changed; `last` is the lowest of them, or the node itself where there is none. -/
structure Extended (tree : Tree P) (base : NodeId) (names : List String) (grown : Tree P)
    (last : NodeId) : Prop where
  bound : grown.bound = tree.bound + names.length
  find?_old {id : NodeId} (old : id < tree.bound) : grown.find? id =
    if id = base ∧ names ≠ [] then (tree.find? id).map (·.addChild tree.bound) else tree.find? id
  find?_new {rank : Nat} (new : rank < names.length) : grown.find? (tree.bound + rank) =
    some ⟨⟨some names[rank], default⟩, some (if rank = 0 then base else tree.bound + (rank - 1)),
      if rank + 1 < names.length then [tree.bound + (rank + 1)] else []⟩
  last : last = if names = [] then base else tree.bound + (names.length - 1)

namespace Extended

variable {grown : Tree P} {base last : NodeId} {names : List String}

theorem childNamed?_last (h : tree.Extended base names grown last) (hnames : names ≠ [])
    (name : String) : grown.childNamed? last name = none := by
  have hlength : names.length - 1 + 1 = names.length :=
    Nat.sub_add_cancel (List.length_pos_iff.mpr hnames)
  have hlt : names.length - 1 < names.length := by omega
  have hlast := h.find?_new hlt
  rw [if_neg (by omega : ¬names.length - 1 + 1 < names.length)] at hlast
  rw [h.last, if_neg hnames, childNamed?, children_of_find? hlast]
  rfl

theorem cons {name : String} (hbase : tree.contains base = true)
    (h : (tree.grow base ⟨some name, default⟩).Extended tree.bound names grown last) :
    tree.Extended base (name :: names) grown last where
  bound := by
    rw [h.bound, bound_grow, List.length_cons]
    omega
  find?_old {id} hid := by
    have hne : id ≠ tree.bound := Nat.ne_of_lt hid
    have hlt : id < (tree.grow base ⟨some name, default⟩).bound := by
      rw [bound_grow]
      exact Nat.lt_succ_of_lt hid
    rw [h.find?_old hlt, if_neg fun hboth => hne hboth.1, find?_grow hbase, if_neg hne]
    simp
  find?_new {rank} hrank := by
    cases rank with
    | zero =>
      have hlt : tree.bound < (tree.grow base ⟨some name, default⟩).bound := by
        rw [bound_grow]
        exact Nat.lt_succ_self _
      rw [Nat.add_zero, h.find?_old hlt, find?_grow hbase, if_pos rfl, bound_grow]
      cases names <;> simp [Node.addChild]
    | succ rank =>
      have hnew := h.find?_new (Nat.lt_of_succ_lt_succ hrank)
      have hparent : (if rank = 0 then tree.bound else tree.bound + 1 + (rank - 1)) =
          tree.bound + rank := by
        split <;> omega
      have hlater : rank + 1 < names.length ↔ rank + 1 + 1 < (name :: names).length :=
        Nat.succ_lt_succ_iff.symm
      have hplace : ∀ rank, tree.bound + 1 + rank = tree.bound + (rank + 1) := fun rank => by omega
      rw [bound_grow, hparent, if_congr hlater rfl rfl, hplace, hplace] at hnew
      rw [hnew, if_neg (Nat.succ_ne_zero rank), Nat.add_sub_cancel, List.getElem_cons_succ]
  last := by
    rw [h.last, bound_grow]
    cases names with
    | nil => simp
    | cons next rest => simp [Nat.add_assoc, Nat.add_comm 1]

end Extended

theorem extended_ensureBelow {id : NodeId} (hid : tree.contains id = true) {names : List String}
    (hmissing : ∀ name ∈ names.head?, tree.childNamed? id name = none) :
    tree.Extended id names (tree.ensureBelow id names).1 (tree.ensureBelow id names).2 := by
  induction names generalizing tree id with
  | nil =>
    exact ⟨rfl, fun _ => by simp [ensureBelow], fun hnew => absurd hnew (Nat.not_lt_zero _), rfl⟩
  | cons name rest ih =>
    have hnew : (tree.grow id ⟨some name, default⟩).contains tree.bound = true :=
      contains_grow_bound _ _ _
    have hne : tree.bound ≠ id := Nat.ne_of_gt (lt_bound_of_contains hid)
    have hnone : (tree.grow id ⟨some name, default⟩).children tree.bound = [] := by
      rw [children_grow hid, if_neg hne, children_bound]
    rw [ensureBelow_of_missing hid (hmissing name rfl)]
    refine (ih hnew fun next _ => ?_).cons hid
    rw [childNamed?, hnone]
    rfl

theorem put?_append (tree : Tree P) (parent : Path) (name : String) (payload : P) :
    tree.put? (parent.append name) payload = some
      ((tree.ensurePath parent).1.addChild (tree.ensurePath parent).2 name payload) := by
  have hlast : (parent.append name).last? = some name := by simp [Path.last?]
  simp only [put?, Path.parent?_append, hlast]

/-! ## Paths below the root -/

namespace Linked

theorem linked_ensurePath (h : tree.Linked) (path : Path) :
    (tree.ensurePath path).1.Linked ∧
      (tree.ensurePath path).1.contains (tree.ensurePath path).2 = true :=
  h.linked_ensureBelow h.contains_root path.segments

theorem resolve?_ensurePath (h : tree.Linked) (path : Path) :
    (tree.ensurePath path).1.resolve? root path = some (tree.ensurePath path).2 := by
  rw [(h.linked_ensurePath path).1.resolve?_root]
  exact h.follow?_ensureBelow h.contains_root path.segments

theorem exists_extended_ensurePath (h : tree.Linked) (path : Path) :
    ∃ known missing base, path.segments = known ++ missing ∧
      tree.resolve? root ⟨known⟩ = some base ∧
      (∀ longer, longer <+: path.segments → known.length < longer.length →
        tree.resolve? root ⟨longer⟩ = none) ∧
      tree.Extended base missing (tree.ensurePath path).1 (tree.ensurePath path).2 := by
  obtain ⟨known, missing, base, hpath, hknown, hmissing⟩ :=
    exists_known_and_missing tree root path.segments
  refine ⟨known, missing, base, hpath, by rw [h.resolve?_root, hknown], ?_, ?_⟩
  · intro longer hlonger hlength
    rw [hpath] at hlonger
    obtain ⟨rest, rfl⟩ := List.prefix_of_prefix_length_le (List.prefix_append known missing) hlonger
      (Nat.le_of_lt hlength)
    rw [List.prefix_append_right_inj] at hlonger
    cases rest with
    | nil => simp at hlength
    | cons name rest =>
      obtain ⟨others, rfl⟩ := hlonger
      rw [h.resolve?_root, follow?_append, hknown, Option.bind_some, follow?, hmissing name rfl]
  · rw [ensurePath, hpath, ensureBelow_append hknown]
    exact extended_ensureBelow (h.contains_of_follow? h.contains_root hknown) hmissing

theorem ensurePath_of_resolve? (h : tree.Linked) {path : Path} {held : NodeId}
    (hheld : tree.resolve? root path = some held) : tree.ensurePath path = (tree, held) := by
  rw [h.resolve?_root] at hheld
  have hplace := ensureBelow_append hheld []
  rwa [List.append_nil] at hplace

theorem childNamed?_ensurePath (h : tree.Linked) (parent : Path) (name : String) :
    (tree.ensurePath parent).1.childNamed? (tree.ensurePath parent).2 name =
      tree.resolve? root (parent.append name) := by
  rw [h.resolve?_root, Path.append_segments, follow?_append, ← h.resolve?_root]
  cases hparent : tree.resolve? root parent with
  | some held =>
    rw [h.ensurePath_of_resolve? hparent, Option.bind_some, follow?]
    cases tree.childNamed? held name <;> rfl
  | none =>
    obtain ⟨known, missing, base, hpath, hknown, _, hextended⟩ :=
      h.exists_extended_ensurePath parent
    have hmissing : missing ≠ [] := by
      rintro rfl
      rw [List.append_nil] at hpath
      obtain ⟨segments⟩ := parent
      rw [show segments = known from hpath, hknown] at hparent
      cases hparent
    exact hextended.childNamed?_last hmissing name

/-- A node added at a path is found there unless another one was found before. -/
theorem resolve?_grow_ensurePath (h : tree.Linked) (parent : Path) (name : String) (payload : P) :
    ((tree.ensurePath parent).1.grow (tree.ensurePath parent).2 ⟨some name, payload⟩).resolve? root
        (parent.append name) =
      (tree.resolve? root (parent.append name)).or (some (tree.ensurePath parent).1.bound) := by
  obtain ⟨hgrown, hplace⟩ := h.linked_ensurePath parent
  have hparent := h.resolve?_ensurePath parent
  have hchild := h.childNamed?_ensurePath parent name
  generalize tree.ensurePath parent = ensured at *
  obtain ⟨grown, place⟩ := ensured
  have hfollowed : (grown.grow place ⟨some name, payload⟩).follow? root parent.segments =
      some place := by
    rw [hgrown.resolve?_root] at hparent
    exact hgrown.follow?_grow hplace _ hparent
  rw [(hgrown.grow hplace _).resolve?_root, Path.append_segments, follow?_append, hfollowed,
    Option.bind_some, follow?, hgrown.childNamed?_grow hplace, hchild]
  simp only [and_self, if_true]
  cases tree.resolve? root (parent.append name) <;> rfl

end Linked

/-- The place for a path is found at the path. Where the path led to a node nothing changes;
otherwise the names behind the longest part of it that led to a node become new nodes below that
node, each the last child of the one before. At the path of a text with a last name a new leaf
becomes the last child of the place for what comes before; it is found there exactly when nothing
was, and what was found still is. -/
theorem ensurePath_and_put?_places {good : P → Prop} (hreach : Reachable good tree) :
    (∀ path, ∃ grown last, tree.ensurePath path = (grown, last) ∧
      grown.resolve? root path = some last ∧
      ((∃ held, tree.resolve? root path = some held) → grown = tree) ∧
      ∃ known missing base, path.segments = known ++ missing ∧
        tree.resolve? root ⟨known⟩ = some base ∧
        (∀ longer, longer <+: path.segments → known.length < longer.length →
          tree.resolve? root ⟨longer⟩ = none) ∧
        tree.Extended base missing grown last) ∧
    ∀ text payload, Path.parse text ≠ .empty →
      ∃ parent name grown place final new, Path.parse text = parent.append name ∧
        tree.ensurePath parent = (grown, place) ∧
        tree.put? (Path.parse text) payload = some (final, .ok new) ∧
        ¬grown.contains new = true ∧ grown.contains place = true ∧
        (∀ id, final.find? id =
          if id = new then some ⟨⟨some name, payload⟩, some place, []⟩
          else if id = place then (grown.find? id).map (·.addChild new) else grown.find? id) ∧
        (final.resolve? root (Path.parse text) = some new ↔
          tree.resolve? root (Path.parse text) = none) ∧
        ∀ held, tree.resolve? root (Path.parse text) = some held →
          final.resolve? root (Path.parse text) = some held := by
  have h := hreach.linked
  constructor
  · intro path
    refine ⟨(tree.ensurePath path).1, (tree.ensurePath path).2, rfl, h.resolve?_ensurePath path, ?_,
      h.exists_extended_ensurePath path⟩
    rintro ⟨held, hheld⟩
    rw [h.ensurePath_of_resolve? hheld]
  · intro text payload hne
    obtain ⟨parent, name, hpath⟩ := Path.exists_eq_append hne
    obtain ⟨hgrown, hplace⟩ := h.linked_ensurePath parent
    have hfound := h.resolve?_grow_ensurePath parent name payload
    rw [hpath]
    refine ⟨parent, name, _, _, _, _, rfl, rfl, ?_, ?_, hplace,
      find?_grow hplace ⟨some name, payload⟩, ?_, ?_⟩
    · rw [put?_append, addChild_eq hplace]
    · exact fun hnew => Nat.lt_irrefl _ (lt_bound_of_contains hnew)
    · rw [hfound]
      cases hheld : tree.resolve? root (parent.append name) with
      | none => simp
      | some held =>
        have hchild := h.childNamed?_ensurePath parent name
        rw [hheld] at hchild
        have hold := hgrown.contains_child (mem_children_of_childNamed? hchild).1
        simpa using Nat.ne_of_lt (lt_bound_of_contains hold)
    · intro held hheld
      rw [hfound, hheld, Option.some_or]

end Ensure

private def gallery : Tree Nat :=
  ofOutline ⟨⟨some "gallery", 1⟩,
    .cons ⟨some "", 2⟩ (.cons ⟨some "north", 3⟩ .nil .nil)
      (.cons ⟨some "hall", 4⟩ (.cons ⟨some "frieze", 5⟩ .nil .nil)
        (.cons ⟨some "hall", 6⟩ .nil .nil))⟩

theorem ensurePath_and_put?_places_gallery :
    Reachable (fun _ => True) gallery ∧
    (∃ grown known missing base,
      gallery.ensurePath ⟨["hall", "stairs", "", "stairs"]⟩ = (grown, 8) ∧
      grown.resolve? root ⟨["hall", "stairs", "", "stairs"]⟩ = some 8 ∧
      ["hall", "stairs", "", "stairs"] = known ++ missing ∧
      gallery.resolve? root ⟨known⟩ = some base ∧ gallery.Extended base missing grown 8 ∧
      grown.children 3 = [4, 6] ∧ grown.children 6 = [7]) ∧
    Path.parse "/hall/frieze" ≠ .empty ∧
    ∃ final, gallery.put? (Path.parse "/hall/frieze") 9 = some (final, .ok 6) ∧
      final.children 3 = [4, 6] ∧ final.resolve? root (Path.parse "/hall/frieze") = some 4 := by
  have hreach : Reachable (fun _ => True) gallery :=
    reachable_ofOutline _ trivial fun _ _ => trivial
  have hparse : Path.parse "/hall/frieze" = ⟨["hall", "frieze"]⟩ := by decide
  have hne : Path.parse "/hall/frieze" ≠ .empty := by
    rw [hparse]
    decide
  obtain ⟨hensure, hput⟩ := ensurePath_and_put?_places hreach
  refine ⟨hreach, ?_, hne, ?_⟩
  · obtain ⟨grown, last, hanswer, hfound, _, known, missing, base, hpath, hknown, _, hextended⟩ :=
      hensure ⟨["hall", "stairs", "", "stairs"]⟩
    cases hanswer
    exact ⟨_, known, missing, base, rfl, hfound, hpath, hknown, hextended, rfl, rfl⟩
  · obtain ⟨_, _, _, _, final, new, _, _, hanswer, _, _, _, _, hfound⟩ := hput "/hall/frieze" 9 hne
    have hheld := hfound 4 (by rw [hparse]; rfl)
    rw [hparse] at hanswer hheld ⊢
    cases hanswer
    exact ⟨_, rfl, rfl, hheld⟩

end Tree

end Conform
