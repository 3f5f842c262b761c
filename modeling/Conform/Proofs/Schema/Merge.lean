import Conform.Proofs.Schema.Rows
import Conform.Proofs.Tree.Reachable
import Mathlib.Data.List.Find
import Mathlib.Data.List.Forall2
/-!
# Unions of schemas

What stands at a path of a merged schema, told by what stands there in the two
schemas. A row is merged tree by tree, so the claim for a path follows from
the claim for its first name and the one for the rest.
-/

namespace Conform

namespace Schema

open Conform.Tree (root NamedRow NumberedRow)

/-- What becomes of a tree of the first schema's row, given the row of the second schema. -/
inductive MergedTree (place : Path) (theirs : Forest (NodeId × Label Entry)) :
    Label Entry × Forest (Label Entry) → Label Entry × Forest (Label Entry) → Prop
  | alone {tree : Label Entry × Forest (Label Entry)}
      (missing : partner? theirs tree.1.title = none) :
      MergedTree place theirs tree (bareTree tree)
  | both {ours other : Label Entry} {id : NodeId} {below merged : Forest (Label Entry)}
      {otherBelow : Forest (NodeId × Label Entry)}
      (found : partner? theirs ours.title = some ((id, other), otherBelow))
      (down : mergeBelow (place.append ours.title) ours other below otherBelow = .ok merged) :
      MergedTree place theirs (ours, below) (⟨some ours.title, ours.payload⟩, merged)

/-- The numbers of the trees in a row that have counterparts among other labels. -/
def counterparts (theirs : Forest (NodeId × Label Entry)) (labels : List (Label Entry)) :
    List NodeId :=
  labels.filterMap fun label => (partner? theirs label.title).map (·.1.1)

theorem trees_of_mergeRow {place : Path} {theirs : Forest (NodeId × Label Entry)}
    {ours merged : Forest (Label Entry)} {used : List NodeId}
    (h : mergeRow place theirs ours = .ok (merged, used)) :
    List.Forall₂ (MergedTree place theirs) ours.trees merged.trees ∧
      used = counterparts theirs ours.roots := by
  induction ours generalizing merged used with
  | nil =>
    cases h
    exact ⟨.nil, rfl⟩
  | cons label below rest _ ih =>
    rw [Forest.roots, counterparts, List.filterMap_cons]
    cases hfind : partner? theirs label.title with
    | none =>
      rw [mergeRow_cons_missing hfind] at h
      obtain ⟨⟨others, used'⟩, hrest, heq⟩ := bind_eq_ok_iff.mp h
      cases heq
      obtain ⟨htrees, hused⟩ := ih hrest
      have hbare : (⟨label.name?, if below.isEmpty then label.payload else default⟩, below.bare) =
          bareTree (label, below) := by
        rw [bareTree]
        cases below.isEmpty <;> rfl
      refine ⟨.cons ?_ htrees, hused⟩
      rw [hbare]
      exact .alone hfind
    | some found =>
      obtain ⟨⟨id, other⟩, otherBelow⟩ := found
      rw [mergeRow_cons_found hfind] at h
      obtain ⟨mergedBelow, hbelow, h⟩ := bind_eq_ok_iff.mp h
      obtain ⟨⟨others, used'⟩, hrest, heq⟩ := bind_eq_ok_iff.mp h
      cases heq
      obtain ⟨htrees, hused⟩ := ih hrest
      exact ⟨.cons (.both hfind hbelow) htrees, congrArg (id :: ·) hused⟩

/-! ## Names and lookups in a merged row -/

section Row

variable {place : Path} {theirs : Forest (NodeId × Label Entry)}

theorem title_of_name? {label : Label Entry} {name : String} (h : label.name? = some name) :
    label.title = name := by
  rw [Label.title, h]
  rfl

theorem MergedTree.name?_eq {tree part : Label Entry × Forest (Label Entry)}
    (h : MergedTree place theirs tree part) (hname : ∃ name, tree.1.name? = some name) :
    part.1.name? = tree.1.name? := by
  cases h with
  | alone _ => exact name?_bareTree tree
  | both _ _ =>
    obtain ⟨name, hname⟩ := hname
    rw [title_of_name? hname]
    exact hname.symm

/-- A merged row has the names of the first schema's row, and under each what became of it. -/
theorem find?_of_forall₂ {trees parts : List (Label Entry × Forest (Label Entry))}
    (h : List.Forall₂ (MergedTree place theirs) trees parts)
    (hnamed : ∀ tree ∈ trees, ∃ name, tree.1.name? = some name) :
    parts.map (·.1.name?) = trees.map (·.1.name?) ∧ ∀ name,
      Option.Rel (MergedTree place theirs) (trees.find? fun tree => tree.1.name? == some name)
        (parts.find? fun tree => tree.1.name? == some name) := by
  induction h with
  | nil => exact ⟨rfl, fun _ => .none⟩
  | @cons tree part trees parts hfirst _ ih =>
    obtain ⟨hnames, hfind⟩ := ih fun other hother => hnamed other (List.mem_cons_of_mem _ hother)
    have hname := hfirst.name?_eq (hnamed tree List.mem_cons_self)
    refine ⟨by rw [List.map_cons, List.map_cons, hname, hnames], fun name => ?_⟩
    rw [List.find?_cons, List.find?_cons, hname]
    cases tree.1.name? == some name with
    | true => exact .some hfirst
    | false => exact hfind name

theorem mem_counterparts_iff (htheirs : NumberedRow theirs.roots) {labels : List (Label Entry)}
    (hnamed : ∀ label ∈ labels, ∃ name, label.name? = some name)
    {tree : (NodeId × Label Entry) × Forest (NodeId × Label Entry)} (htree : tree ∈ theirs.trees) :
    tree.1.1 ∈ counterparts theirs labels ↔ tree.1.2.name? ∈ labels.map (·.name?) := by
  obtain ⟨hids, _, hnames⟩ := htheirs
  rw [Forest.roots_eq, List.map_map] at hids hnames
  rw [List.map_map] at hnames
  rw [counterparts, List.mem_filterMap, List.mem_map]
  constructor
  · rintro ⟨label, hlabel, hfound⟩
    obtain ⟨found, hfind, hid⟩ := Option.map_eq_some_iff.mp hfound
    rw [partner?_eq] at hfind
    have heq := List.inj_on_of_nodup_map hids (List.mem_of_find?_eq_some hfind) htree hid
    have htest := List.find?_some hfind
    obtain ⟨name, hname⟩ := hnamed label hlabel
    subst heq
    refine ⟨label, hlabel, ?_⟩
    rw [hname, ← title_of_name? hname]
    exact (eq_of_beq htest).symm
  · rintro ⟨label, hlabel, hname⟩
    obtain ⟨name, hname'⟩ := hnamed label hlabel
    refine ⟨label, hlabel, ?_⟩
    have hfind := find?_of_nodup hnames htree (hname.symm.trans hname')
    rw [partner?_eq, title_of_name? hname']
    exact congrArg (Option.map (·.1.1)) hfind

theorem trees_withRest (theirs : Forest (NodeId × Label Entry)) (merged : Forest (Label Entry))
    (used : List NodeId) :
    (withRest theirs (merged, used)).trees = merged.trees ++
      ((theirs.trees.filter fun tree => !used.contains tree.1.1).map fun tree =>
        bareTree (tree.1.2, tree.2.map (·.2))) := by
  rw [withRest, Forest.trees_append, Forest.trees_bare, Forest.trees_map, Forest.trees_filterRoots,
    List.map_map]
  rfl

theorem named?_withRest (theirs : Forest (NodeId × Label Entry)) (merged : Forest (Label Entry))
    (used : List NodeId) (name : String) :
    (withRest theirs (merged, used)).named? name = (merged.named? name).or
      ((partner? (theirs.filterRoots fun root => !used.contains root.1) name).map fun tree =>
        bareTree (tree.1.2, tree.2.map (·.2))) := by
  rw [withRest, Forest.named?_append, Forest.named?_bare, named?_map_snd, Option.map_map]
  rfl

variable {ours merged : Forest (Label Entry)} {used : List NodeId}

theorem used_contains_iff (hours : NamedRow ours.roots) (htheirs : NumberedRow theirs.roots)
    (h : mergeRow place theirs ours = .ok (merged, used))
    {tree : (NodeId × Label Entry) × Forest (NodeId × Label Entry)} (htree : tree ∈ theirs.trees) :
    used.contains tree.1.1 = decide (tree.1.2.name? ∈ ours.roots.map (·.name?)) := by
  rw [(trees_of_mergeRow h).2, List.contains_eq_mem, decide_eq_decide]
  exact mem_counterparts_iff htheirs hours.1 htree

theorem find?_mergeRow (hours : NamedRow ours.roots)
    (h : mergeRow place theirs ours = .ok (merged, used)) :
    merged.roots.map (·.name?) = ours.roots.map (·.name?) ∧ ∀ name,
      Option.Rel (MergedTree place theirs) (ours.named? name) (merged.named? name) := by
  have hnamed : ∀ tree ∈ ours.trees, ∃ name, tree.1.name? = some name :=
    fun tree htree => hours.1 tree.1 (Forest.mem_roots_of_mem_trees htree)
  rw [Forest.roots_eq, Forest.roots_eq, List.map_map, List.map_map]
  exact find?_of_forall₂ (trees_of_mergeRow h).1 hnamed

theorem names_withRest (hours : NamedRow ours.roots) (htheirs : NumberedRow theirs.roots)
    (h : mergeRow place theirs ours = .ok (merged, used)) :
    (withRest theirs (merged, used)).roots.map (·.name?) = ours.roots.map (·.name?) ++
      (theirs.roots.map (·.2.name?)).filter fun name =>
        decide (name ∉ ours.roots.map (·.name?)) := by
  have hkept : theirs.trees.filter (fun tree => !used.contains tree.1.1) = theirs.trees.filter
      fun tree => decide (tree.1.2.name? ∉ ours.roots.map (·.name?)) := by
    refine List.filter_congr fun tree htree => ?_
    rw [used_contains_iff hours htheirs h htree, decide_not]
  rw [Forest.roots_eq, trees_withRest, List.map_append, List.map_append, ← Forest.roots_eq,
    (find?_mergeRow hours h).1, hkept, Forest.roots_eq theirs]
  simp only [List.map_map, List.filter_map]
  congr 1
  refine List.map_congr_left fun tree _ => ?_
  exact name?_bareTree _

/-- What has a name in the first row becomes what merging makes of it. -/
theorem find?_withRest_of_some (hours : NamedRow ours.roots)
    (h : mergeRow place theirs ours = .ok (merged, used)) {name : String}
    {tree : Label Entry × Forest (Label Entry)}
    (htree : ours.named? name = some tree) :
    ∃ part, (withRest theirs (merged, used)).named? name = some part ∧
      MergedTree place theirs tree part := by
  have hrel := (find?_mergeRow hours h).2 name
  rw [htree] at hrel
  generalize hpart : merged.named? name = part? at hrel
  cases hrel with
  | @some _ part hmerged =>
    refine ⟨part, ?_, hmerged⟩
    rw [named?_withRest, hpart, Option.some_or]

theorem find?_withRest_of_none (hours : NamedRow ours.roots) (htheirs : NumberedRow theirs.roots)
    (h : mergeRow place theirs ours = .ok (merged, used)) {name : String}
    (hnone : ours.named? name = none) :
    (withRest theirs (merged, used)).named? name =
      (partner? theirs name).map fun tree => bareTree (tree.1.2, tree.2.map (·.2)) := by
  have hrel := (find?_mergeRow hours h).2 name
  rw [hnone] at hrel
  generalize hpart : merged.named? name = part? at hrel
  cases hrel
  have hmissing : (some name) ∉ ours.roots.map (·.name?) := by
    rw [Forest.roots_eq, List.map_map, List.mem_map]
    rintro ⟨tree, htree, hname⟩
    exact List.find?_eq_none.mp hnone tree htree (beq_iff_eq.mpr hname)
  rw [named?_withRest, hpart, Option.none_or, partner?_eq, partner?_eq, Forest.trees_filterRoots,
    List.find?_filter]
  congr 1
  refine List.find?_congr fun tree htree => ?_
  rw [used_contains_iff hours htheirs h htree]
  cases hname : tree.1.2.name? == some name with
  | false => simp
  | true => simp [eq_of_beq hname, hmissing]

end Row

/-! ## Places in a merged schema -/

/-- What stands at one place of the first schema, of the second and of the merged one. -/
inductive Joined : Option (Outline Entry) → Option (Outline Entry) → Option (Outline Entry) → Prop
  | nowhere : Joined none none none
  | ours (outline : Outline Entry) : Joined (some outline) none (some outline.bare)
  | theirs (outline : Outline Entry) : Joined none (some outline) (some outline.bare)
  | both {ours theirs merged : Outline Entry} (root : merged.root = ours.root)
      (names : merged.names =
        ours.names ++ theirs.names.filter fun name => decide (name ∉ ours.names))
      (leaf : ours.below.isEmpty = theirs.below.isEmpty) :
      Joined (some ours) (some theirs) (some merged)

theorem Joined.ours_only (place? : Option (Outline Entry)) :
    Joined place? none (place?.map Outline.bare) := by
  cases place? with
  | none => exact .nowhere
  | some outline => exact .ours outline

theorem Joined.theirs_only (place? : Option (Outline Entry)) :
    Joined none place? (place?.map Outline.bare) := by
  cases place? with
  | none => exact .nowhere
  | some outline => exact .theirs outline

/-- What is merged below two nodes of the same name, at every path of names from there. -/
def JoinedBelow (names : List String) : Prop :=
  ∀ {path : Path} {ours other : Label Entry} {below merged : Forest (Label Entry)}
    {otherBelow : Forest (NodeId × Label Entry)}, below.EachRow NamedRow →
    otherBelow.EachRow NumberedRow → mergeBelow path ours other below otherBelow = .ok merged →
    Joined (Outline.at? ⟨ours, below⟩ names) (Outline.at? ⟨other, otherBelow.map (·.2)⟩ names)
      (Outline.at? ⟨ours, merged⟩ names)

theorem joined_cons {rest : List String} (hrest : JoinedBelow rest) {place : Path}
    {theirs : Forest (NodeId × Label Entry)} {ours merged : Forest (Label Entry)}
    {used : List NodeId} (hours : ours.EachRow NamedRow) (htheirs : theirs.EachRow NumberedRow)
    (h : mergeRow place theirs ours = .ok (merged, used)) (label other result : Label Entry)
    (name : String) :
    Joined (Outline.at? ⟨label, ours⟩ (name :: rest))
      (Outline.at? ⟨other, theirs.map (·.2)⟩ (name :: rest))
      (Outline.at? ⟨result, withRest theirs (merged, used)⟩ (name :: rest)) := by
  rw [Outline.at?_cons, Outline.at?_cons, Outline.at?_cons, named?_map_snd]
  cases htree : ours.named? name with
  | none =>
    rw [find?_withRest_of_none hours.row htheirs.row h htree]
    cases partner? theirs name with
    | none => exact .nowhere
    | some tree =>
      show Joined none (Outline.at? ⟨tree.1.2, tree.2.map (·.2)⟩ rest)
        (Outline.at? (Outline.bare ⟨tree.1.2, tree.2.map (·.2)⟩) rest)
      rw [Outline.at?_bare]
      exact .theirs_only _
  | some tree =>
    obtain ⟨part, hpart, hmerged⟩ := find?_withRest_of_some hours.row h htree
    have hname := Forest.name?_of_named? htree
    rw [hpart]
    cases hmerged with
    | alone missing =>
      rw [title_of_name? hname] at missing
      rw [missing]
      show Joined (Outline.at? ⟨tree.1, tree.2⟩ rest) none
        (Outline.at? (Outline.bare ⟨tree.1, tree.2⟩) rest)
      rw [Outline.at?_bare]
      exact .ours_only _
    | @both ours other id below merged otherBelow found down =>
      rw [title_of_name? hname] at found
      have hlabel : (⟨some ours.title, ours.payload⟩ : Label Entry) = ours := by
        rw [title_of_name? hname, ← hname]
      have hother := htheirs.down (mem_trees_of_partner? found)
      rw [found, hlabel]
      exact hrest (hours.down (Forest.mem_trees_of_named? htree)) hother down

theorem joined_below (names : List String) : JoinedBelow names := by
  induction names with
  | nil =>
    intro path ours other below merged otherBelow hours htheirs h
    rw [mergeBelow] at h
    split at h
    · next hbelow hother =>
      obtain ⟨_, _, rfl⟩ := map_eq_ok_iff.mp h
      rw [(Forest.isEmpty_iff below).mp hbelow, (Forest.isEmpty_iff otherBelow).mp hother]
      exact .both rfl rfl rfl
    · next hbelow hother =>
      obtain ⟨⟨row, used⟩, hrow, rfl⟩ := map_eq_ok_iff.mp h
      refine .both rfl ?_ ?_
      · show (withRest otherBelow (row, used)).roots.map (·.name?) = _
        rw [names_withRest hours.row htheirs.row hrow, Outline.names, Outline.names,
          Forest.roots_map, List.map_map]
        rfl
      · show below.isEmpty = (otherBelow.map (·.2)).isEmpty
        rw [Forest.isEmpty_map, hbelow, hother]
    · cases h
  | cons name rest ih =>
    intro path ours other below merged otherBelow hours htheirs h
    rw [mergeBelow] at h
    split at h
    · next hbelow hother =>
      obtain ⟨_, _, rfl⟩ := map_eq_ok_iff.mp h
      rw [(Forest.isEmpty_iff below).mp hbelow, (Forest.isEmpty_iff otherBelow).mp hother]
      exact .nowhere
    · next hbelow hother =>
      obtain ⟨⟨row, used⟩, hrow, rfl⟩ := map_eq_ok_iff.mp h
      exact joined_cons ih hours htheirs hrow _ _ _ name
    · cases h

/-! ## What joined places have in common -/

namespace Joined

variable {ours? theirs? merged? : Option (Outline Entry)}

theorem isSome_iff (h : Joined ours? theirs? merged?) :
    merged?.isSome = true ↔ ours?.isSome = true ∨ theirs?.isSome = true := by
  cases h <;> simp

theorem names_eq (h : Joined ours? theirs? merged?) :
    merged?.elim [] Outline.names = ours?.elim [] Outline.names ++
      (theirs?.elim [] Outline.names).filter fun name =>
        decide (name ∉ ours?.elim [] Outline.names) := by
  cases h with
  | nowhere => rfl
  | ours outline => simp
  | theirs outline => simp
  | both _ names _ => exact names

theorem isEmpty_eq (h : Joined ours? theirs? merged?) {merged : Outline Entry}
    (hmerged : merged? = some merged) :
    (∀ ours, ours? = some ours → merged.below.isEmpty = ours.below.isEmpty) ∧
      ∀ theirs, theirs? = some theirs → merged.below.isEmpty = theirs.below.isEmpty := by
  cases h with
  | nowhere => cases hmerged
  | ours outline =>
    cases hmerged
    refine ⟨fun ours heq => ?_, fun _ heq => nomatch heq⟩
    cases heq
    exact outline.isEmpty_bare
  | theirs outline =>
    cases hmerged
    refine ⟨fun _ heq => (nomatch heq), fun theirs heq => ?_⟩
    cases heq
    exact outline.isEmpty_bare
  | @both ours theirs _ _ names leaf =>
    cases hmerged
    have hsame : merged.below.isEmpty = ours.below.isEmpty := by
      rw [← Outline.isEmpty_names, ← Outline.isEmpty_names, names]
      cases hours : ours.names with
      | cons name rest => rfl
      | nil =>
        have hempty : theirs.names.isEmpty = true := by
          rw [Outline.isEmpty_names, ← leaf, ← Outline.isEmpty_names, hours]
          rfl
        rw [List.isEmpty_iff.mp hempty]
        rfl
    refine ⟨fun _ heq => ?_, fun _ heq => ?_⟩
    · cases heq
      exact hsame
    · cases heq
      exact hsame.trans leaf

theorem payload_of_leaf (h : Joined ours? theirs? merged?) {merged : Outline Entry}
    (hmerged : merged? = some merged) (hleaf : merged.below.isEmpty = true) :
    (∀ ours, ours? = some ours → merged.root.payload = ours.root.payload) ∧
      (ours? = none → ∀ theirs, theirs? = some theirs →
        merged.root.payload = theirs.root.payload) := by
  cases h with
  | nowhere => cases hmerged
  | ours outline =>
    cases hmerged
    rw [Outline.isEmpty_bare] at hleaf
    refine ⟨fun _ heq => ?_, fun heq => nomatch heq⟩
    cases heq
    rw [Outline.root_bare hleaf]
  | theirs outline =>
    cases hmerged
    rw [Outline.isEmpty_bare] at hleaf
    refine ⟨fun _ heq => (nomatch heq), fun _ _ heq => ?_⟩
    cases heq
    rw [Outline.root_bare hleaf]
  | both root _ _ =>
    cases hmerged
    refine ⟨fun _ heq => ?_, fun heq => nomatch heq⟩
    cases heq
    rw [root]

theorem payload_of_both (h : Joined ours? theirs? merged?) {ours theirs merged : Outline Entry}
    (hours : ours? = some ours) (htheirs : theirs? = some theirs)
    (hmerged : merged? = some merged) : merged.root.payload = ours.root.payload := by
  cases h with
  | nowhere => cases hmerged
  | ours => cases htheirs
  | theirs => cases hours
  | both root _ _ =>
    cases hours
    cases hmerged
    rw [root]

end Joined

/-! ## Merged schemas -/

variable {a b m : Schema}

theorem map_snd_numberedBelow (schema : Schema) :
    (numberedBelow schema).map (·.2) = schema.labelsBelow root := by
  rw [numberedBelow, Tree.labelsBelow, Forest.map_map]
  rfl

theorem eachRow_numberedBelow (hnamed : a.Named) (h : a.Linked) :
    (numberedBelow a).EachRow NumberedRow :=
  hnamed.eachRow h root

theorem eachRow_labelsBelow (hnamed : a.Named) (h : a.Linked) :
    (a.labelsBelow root).EachRow NamedRow := by
  rw [← map_snd_numberedBelow]
  exact (eachRow_numberedBelow hnamed h).map _ fun _ hrow => hrow.2

theorem outlines_of_merge (ha : a.Linked) (hb : b.Linked) (hnamed : a.Named) (hnamed' : b.Named)
    (h : a.merge b = .ok m) :
    ∃ ours theirs merged, a.outline? root = some ours ∧ b.outline? root = some theirs ∧
      m.Linked ∧ m.outline? root = some merged ∧ merged.root = ours.root ∧
      (merged.names = ours.names ++ theirs.names.filter fun name => decide (name ∉ ours.names)) ∧
      ∀ name rest, Joined (ours.at? (name :: rest)) (theirs.at? (name :: rest))
        (merged.at? (name :: rest)) := by
  rw [merge_eq_mergeRows ha hb] at h
  obtain ⟨⟨row, used⟩, hrow, heq⟩ := bind_eq_ok_iff.mp h
  cases heq
  have hours := eachRow_labelsBelow hnamed ha
  have htheirs := eachRow_numberedBelow hnamed' hb
  obtain ⟨node, hnode⟩ := Tree.contains_iff.mp ha.contains_root
  obtain ⟨node', hnode'⟩ := Tree.contains_iff.mp hb.contains_root
  refine ⟨_, _, _, Tree.outline?_of_find? hnode, Tree.outline?_of_find? hnode',
    Tree.linked_ofOutline _, Tree.outline?_ofOutline _, ?_, ?_, ?_⟩
  · rw [Tree.name?_of_find? hnode, Tree.payload?_of_find? hnode, Option.getD_some]
  · show (withRest (numberedBelow b) (row, used)).roots.map (·.name?) = _
    rw [names_withRest hours.row htheirs.row hrow, Outline.names, Outline.names,
      ← map_snd_numberedBelow b, Forest.roots_map, List.map_map]
    rfl
  · intro name rest
    rw [← map_snd_numberedBelow b]
    exact joined_cons (joined_below rest) hours htheirs hrow _ _ _ name

/-! ## A schema merged with itself -/

theorem checkLeaves_self (path : Path) {entry : Entry} (htyped : entry.kind?.isSome = true) :
    checkLeaves path entry entry = .ok () := by
  have hkind : entry.kind?.isNone = false := by
    rw [← Option.not_isSome, htyped]
    rfl
  rw [checkLeaves, hkind, Entry.sameShape]
  simp

theorem partner?_self {theirs : Forest (NodeId × Label Entry)}
    (htheirs : NumberedRow theirs.roots) {tree : Label Entry × Forest (Label Entry)}
    (htree : tree ∈ (theirs.map (·.2)).trees) :
    tree.1.name? = some tree.1.title ∧ ∃ id otherBelow,
      partner? theirs tree.1.title = some ((id, tree.1), otherBelow) ∧
      ((id, tree.1), otherBelow) ∈ theirs.trees ∧ otherBelow.map (·.2) = tree.2 := by
  rw [Forest.trees_map, List.mem_map] at htree
  obtain ⟨⟨⟨id, label⟩, otherBelow⟩, hother, rfl⟩ := htree
  obtain ⟨_, hnamed, hnames⟩ := htheirs
  have hlabel : label ∈ theirs.roots.map (·.2) := by
    rw [Forest.roots_eq, List.map_map]
    exact List.mem_map_of_mem hother
  obtain ⟨name, hname⟩ := hnamed label hlabel
  rw [Forest.roots_eq, List.map_map, List.map_map] at hnames
  refine ⟨by rw [title_of_name? hname, hname], id, otherBelow, ?_, hother, rfl⟩
  rw [partner?_eq, title_of_name? hname]
  exact find?_of_nodup hnames hother hname

theorem withRest_self {place : Path} {theirs : Forest (NodeId × Label Entry)} {used : List NodeId}
    (htheirs : NumberedRow theirs.roots)
    (h : mergeRow place theirs (theirs.map (·.2)) = .ok (theirs.map (·.2), used)) :
    withRest theirs (theirs.map (·.2), used) = theirs.map (·.2) := by
  have hours : NamedRow (theirs.map (·.2)).roots := by
    rw [Forest.roots_map]
    exact htheirs.2
  have hnone : (theirs.filterRoots fun root => !used.contains root.1).trees = [] := by
    rw [Forest.trees_filterRoots, List.filter_eq_nil_iff]
    intro tree htree
    rw [used_contains_iff hours htheirs h htree, Forest.roots_map, List.map_map,
      Forest.roots_eq theirs, List.map_map]
    have hmem := List.mem_map_of_mem (f := fun tree => tree.1.2.name?) htree
    simpa using hmem
  rw [withRest, Forest.eq_nil_of_trees hnone]
  exact Forest.append_nil _

theorem mergeRow_self (place : Path) {theirs : Forest (NodeId × Label Entry)}
    {ours : Forest (Label Entry)} (htheirs : theirs.EachRow NumberedRow)
    (hours : ∀ tree ∈ ours.trees, tree ∈ (theirs.map (·.2)).trees)
    (htyped : ∀ label ∈ ours.leaves, label.payload.kind?.isSome = true) :
    ∃ used, mergeRow place theirs ours = .ok (ours, used) := by
  induction ours generalizing place theirs with
  | nil => exact ⟨[], rfl⟩
  | cons label below rest ihbelow ihrest =>
    obtain ⟨hname, id, otherBelow, hfound, hmem, hsame⟩ :=
      partner?_self htheirs.row (hours (label, below) List.mem_cons_self)
    replace hsame : otherBelow.map (·.2) = below := hsame
    subst hsame
    have hdown := htheirs.down hmem
    have hbelow : mergeBelow (place.append label.title) label label (otherBelow.map (·.2))
        otherBelow = .ok (otherBelow.map (·.2)) := by
      rw [mergeBelow, Forest.isEmpty_map]
      cases hleaf : otherBelow.isEmpty with
      | true =>
        obtain rfl := (Forest.isEmpty_iff otherBelow).mp hleaf
        have hlabel := htyped label (Forest.mem_leaves_cons.mpr (.inl ⟨rfl, rfl⟩))
        simp only [checkLeaves_self _ hlabel]
        rfl
      | false =>
        obtain ⟨used, hrow⟩ := ihbelow (place.append label.title) hdown
          (fun _ htree => htree) fun other hother =>
            htyped other (Forest.mem_leaves_cons.mpr (.inr (.inl hother)))
        simp only [hrow, Except.map, withRest_self hdown.row hrow]
    obtain ⟨used, hrest⟩ := ihrest place htheirs
      (fun tree htree => hours tree (List.mem_cons_of_mem _ htree))
      (fun other hother => htyped other (Forest.mem_leaves_cons.mpr (.inr (.inr hother))))
    have hlabel : (⟨some label.title, label.payload⟩ : Label Entry) = label := by rw [← hname]
    refine ⟨id :: used, ?_⟩
    rw [mergeRow_cons_found hfound, hbelow, hrest, ← hlabel]
    rfl

theorem merge_self (h : a.Linked) (hnamed : a.Named)
    (htyped : ∀ id, a.contains id = true → id ≠ root → a.isLeaf id = true →
      ∃ entry, a.payload? id = some entry ∧ entry.kind?.isSome = true) :
    ∃ m, a.merge a = .ok m ∧ m.outline? root = a.outline? root := by
  have hrows := eachRow_numberedBelow hnamed h
  have hlabels : ∀ label ∈ (a.labelsBelow root).leaves, label.payload.kind?.isSome = true := by
    intro label hlabel
    rw [Tree.labelsBelow, Forest.leaves_map, List.mem_map] at hlabel
    obtain ⟨entry, hentry, rfl⟩ := hlabel
    obtain ⟨hnode, hleaf, hne⟩ := h.find?_of_mem_leaves (h.spans_children root)
      (fun child hchild => h.ne_root_of_parent? ((h.mem_children_iff root child).mp hchild)) hentry
    obtain ⟨held, hheld, hkind⟩ :=
      htyped entry.1 (Tree.contains_iff.mpr ⟨entry.2, hnode⟩) hne hleaf
    rw [Tree.payload?_of_find? hnode] at hheld
    cases hheld
    exact hkind
  have hours := map_snd_numberedBelow a
  obtain ⟨used, hrow⟩ := mergeRow_self .empty hrows (fun tree htree => by rwa [hours]) hlabels
  have hwhole := hrow
  rw [← hours] at hwhole
  obtain ⟨node, hnode⟩ := Tree.contains_iff.mp h.contains_root
  refine ⟨_, (merge_eq_mergeRows h h).trans (bind_eq_ok_iff.mpr ⟨_, hrow, rfl⟩), ?_⟩
  rw [Tree.outline?_ofOutline, Tree.outline?_of_find? hnode, ← hours,
    withRest_self hrows.row hwhole, Tree.name?_of_find? hnode, Tree.payload?_of_find? hnode]
  rfl

/-- The merged schema is the union of two schemas whose nodes are told apart by their paths: the
root of the first, the nodes of both in the order of the first, and where both have a node that of
the first. A schema whose leaves have kinds is merged with itself into what it was. -/
theorem merge_union {good good' : Entry → Prop} (ha : Tree.Reachable good a)
    (hb : Tree.Reachable good' b) (hnamed : a.Named) (hnamed' : b.Named) :
    (∀ m, a.merge b = .ok m →
      m.WellFormed ∧ m.name? root = a.name? root ∧ m.payload? root = a.payload? root ∧
      (∀ path, (m.resolve? root path).isSome = true ↔
        (a.resolve? root path).isSome = true ∨ (b.resolve? root path).isSome = true) ∧
      (∀ path, m.namesAt path = a.namesAt path ++
        (b.namesAt path).filter fun name => decide (name ∉ a.namesAt path)) ∧
      ∀ path id, path ≠ .empty → m.resolve? root path = some id →
        (∀ ours, a.resolve? root path = some ours → m.isLeaf id = a.isLeaf ours) ∧
        (∀ theirs, b.resolve? root path = some theirs → m.isLeaf id = b.isLeaf theirs) ∧
        (m.isLeaf id = true →
          (∀ ours, a.resolve? root path = some ours → m.payload? id = a.payload? ours) ∧
          (a.resolve? root path = none → m.payload? id = b.payloadAt? path)) ∧
        ∀ ours theirs, a.resolve? root path = some ours → b.resolve? root path = some theirs →
          m.payload? id = a.payload? ours) ∧
    ((∀ id, a.contains id = true → id ≠ root → a.isLeaf id = true →
        ∃ entry, a.payload? id = some entry ∧ entry.kind?.isSome = true) →
      ∃ m, a.merge a = .ok m ∧ m.outline? root = a.outline? root) := by
  have ha := ha.linked
  have hb := hb.linked
  refine ⟨fun m hmerge => ?_, fun htyped => merge_self ha hnamed htyped⟩
  obtain ⟨ours, theirs, merged, hours, htheirs, hm, hmerged, hroot, hnames, hjoined⟩ :=
    outlines_of_merge ha hb hnamed hnamed' hmerge
  refine ⟨hm.wellFormed, ?_, ?_, fun path => ?_, fun path => ?_, ?_⟩
  · rw [Tree.name?_of_outline? hmerged, Tree.name?_of_outline? hours, hroot]
  · rw [Tree.payload?_of_outline? hmerged, Tree.payload?_of_outline? hours, hroot]
  · rw [hm.isSome_resolve? hmerged, ha.isSome_resolve? hours, hb.isSome_resolve? htheirs]
    cases path.segments with
    | nil => simp [Outline.at?]
    | cons name rest => exact (hjoined name rest).isSome_iff
  · rw [hm.namesAt_eq hmerged, ha.namesAt_eq hours, hb.namesAt_eq htheirs]
    cases path.segments with
    | nil => exact hnames
    | cons name rest => exact (hjoined name rest).names_eq
  · intro path id hpath hid
    obtain ⟨place, hplace, hplace'⟩ := hm.at?_of_resolve? hmerged hid
    have hjoin : Joined (ours.at? path.segments) (theirs.at? path.segments)
        (merged.at? path.segments) := by
      obtain ⟨_ | ⟨name, rest⟩⟩ := path
      · exact absurd rfl hpath
      · exact hjoined name rest
    have hleaf := hm.isLeaf_of_outline? hplace'
    have hpayload := Tree.payload?_of_outline? hplace'
    refine ⟨fun first hfirst => ?_, fun second hsecond => ?_, fun hisLeaf => ⟨?_, ?_⟩, ?_⟩
    · obtain ⟨place₁, hplace₁, hplace₁'⟩ := ha.at?_of_resolve? hours hfirst
      rw [hleaf, ha.isLeaf_of_outline? hplace₁', (hjoin.isEmpty_eq hplace).1 place₁ hplace₁]
    · obtain ⟨place₂, hplace₂, hplace₂'⟩ := hb.at?_of_resolve? htheirs hsecond
      rw [hleaf, hb.isLeaf_of_outline? hplace₂', (hjoin.isEmpty_eq hplace).2 place₂ hplace₂]
    · intro first hfirst
      obtain ⟨place₁, hplace₁, hplace₁'⟩ := ha.at?_of_resolve? hours hfirst
      rw [hleaf] at hisLeaf
      rw [hpayload, Tree.payload?_of_outline? hplace₁',
        (hjoin.payload_of_leaf hplace hisLeaf).1 place₁ hplace₁]
    · intro hmissing
      have hnone := ha.at?_of_resolve?_none hours hmissing
      have hsome := hjoin.isSome_iff
      rw [hplace, hnone, ← hb.isSome_resolve? htheirs] at hsome
      obtain ⟨second, hsecond⟩ : ∃ second, b.resolve? root path = some second := by
        simpa [Option.isSome_iff_exists] using hsome
      obtain ⟨place₂, hplace₂, hplace₂'⟩ := hb.at?_of_resolve? htheirs hsecond
      rw [hleaf] at hisLeaf
      rw [hpayload, Tree.payloadAt?, hsecond, Option.bind_some,
        Tree.payload?_of_outline? hplace₂',
        (hjoin.payload_of_leaf hplace hisLeaf).2 hnone place₂ hplace₂]
    · intro first second hfirst hsecond
      obtain ⟨place₁, hplace₁, hplace₁'⟩ := ha.at?_of_resolve? hours hfirst
      obtain ⟨place₂, hplace₂, _⟩ := hb.at?_of_resolve? htheirs hsecond
      rw [hpayload, Tree.payload?_of_outline? hplace₁',
        hjoin.payload_of_both hplace₁ hplace₂ hplace]

private def homeSchema : Schema :=
  .ofOutline ⟨⟨some "contact", .blank⟩,
    .cons ⟨some "name", .ofKind .string⟩ .nil
      (.cons ⟨some "home", .blank⟩ (.cons ⟨some "phone", .ofKind .string⟩ .nil .nil) .nil)⟩

private def birthSchema : Schema :=
  .ofOutline ⟨⟨none, .blank⟩,
    .cons ⟨some "born", .ofKind .date⟩ .nil
      (.cons ⟨some "home", .blank⟩
        (.cons ⟨some "city", .ofKind .string⟩ .nil
          (.cons ⟨some "phone", .ofKind .string⟩ .nil .nil)) .nil)⟩

private def personSchema : Schema :=
  .ofOutline ⟨⟨some "contact", .blank⟩,
    .cons ⟨some "name", .ofKind .string⟩ .nil
      (.cons ⟨some "home", .blank⟩
        (.cons ⟨some "phone", .ofKind .string⟩ .nil
          (.cons ⟨some "city", .ofKind .string⟩ .nil .nil))
        (.cons ⟨some "born", .ofKind .date⟩ .nil .nil))⟩

theorem merge_union_person :
    Tree.Reachable (fun _ => True) homeSchema ∧ Tree.Reachable (fun _ => True) birthSchema ∧
    homeSchema.merge birthSchema = .ok personSchema ∧ personSchema.WellFormed ∧
    personSchema.namesAt ⟨["home"]⟩ = homeSchema.namesAt ⟨["home"]⟩ ++
      (birthSchema.namesAt ⟨["home"]⟩).filter (fun name =>
        decide (name ∉ homeSchema.namesAt ⟨["home"]⟩)) ∧
    ∃ m, homeSchema.merge homeSchema = .ok m ∧ m.outline? root = homeSchema.outline? root := by
  have hhome : Tree.Reachable (fun _ => True) homeSchema :=
    Tree.reachable_ofOutline _ trivial fun _ _ => trivial
  have hbirth : Tree.Reachable (fun _ => True) birthSchema :=
    Tree.reachable_ofOutline _ trivial fun _ _ => trivial
  obtain ⟨hunion, hself⟩ := merge_union hhome hbirth (by decide) (by decide)
  have hmerge : homeSchema.merge birthSchema = .ok personSchema :=
    (merge_eq_mergeRows hhome.linked hbirth.linked).trans rfl
  obtain ⟨hformed, _, _, _, hnames, _⟩ := hunion personSchema hmerge
  refine ⟨hhome, hbirth, hmerge, hformed, hnames _, hself fun id hid hne hleaf => ?_⟩
  have hlt : id < 4 := Tree.lt_bound_of_contains hid
  have htyped : ∀ id < 4, id ≠ root → homeSchema.isLeaf id = true →
      (homeSchema.payload? id).any (fun entry => entry.kind?.isSome) = true := by
    decide
  exact (Option.any_eq_true _ _).mp (htyped id hlt hne hleaf)

end Schema

end Conform
