import Conform.Proofs.Schema.Compatibility
/-!
# Merging three schemas

What a merged schema has at a path depends on what the two schemas have there,
and on nothing else. So three schemas can be compared path by path: going
together is symmetric and transitive, and the first schema that has a leaf
decides about it, however the three are grouped.
-/

namespace Conform

open Conform.Tree (root NamedRow NumberedRow)

def joinNames (ours theirs : List (Option String)) : List (Option String) :=
  ours ++ theirs.filter fun name => decide (name ∉ ours)

theorem mem_joinNames {ours theirs : List (Option String)} {name : Option String} :
    name ∈ joinNames ours theirs ↔ name ∈ ours ∨ name ∈ theirs := by
  by_cases h : name ∈ ours <;> simp [joinNames, h]

theorem nodup_joinNames {ours theirs : List (Option String)} (hours : ours.Nodup)
    (htheirs : theirs.Nodup) : (joinNames ours theirs).Nodup := by
  apply List.nodup_append.mpr
  refine ⟨hours, htheirs.filter _, fun name hname other hother heq => ?_⟩
  have hnot := of_decide_eq_true (List.mem_filter.mp hother).2
  exact hnot (heq ▸ hname)

theorem joinNames_assoc (first second third : List (Option String)) :
    joinNames (joinNames first second) third = joinNames first (joinNames second third) := by
  have hthird : third.filter (fun name => decide (name ∉ joinNames first second)) =
      (third.filter fun name => decide (name ∉ second)).filter
        fun name => decide (name ∉ first) := by
    rw [List.filter_filter]
    apply List.filter_congr
    intro name _
    simp [mem_joinNames]
  rw [joinNames, hthird]
  simp only [joinNames, List.filter_append, List.append_assoc]

theorem map_eq_map_of_keys {α κ β : Type*} {key : α → κ} {change : α → β} {things others : List α}
    (hkeys : things.map key = others.map key)
    (hsame : ∀ thing ∈ things, ∀ other ∈ others, key thing = key other →
      change thing = change other) : things.map change = others.map change := by
  induction things generalizing others with
  | nil =>
    rw [List.map_nil] at hkeys
    rw [List.map_eq_nil_iff.mp hkeys.symm]
  | cons thing rest ih =>
    cases others with
    | nil => cases hkeys
    | cons other rest' =>
      obtain ⟨hkey, hkeys⟩ := List.cons.inj hkeys
      have hfirst := hsame thing List.mem_cons_self other List.mem_cons_self hkey
      rw [List.map_cons, List.map_cons, hfirst]
      congr 1
      apply ih hkeys
      intro thing hthing other hother
      exact hsame thing (List.mem_cons_of_mem _ hthing) other (List.mem_cons_of_mem _ hother)

namespace Outline

variable {P : Type*}

def namesAt (outline : Outline P) (names : List String) : List (Option String) :=
  (outline.at? names).elim [] Outline.names

theorem namesAt_of_named? {outline : Outline P} {name : String} {tree : Label P × Forest (Label P)}
    (htree : outline.below.named? name = some tree) (rest : List String) :
    outline.namesAt (name :: rest) = namesAt ⟨tree.1, tree.2⟩ rest := by
  rw [namesAt, at?_cons, htree, Option.bind_some, namesAt]

theorem leafAt?_of_named? {outline : Outline P} {name : String} {tree : Label P × Forest (Label P)}
    (htree : outline.below.named? name = some tree) (rest : List String) :
    outline.leafAt? (name :: rest) = leafAt? ⟨tree.1, tree.2⟩ rest := by
  rw [leafAt?_cons, htree, Option.bind_some]

theorem bareTree_eq [Inhabited P] (tree : Label P × Forest (Label P)) :
    bareTree tree =
      (⟨tree.1.name?, (leaf? ⟨tree.1, tree.2⟩).getD default⟩, tree.2.bare) := by
  rw [bareTree, leaf?]
  cases tree.2.isEmpty <;> rfl

theorem bare_eq_of_paths [Inhabited P] {below below' : Forest (Label P)}
    (hrows : below.EachRow NamedRow) (hrows' : below'.EachRow NamedRow) (label label' : Label P)
    (hnames : ∀ names, namesAt ⟨label, below⟩ names = namesAt ⟨label', below'⟩ names)
    (hleaves : ∀ name rest,
      leafAt? ⟨label, below⟩ (name :: rest) = leafAt? ⟨label', below'⟩ (name :: rest)) :
    below.bare = below'.bare := by
  induction hrows generalizing below' label label' with
  | @intro below row _ ih =>
    apply Forest.eq_of_trees
    rw [Forest.trees_bare, Forest.trees_bare]
    have hkeys : below.trees.map (fun tree => tree.1.name?) =
        below'.trees.map fun tree => tree.1.name? := by
      have hroots : below.roots.map (·.name?) = below'.roots.map (·.name?) := hnames []
      rwa [Forest.roots_eq, Forest.roots_eq, List.map_map, List.map_map] at hroots
    apply map_eq_map_of_keys hkeys
    intro tree htree other hother hsame
    obtain ⟨name, hname⟩ := row.1 tree.1 (Forest.mem_roots_of_mem_trees htree)
    have hfind : below.named? name = some tree := row.named?_of_mem htree hname
    have hfind' : below'.named? name = some other :=
      hrows'.row.named?_of_mem hother (hsame.symm.trans hname)
    have hleaf (rest : List String) :
        leafAt? ⟨tree.1, tree.2⟩ rest = leafAt? ⟨other.1, other.2⟩ rest := by
      have hpath := hleaves name rest
      rwa [leafAt?_of_named? hfind, leafAt?_of_named? hfind'] at hpath
    have hbelow : tree.2.bare = other.2.bare := by
      apply ih tree htree (hrows'.down hother) tree.1 other.1
      · intro rest
        have hpath := hnames (name :: rest)
        rwa [namesAt_of_named? hfind, namesAt_of_named? hfind'] at hpath
      · intro next rest
        exact hleaf (next :: rest)
    rw [bareTree_eq, bareTree_eq, Option.some.inj (hleaf []), hsame, hbelow]

end Outline

namespace Schema

/-! ## Unions of outlines -/

/-- An outline that has at every path the names of two others and the leaves of the first, else
those of the second. -/
structure Union (ours theirs merged : Outline Entry) : Prop where
  root : merged.root = ours.root
  namesAt (names : List String) :
    merged.namesAt names = joinNames (ours.namesAt names) (theirs.namesAt names)
  leafAt? (name : String) (rest : List String) : merged.leafAt? (name :: rest) =
    (ours.leafAt? (name :: rest)).or (theirs.leafAt? (name :: rest))

theorem Union.assoc {first second third left right whole whole' : Outline Entry}
    (hleft : Union first second left) (hwhole : Union left third whole)
    (hright : Union second third right) (hwhole' : Union first right whole') :
    whole.root = whole'.root ∧ (∀ names, whole.namesAt names = whole'.namesAt names) ∧
      ∀ name rest, whole.leafAt? (name :: rest) = whole'.leafAt? (name :: rest) := by
  refine ⟨?_, fun names => ?_, fun name rest => ?_⟩
  · rw [hwhole.root, hleft.root, hwhole'.root]
  · rw [hwhole.namesAt, hleft.namesAt, hwhole'.namesAt, hright.namesAt, joinNames_assoc]
  · rw [hwhole.leafAt?, hleft.leafAt?, hwhole'.leafAt?, hright.leafAt?, Option.or_assoc]

/-! ## Names of merged schemas -/

section Rows

variable {place : Path} {theirs : Forest (NodeId × Label Entry)}
  {ours merged : Forest (Label Entry)} {used : List NodeId}

theorem exists_mem_of_forall₂ {α β : Type*} {related : α → β → Prop} {things : List α}
    {others : List β} (h : List.Forall₂ related things others) {other : β}
    (hother : other ∈ others) : ∃ thing ∈ things, related thing other := by
  induction h with
  | nil => cases hother
  | @cons first first' rest rest' hfirst _ ih =>
    rcases List.mem_cons.mp hother with rfl | hother
    · exact ⟨first, List.mem_cons_self, hfirst⟩
    · obtain ⟨thing, hthing, hrelated⟩ := ih hother
      exact ⟨thing, List.mem_cons_of_mem _ hthing, hrelated⟩

theorem namedRow_withRest (hours : NamedRow ours.roots) (htheirs : NumberedRow theirs.roots)
    (h : mergeRow place theirs ours = .ok (merged, used)) :
    NamedRow (withRest theirs (merged, used)).roots := by
  have hnames := names_withRest hours htheirs h
  have htheirs := htheirs.2
  rw [Tree.namedRow_iff] at hours htheirs ⊢
  rw [List.map_map] at htheirs
  have hjoin : (withRest theirs (merged, used)).roots.map (·.name?) =
      joinNames (ours.roots.map (·.name?)) (theirs.roots.map (·.2.name?)) := hnames
  rw [hjoin]
  refine ⟨fun hnone => ?_, nodup_joinNames hours.2 htheirs.2⟩
  rcases mem_joinNames.mp hnone with hnone | hnone
  · exact hours.1 hnone
  · exact htheirs.1 hnone

theorem eachRow_withRest (hours : ours.EachRow NamedRow) (htheirs : theirs.EachRow NumberedRow)
    (h : mergeRow place theirs ours = .ok (merged, used)) :
    (withRest theirs (merged, used)).EachRow NamedRow := by
  induction hours generalizing place theirs merged used with
  | @intro ours row down ih =>
    refine .intro (namedRow_withRest row htheirs.row h) fun tree htree => ?_
    rw [trees_withRest, List.mem_append] at htree
    rcases htree with htree | htree
    · obtain ⟨former, hformer, hmerged⟩ := exists_mem_of_forall₂ (trees_of_mergeRow h).1 htree
      cases hmerged with
      | alone _ => exact (down former hformer).bare
      | @both label other id below merged otherBelow found hbelow =>
        have hother := htheirs.down (mem_trees_of_partner? found)
        rw [mergeBelow] at hbelow
        split at hbelow
        · obtain ⟨_, _, rfl⟩ := map_eq_ok_iff.mp hbelow
          exact .intro ⟨by simp [Forest.roots], List.nodup_nil⟩ fun _ htree =>
            absurd htree List.not_mem_nil
        · obtain ⟨⟨row, used⟩, hrow, rfl⟩ := map_eq_ok_iff.mp hbelow
          exact ih _ hformer hother hrow
        · cases hbelow
    · obtain ⟨other, hother, rfl⟩ := List.mem_map.mp htree
      have hrows := htheirs.down (List.mem_of_mem_filter hother)
      exact (hrows.map _ fun _ hrow => hrow.2).bare

end Rows

section Merge

variable {a b c m : Schema} {first second third : Outline Entry}

theorem named_of_merge (ha : Outlined a first) (hb : Outlined b second) (h : a.merge b = .ok m) :
    m.Named := by
  rw [merge_eq_mergeRows ha.linked hb.linked] at h
  obtain ⟨⟨row, used⟩, hrow, heq⟩ := bind_eq_ok_iff.mp h
  cases heq
  have hrows := eachRow_withRest (eachRow_labelsBelow ha.named ha.linked)
    (eachRow_numberedBelow hb.named hb.linked) hrow
  apply Tree.named_of_eachRow (Tree.linked_ofOutline _)
  rwa [Tree.labelsBelow_of_outline? (Tree.outline?_ofOutline _)]

/-- A merged schema is the union of the two, and its nodes are told apart by their paths again. -/
theorem union_of_merge (ha : Outlined a first) (hb : Outlined b second) (h : a.merge b = .ok m) :
    ∃ merged, Outlined m merged ∧ Union first second merged := by
  obtain ⟨ours, theirs, merged, hours, htheirs, hm, hmerged, hroot, hnames, hjoined⟩ :=
    outlines_of_merge ha.linked hb.linked ha.named hb.named h
  rw [ha.outline?] at hours
  rw [hb.outline?] at htheirs
  cases hours
  cases htheirs
  refine ⟨merged, ⟨hm, named_of_merge ha hb h, hmerged⟩, hroot, ?_, ?_⟩
  · intro names
    cases names with
    | nil => exact hnames
    | cons name rest => exact (hjoined name rest).names_eq
  · intro name rest
    exact (hjoined name rest).leaf?_eq

theorem agree_or_iff {ours? theirs? others? : Option (Option Entry)} :
    Agree ours? theirs? ∧ Agree (ours?.or theirs?) others? ↔
      Agree theirs? others? ∧ Agree ours? (theirs?.or others?) := by
  cases ours? with
  | none => simp [agree_none_left]
  | some ours =>
    cases theirs? with
    | none => simp [agree_none_left, agree_none_right]
    | some theirs =>
      cases others? with
      | none => simp [agree_none_right]
      | some others =>
        rw [Option.some_or, Option.some_or, agree_some_iff, agree_some_iff, agree_some_iff]
        constructor
        · rintro ⟨hfirst, hsecond⟩
          exact ⟨hfirst.symm.trans hsecond, hfirst⟩
        · rintro ⟨hsecond, hfirst⟩
          exact ⟨hfirst, hfirst.trans hsecond⟩

/-- What is done with a merged schema succeeds when the two can be merged and it succeeds with their
union. -/
theorem bind_merge_ok_iff (ha : Outlined a first) (hb : Outlined b second)
    {next : Schema → Except Failure Schema} {possible : Prop}
    (hnext : ∀ {ab left}, Outlined ab left → Union first second left →
      ((∃ m, next ab = .ok m) ↔ possible)) :
    (∃ m, (a.merge b >>= next) = .ok m) ↔
      (∀ name rest, Agree (first.leafAt? (name :: rest)) (second.leafAt? (name :: rest))) ∧
        possible := by
  rw [← merge_ok_iff ha hb]
  constructor
  · rintro ⟨m, h⟩
    obtain ⟨ab, hab, hm⟩ := bind_eq_ok_iff.mp h
    obtain ⟨left, hleft, hunion⟩ := union_of_merge ha hb hab
    exact ⟨⟨ab, hab⟩, (hnext hleft hunion).mp ⟨m, hm⟩⟩
  · rintro ⟨⟨ab, hab⟩, hpossible⟩
    obtain ⟨left, hleft, hunion⟩ := union_of_merge ha hb hab
    obtain ⟨m, hm⟩ := (hnext hleft hunion).mpr hpossible
    exact ⟨m, bind_eq_ok_iff.mpr ⟨ab, hab, hm⟩⟩

theorem merge_assoc_ok_iff (ha : Outlined a first) (hb : Outlined b second)
    (hc : Outlined c third) : (∃ m, (a.merge b >>= fun ab => ab.merge c) = .ok m) ↔
      ∃ n, (b.merge c >>= fun bc => a.merge bc) = .ok n := by
  have hleft := bind_merge_ok_iff ha hb fun hleft hunion => by
    rw [merge_ok_iff hleft hc]
    simp only [hunion.leafAt?]
    exact Iff.rfl
  have hright := bind_merge_ok_iff hb hc fun hright hunion => by
    rw [merge_ok_iff ha hright]
    simp only [hunion.leafAt?]
    exact Iff.rfl
  rw [hleft, hright, ← forall_and, ← forall_and]
  apply forall_congr'
  intro name
  rw [← forall_and, ← forall_and]
  exact forall_congr' fun rest => agree_or_iff

/-- Merging three schemas succeeds in both groupings or in neither, and gives the same root, the
same names in the same shape and the same leaves. -/
theorem merge_assoc {good good' good'' : Entry → Prop} (ha : Tree.Reachable good a)
    (hb : Tree.Reachable good' b) (hc : Tree.Reachable good'' c) (hnamed : a.Named)
    (hnamed' : b.Named) (hnamed'' : c.Named) :
    ((∃ m, (a.merge b >>= fun ab => ab.merge c) = .ok m) ↔
      ∃ n, (b.merge c >>= fun bc => a.merge bc) = .ok n) ∧
    ∀ m n, (a.merge b >>= fun ab => ab.merge c) = .ok m →
      (b.merge c >>= fun bc => a.merge bc) = .ok n →
      ∃ left right, m.outline? root = some left ∧ n.outline? root = some right ∧
        left.root = right.root ∧
        left.below.map (·.name?) = right.below.map (·.name?) ∧
        left.below.leaves = right.below.leaves := by
  obtain ⟨first, ha⟩ := exists_outlined ha hnamed
  obtain ⟨second, hb⟩ := exists_outlined hb hnamed'
  obtain ⟨third, hc⟩ := exists_outlined hc hnamed''
  refine ⟨merge_assoc_ok_iff ha hb hc, fun m n hm hn => ?_⟩
  obtain ⟨ab, hab, hm⟩ := bind_eq_ok_iff.mp hm
  obtain ⟨bc, hbc, hn⟩ := bind_eq_ok_iff.mp hn
  obtain ⟨_, hleft, hleft'⟩ := union_of_merge ha hb hab
  obtain ⟨left, hwhole, hwhole'⟩ := union_of_merge hleft hc hm
  obtain ⟨_, hright, hright'⟩ := union_of_merge hb hc hbc
  obtain ⟨right, hother, hother'⟩ := union_of_merge ha hright hn
  obtain ⟨hroot, hnames, hleaves⟩ := hleft'.assoc hwhole' hright' hother'
  have hbare : left.below.bare = right.below.bare :=
    Outline.bare_eq_of_paths hwhole.eachRow hother.eachRow left.root right.root hnames hleaves
  refine ⟨left, right, hwhole.outline?, hother.outline?, hroot, ?_, ?_⟩
  · rw [← Forest.map_name?_bare, hbare, Forest.map_name?_bare]
  · rw [← Forest.leaves_bare, hbare, Forest.leaves_bare]

end Merge

private def contactSchema : Schema :=
  .ofOutline ⟨⟨some "contact", .blank⟩,
    .cons ⟨some "name", .ofKind .string⟩ .nil
      (.cons ⟨some "home", .ofKind .object⟩ (.cons ⟨some "phone", .ofKind .string⟩ .nil .nil) .nil)⟩

private def bornSchema : Schema :=
  .ofOutline ⟨⟨none, .blank⟩,
    .cons ⟨some "born", .ofKind .date⟩ .nil (.cons ⟨some "name", .ofKind .string⟩ .nil .nil)⟩

private def addressSchema : Schema :=
  .ofOutline ⟨⟨none, .blank⟩,
    .cons ⟨some "home", .blank⟩
      (.cons ⟨some "city", .ofKind .string⟩ .nil (.cons ⟨some "phone", .ofKind .string⟩ .nil .nil))
      (.cons ⟨some "born", .ofKind .date⟩ .nil .nil)⟩

/-- The first two in one schema. -/
private def leftSchema : Schema :=
  .ofOutline ⟨⟨some "contact", .blank⟩,
    .cons ⟨some "name", .ofKind .string⟩ .nil
      (.cons ⟨some "home", .blank⟩ (.cons ⟨some "phone", .ofKind .string⟩ .nil .nil)
        (.cons ⟨some "born", .ofKind .date⟩ .nil .nil))⟩

/-- The last two in one schema. -/
private def rightSchema : Schema :=
  .ofOutline ⟨⟨none, .blank⟩,
    .cons ⟨some "born", .ofKind .date⟩ .nil
      (.cons ⟨some "name", .ofKind .string⟩ .nil
        (.cons ⟨some "home", .blank⟩
          (.cons ⟨some "city", .ofKind .string⟩ .nil (.cons ⟨some "phone", .ofKind .string⟩ .nil .nil))
          .nil))⟩

/-- The three in one schema, with this entry for the node that groups the home. -/
private def threeSchema (home : Entry) : Schema :=
  .ofOutline ⟨⟨some "contact", .blank⟩,
    .cons ⟨some "name", .ofKind .string⟩ .nil
      (.cons ⟨some "home", home⟩
        (.cons ⟨some "phone", .ofKind .string⟩ .nil
          (.cons ⟨some "city", .ofKind .string⟩ .nil .nil))
        (.cons ⟨some "born", .ofKind .date⟩ .nil .nil))⟩

theorem merge_assoc_contact :
    Tree.Reachable (fun _ => True) contactSchema ∧ Tree.Reachable (fun _ => True) bornSchema ∧
    Tree.Reachable (fun _ => True) addressSchema ∧ contactSchema.Named ∧ bornSchema.Named ∧
    addressSchema.Named ∧ ∃ m n,
      (contactSchema.merge bornSchema >>= fun ab => ab.merge addressSchema) = .ok m ∧
      (bornSchema.merge addressSchema >>= fun bc => contactSchema.merge bc) = .ok n ∧
      (m.payload? 2).bind (·.kind?) = none ∧ (n.payload? 2).bind (·.kind?) = some .object ∧
      ∃ left right, m.outline? root = some left ∧ n.outline? root = some right ∧
        left.below.leaves = right.below.leaves := by
  have hcontact : Tree.Reachable (fun _ => True) contactSchema :=
    Tree.reachable_ofOutline _ trivial fun _ _ => trivial
  have hborn : Tree.Reachable (fun _ => True) bornSchema :=
    Tree.reachable_ofOutline _ trivial fun _ _ => trivial
  have haddress : Tree.Reachable (fun _ => True) addressSchema :=
    Tree.reachable_ofOutline _ trivial fun _ _ => trivial
  have hnamed : contactSchema.Named ∧ bornSchema.Named ∧ addressSchema.Named := by decide
  obtain ⟨hnamed, hnamed', hnamed''⟩ := hnamed
  have hab : contactSchema.merge bornSchema = .ok leftSchema :=
    (merge_eq_mergeRows hcontact.linked hborn.linked).trans rfl
  have hbc : bornSchema.merge addressSchema = .ok rightSchema :=
    (merge_eq_mergeRows hborn.linked haddress.linked).trans rfl
  have hleft : (contactSchema.merge bornSchema >>= fun ab => ab.merge addressSchema) =
      .ok (threeSchema .blank) := by
    rw [hab]
    show leftSchema.merge addressSchema = _
    exact (merge_eq_mergeRows (Tree.linked_ofOutline _) haddress.linked).trans rfl
  have hright : (bornSchema.merge addressSchema >>= fun bc => contactSchema.merge bc) =
      .ok (threeSchema (.ofKind .object)) := by
    rw [hbc]
    show contactSchema.merge rightSchema = _
    exact (merge_eq_mergeRows hcontact.linked (Tree.linked_ofOutline _)).trans rfl
  obtain ⟨-, hsame⟩ := merge_assoc hcontact hborn haddress hnamed hnamed' hnamed''
  obtain ⟨left, right, hout, hout', -, -, hleaves⟩ := hsame _ _ hleft hright
  exact ⟨hcontact, hborn, haddress, hnamed, hnamed', hnamed'', _, _, hleft, hright, rfl, rfl, left,
    right, hout, hout', hleaves⟩

end Schema

end Conform
