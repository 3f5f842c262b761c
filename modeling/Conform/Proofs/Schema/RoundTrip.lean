import Conform.Proofs.Schema.Leaves
import Conform.Proofs.Tree.Moves
import Conform.Proofs.Value.Documents
/-!
# Schemas there and back

An outline, the schema that it describes and the document that keeps it say the
same. The fields of a node may come in any order: each brings its own part and
leaves the others alone, and a part without a field is one that says nothing.
-/

namespace Conform

open Conform.Tree (root)

theorem Options.ofList_pairs (options : Options) : ofList options.pairs = options := by
  obtain ⟨pairs, hsorted⟩ := options
  rw [ofList, mk.injEq, Keyed.ofList_eq_self hsorted]

theorem Options.eq_empty {options : Options} (h : options.isEmpty = true) : options = empty := by
  obtain ⟨pairs, hsorted⟩ := options
  obtain rfl : pairs = [] := List.isEmpty_iff.mp h
  rfl

theorem Doc.normalFields_eq (fields : List (String × Doc)) :
    normalFields fields = fields.map fun field => (field.1, field.2.normal) := by
  induction fields with
  | nil => rw [normalFields, List.map_nil]
  | cons field rest ih => rw [normalFields, ih, List.map_cons]

def Options.haveFiniteFloats (options : Options) : Bool :=
  options.pairs.all fun pair => pair.2.hasFiniteFloats

namespace Schema

variable {atlas : Atlas} {outline : Outline Entry} {schema : Schema}

/-! ## Schemas and outlines -/

theorem outline_eq (h : schema.outline? root = some outline) : schema.outline = outline := by
  rw [Schema.outline, h]
  rfl

theorem outline_of_ofOutline (h : ofOutline atlas outline = .ok schema) :
    schema.outline = outline := by
  obtain ⟨-, -, rfl⟩ := ofOutline_ok_iff.mp h
  exact outline_eq (Tree.outline?_ofOutline outline)

theorem isSome_name?_of_mem (h : schema.Linked)
    (hnamed : ∀ id, schema.contains id = true → id ≠ root → (schema.name? id).isSome = true)
    {label : Label Entry} (hlabel : label ∈ (schema.labelsBelow root).preorder) :
    label.name?.isSome = true := by
  rw [Tree.labelsBelow, Forest.preorder_map, List.mem_map] at hlabel
  obtain ⟨⟨id, node⟩, hmem, rfl⟩ := hlabel
  have hnode := (h.spans_children root).find?_of_mem hmem
  have hne : id ≠ root := (h.ne_and_isAbove_of_mem_branches (List.mem_map_of_mem hmem)).1
  have hname := hnamed id (Tree.contains_iff.mpr ⟨node, hnode⟩) hne
  rwa [Tree.name?_of_find? hnode] at hname

/-- A verified schema with names below its root is made anew from its outline. -/
theorem ofOutline_outline (h : schema.Linked)
    (hnamed : ∀ id, schema.contains id = true → id ≠ root → (schema.name? id).isSome = true)
    (hverify : schema.verify atlas = .ok ()) :
    ofOutline atlas schema.outline = .ok (Tree.ofOutline schema.outline) := by
  obtain ⟨outline, houtline⟩ := h.exists_outline?
  have hleaves := (verify_ok_iff_leavesMeet h houtline).mp hverify
  rw [outline_eq houtline, ofOutline_ok_iff]
  refine ⟨fun label hlabel => ?_, ?_, rfl⟩
  · rw [← Tree.labelsBelow_of_outline? houtline] at hlabel
    exact isSome_name?_of_mem h hnamed hlabel
  · exact (verify_ok_iff_leavesMeet (Tree.linked_ofOutline outline)
      (Tree.outline?_ofOutline outline)).mpr hleaves

/-! ## Fields of a node -/

theorem sorted_optionFields (options : Options) : Keyed.Sorted (optionFields options) :=
  List.pairwise_map.mpr options.sorted

theorem normalFields_optionFields (options : Options) :
    Doc.normalFields (optionFields options) = optionFields options := by
  rw [Doc.normalFields_eq, optionFields, List.map_map]
  refine List.map_congr_left fun pair _ => ?_
  rw [Function.comp_apply, pair.2.normal_toDoc]

namespace Part

/-- The document of a part that says something, with those of the children at hand. -/
def doc? (outline : Outline Entry) (docs : List Doc) : Part → Option Doc
  | name => outline.root.name?.map .string
  | kind => outline.root.payload.kind?.map fun kind => .string kind.keyword
  | cardinality => outline.root.payload.cardinality?.map fun c => .string c.keyword
  | options =>
    if outline.root.payload.options.isEmpty then none
    else some (.object (optionFields outline.root.payload.options))
  | children => if outline.below.isEmpty then none else some (.list docs)

theorem ofKey?_key (part : Part) : ofKey? part.key = some part := by
  cases part <;> rfl

theorem key_inj {part other : Part} (h : part.key = other.key) : part = other := by
  have hread := ofKey?_key part
  rw [h, ofKey?_key] at hread
  exact (Option.some.inj hread).symm

def Same (a b : Outline Entry) : Part → Prop
  | name => a.root.name? = b.root.name?
  | kind => a.root.payload.kind? = b.root.payload.kind?
  | cardinality => a.root.payload.cardinality? = b.root.payload.cardinality?
  | options => a.root.payload.options = b.root.payload.options
  | children => a.below = b.below

theorem Same.refl (outline : Outline Entry) (part : Part) : Same outline outline part := by
  cases part <;> rfl

theorem Same.trans {a b c : Outline Entry} {part : Part} (h : Same a b part)
    (h' : Same b c part) : Same a c part := by
  cases part <;> exact Eq.trans h h'

theorem eq_of_same {a b : Outline Entry} (h : ∀ part, Same a b part) : a = b := by
  obtain ⟨⟨name?, ⟨kind?, cardinality?, set⟩⟩, below⟩ := a
  obtain ⟨⟨name?', ⟨kind?', cardinality?', set'⟩⟩, below'⟩ := b
  obtain rfl : name? = name?' := h name
  obtain rfl : kind? = kind?' := h kind
  obtain rfl : cardinality? = cardinality?' := h cardinality
  obtain rfl : set = set' := h options
  obtain rfl : below = below' := h children
  rfl

theorem same_fresh {docs : List Doc} {part : Part} (h : part.doc? outline docs = none) :
    Same Draft.fresh.outline outline part := by
  cases part with
  | name | kind | cardinality => exact (Option.map_eq_none_iff.mp h).symm
  | options =>
    have hempty : outline.root.payload.options.isEmpty = true := by simpa [doc?] using h
    exact (Options.eq_empty hempty).symm
  | children =>
    have hempty : outline.below.isEmpty = true := by simpa [doc?] using h
    exact ((Forest.isEmpty_iff _).mp hempty).symm

theorem normal_doc? (outline : Outline Entry) (docs : List Doc) (part : Part) :
    (part.doc? outline docs).map Doc.normal = part.doc? outline (Doc.normalItems docs) := by
  cases part with
  | name | kind | cardinality =>
    rw [doc?, doc?, Option.map_map]
    rfl
  | options =>
    rw [doc?, doc?]
    split
    · rfl
    · rw [Option.map_some, Doc.normal, normalFields_optionFields,
        Keyed.ofList_eq_self (sorted_optionFields _)]
  | children =>
    rw [doc?, doc?]
    split
    · rfl
    · rw [Option.map_some, Doc.normal]

end Part

def nodeFields (outline : Outline Entry) (docs : List Doc) : List (String × Doc) :=
  Part.all.filterMap fun part => (part.doc? outline docs).map (part.key, ·)

theorem labelFields_append (label : Label Entry) (below : Forest (Label Entry)) (docs : List Doc) :
    (labelFields label ++ if below.isEmpty then [] else [(Part.children.key, .list docs)]) =
      nodeFields ⟨label, below⟩ docs := by
  rw [labelFields, nodeFields, Part.all]
  simp only [List.filterMap_cons, List.filterMap_nil, Part.doc?]
  cases label.name? <;> cases label.payload.kind? <;> cases label.payload.cardinality? <;>
    cases label.payload.options.isEmpty <;> cases below.isEmpty <;> rfl

theorem mem_nodeFields {docs : List Doc} {field : String × Doc} :
    field ∈ nodeFields outline docs ↔
      ∃ part : Part, field.1 = part.key ∧ part.doc? outline docs = some field.2 := by
  rw [nodeFields, List.mem_filterMap]
  constructor
  · rintro ⟨part, _, hfield⟩
    obtain ⟨doc, hdoc, rfl⟩ := Option.map_eq_some_iff.mp hfield
    exact ⟨part, rfl, hdoc⟩
  · rintro ⟨part, hkey, hdoc⟩
    refine ⟨part, by cases part <;> decide, ?_⟩
    rw [hdoc, ← hkey]
    rfl

theorem key_mem_nodeFields {docs : List Doc} {part : Part} :
    part.key ∈ (nodeFields outline docs).map (·.1) ↔ ∃ doc, part.doc? outline docs = some doc := by
  rw [List.mem_map]
  constructor
  · rintro ⟨field, hfield, hkey⟩
    obtain ⟨other, hother, hdoc⟩ := mem_nodeFields.mp hfield
    rw [Part.key_inj (hkey.symm.trans hother)]
    exact ⟨_, hdoc⟩
  · rintro ⟨doc, hdoc⟩
    exact ⟨(part.key, doc), mem_nodeFields.mpr ⟨part, rfl, hdoc⟩, rfl⟩

theorem nodup_keys_nodeFields (outline : Outline Entry) (docs : List Doc) :
    ((nodeFields outline docs).map (·.1)).Nodup := by
  have hsublist : ∀ parts : List Part, List.Sublist
      ((parts.filterMap fun part => (part.doc? outline docs).map (part.key, ·)).map (·.1))
      (parts.map Part.key) := by
    intro parts
    induction parts with
    | nil => exact .slnil
    | cons part rest ih =>
      rw [List.filterMap_cons]
      cases part.doc? outline docs with
      | none => exact ih.cons _
      | some doc => exact ih.cons_cons _
  exact List.Nodup.sublist (hsublist Part.all) (by decide)

theorem normalFields_nodeFields (outline : Outline Entry) (docs : List Doc) :
    Doc.normalFields (nodeFields outline docs) = nodeFields outline (Doc.normalItems docs) := by
  rw [Doc.normalFields_eq, nodeFields, nodeFields, List.map_filterMap]
  congr 1
  funext part
  rw [← Part.normal_doc?, Option.map_map, Option.map_map]
  rfl

/-! ## Documents of rows -/

/-- Documents that keep a row of trees, with the fields of every object in any order. -/
inductive RowKept : Forest (Label Entry) → List Doc → Prop
  | nil : RowKept .nil []
  | cons {label : Label Entry} {below rest : Forest (Label Entry)} {docs others : List Doc}
      {fields : List (String × Doc)} (down : RowKept below docs)
      (order : fields.Perm (nodeFields ⟨label, below⟩ docs)) (right : RowKept rest others) :
      RowKept (.cons label below rest) (.object fields :: others)

theorem rowKept_rowDocs (forest : Forest (Label Entry)) : RowKept forest (rowDocs forest) := by
  induction forest with
  | nil => exact .nil
  | cons label below rest ihbelow ihrest =>
    refine .cons ihbelow ?_ ihrest
    rw [← labelFields_append]

theorem outlineDoc_eq (outline : Outline Entry) :
    outlineDoc outline = .object (nodeFields outline (rowDocs outline.below)) := by
  rw [outlineDoc, labelFields_append]

theorem perm_normal {docs : List Doc} {fields : List (String × Doc)}
    (h : fields.Perm (nodeFields outline docs)) :
    (Keyed.ofList (Doc.normalFields fields)).Perm (nodeFields outline (Doc.normalItems docs)) := by
  have hnormal : (Doc.normalFields fields).Perm (nodeFields outline (Doc.normalItems docs)) := by
    rw [← normalFields_nodeFields, Doc.normalFields_eq, Doc.normalFields_eq]
    exact h.map _
  have hnodup := nodup_keys_nodeFields outline (Doc.normalItems docs)
  exact (Keyed.perm_ofList ((hnormal.map _).nodup_iff.mpr hnodup)).trans hnormal

theorem RowKept.normal {forest : Forest (Label Entry)} {docs : List Doc} (h : RowKept forest docs) :
    RowKept forest (Doc.normalItems docs) := by
  induction h with
  | nil =>
    rw [Doc.normalItems]
    exact .nil
  | cons _ order _ ihdown ihright =>
    rw [Doc.normalItems, Doc.normal]
    exact .cons ihdown (perm_normal order) ihright

/-! ## Reading -/

namespace Draft

/-- The draft with one part taken over from an outline. -/
def take (draft : Draft) (outline : Outline Entry) (part : Part) : Draft :=
  let draft := { draft with seen := part :: draft.seen }
  match part with
  | .name => { draft with label.name? := outline.root.name? }
  | .kind => { draft with label.payload.kind? := outline.root.payload.kind? }
  | .cardinality => { draft with label.payload.cardinality? := outline.root.payload.cardinality? }
  | .options => { draft with label.payload.options := outline.root.payload.options }
  | .children => { draft with below := outline.below }

theorem seen_take (draft : Draft) (outline : Outline Entry) (part : Part) :
    (draft.take outline part).seen = part :: draft.seen := by
  cases part <;> rfl

theorem same_take (draft : Draft) (outline : Outline Entry) (part : Part) :
    Part.Same (draft.take outline part).outline outline part := by
  cases part <;> rfl

theorem same_take_of_ne (draft : Draft) (outline : Outline Entry) {part other : Part}
    (h : other ≠ part) : Part.Same (draft.take outline part).outline draft.outline other := by
  cases part <;> cases other <;> first | rfl | exact absurd rfl h

end Draft

theorem valuesOf?_optionFields {options : Options} (h : options.haveFiniteFloats = true) :
    valuesOf? (optionFields options) = some options.pairs := by
  rw [Options.haveFiniteFloats, List.all_eq_true] at h
  rw [optionFields]
  generalize options.pairs = pairs at h ⊢
  induction pairs with
  | nil => rfl
  | cons pair rest ih =>
    have hfirst := pair.2.ofDoc?_toDoc (h pair List.mem_cons_self)
    have hrest := ih fun other hother => h other (List.mem_cons_of_mem _ hother)
    rw [List.map_cons, valuesOf?, hfirst, hrest]
    rfl

theorem optionsOf?_ofDoc {options : Options} (h : options.haveFiniteFloats = true)
    {room : Nat} (hroom : (Doc.object (optionFields options)).nesting ≤ room) :
    optionsOf? room (.ofDoc (.object (optionFields options))) = some options := by
  rw [Doc.nesting] at hroom
  have hzero : room ≠ 0 := by omega
  have hfields := Written.fieldDocs?_ofFields (room - 1) (optionFields options) (by omega)
  rw [Written.ofDoc, optionsOf?, if_neg hzero, hfields]
  simp [valuesOf?_optionFields h, Options.ofList_pairs]

/-- Documents that are read as a row wherever there is room for them. -/
def ReadAs (docs : List Doc) (forest : Forest (Label Entry)) : Prop :=
  ∀ room, Doc.nestingOfItems docs ≤ room → readChildren room (Written.ofItems docs) = some forest

section Node

variable {docs : List Doc}

theorem readPart_doc? (hfinite : outline.root.payload.options.haveFiniteFloats = true)
    (hrow : ReadAs docs outline.below) {part : Part} {doc : Doc}
    (hdoc : part.doc? outline docs = some doc) {room : Nat} (hroom : doc.nesting ≤ room)
    (draft : Draft) :
    readPart room draft part (.ofDoc doc) = some (draft.take outline part) := by
  cases part with
  | name =>
    obtain ⟨name, hname, rfl⟩ := Option.map_eq_some_iff.mp hdoc
    simp [Written.ofDoc, readPart, nameOf?, Draft.take, hname]
  | kind =>
    obtain ⟨kind, hkind, rfl⟩ := Option.map_eq_some_iff.mp hdoc
    simp [Written.ofDoc, readPart, kindOf?, keywordOf?, kind.ofKeyword?_keyword, Draft.take, hkind]
  | cardinality =>
    obtain ⟨cardinality, hcardinality, rfl⟩ := Option.map_eq_some_iff.mp hdoc
    simp [Written.ofDoc, readPart, cardinalityOf?, keywordOf?, cardinality.ofKeyword?_keyword,
      Draft.take, hcardinality]
  | options =>
    obtain ⟨-, rfl⟩ : _ ∧ Doc.object (optionFields outline.root.payload.options) = doc := by
      simpa [Part.doc?] using hdoc
    have hoptions := optionsOf?_ofDoc hfinite hroom
    simp only [readPart, hoptions]
    rfl
  | children =>
    obtain ⟨-, rfl⟩ : _ ∧ Doc.list docs = doc := by simpa [Part.doc?] using hdoc
    rw [Doc.nesting] at hroom
    have hzero : room ≠ 0 := by omega
    have hbelow := hrow (room - 1) (by omega)
    simp only [Written.ofDoc, readPart, if_neg hzero, hbelow]
    rfl

/-- Reading fields takes over the parts that have one and leaves the others as they were. -/
theorem readFields_ofFields (hfinite : outline.root.payload.options.haveFiniteFloats = true)
    (hrow : ReadAs docs outline.below) {fields : List (String × Doc)}
    (hfields : ∀ field ∈ fields, ∃ part : Part, field.1 = part.key ∧
      part.doc? outline docs = some field.2)
    (hnodup : (fields.map (·.1)).Nodup) {room : Nat} (hroom : Doc.nestingOfFields fields ≤ room)
    (draft : Draft) (hseen : ∀ part ∈ draft.seen, part.key ∉ fields.map (·.1)) :
    ∃ done, readFields room draft (Written.ofFields fields) = some done ∧ ∀ part : Part,
      (part.key ∈ fields.map (·.1) → Part.Same done.outline outline part) ∧
      (part.key ∉ fields.map (·.1) → Part.Same done.outline draft.outline part) := by
  induction fields generalizing draft with
  | nil =>
    refine ⟨draft, ?_, fun part => ⟨fun hkey => absurd hkey List.not_mem_nil, fun _ => .refl _ _⟩⟩
    rw [Written.ofFields, readFields]
  | cons field rest ih =>
    obtain ⟨part, hkey, hdoc⟩ := hfields field List.mem_cons_self
    obtain ⟨key, doc⟩ := field
    obtain rfl : key = part.key := hkey
    rw [List.map_cons] at hnodup hseen ⊢
    rw [Doc.nestingOfFields, Nat.max_le] at hroom
    obtain ⟨hlast, hnodup⟩ := List.nodup_cons.mp hnodup
    have hread : readPart room draft part (.ofDoc doc) = some (draft.take outline part) :=
      readPart_doc? hfinite hrow hdoc hroom.1 draft
    have hnew : part ∉ draft.seen := fun hmem => hseen part hmem List.mem_cons_self
    have hlater : ∀ other ∈ (draft.take outline part).seen, other.key ∉ rest.map (·.1) := by
      rw [Draft.seen_take, List.forall_mem_cons]
      exact ⟨hlast, fun other hother hmem => hseen other hother (List.mem_cons_of_mem _ hmem)⟩
    obtain ⟨done, hdone, hsame⟩ :=
      ih (fun other hother => hfields other (List.mem_cons_of_mem _ hother)) hnodup hroom.2
        (draft.take outline part) hlater
    refine ⟨done, ?_, fun other => ⟨fun hother => ?_, fun hother => ?_⟩⟩
    · rw [Written.ofFields, readFields, Part.ofKey?_key]
      simp [hnew, hread, hdone]
    · rcases List.mem_cons.mp hother with heq | hmem
      · obtain rfl := Part.key_inj heq
        exact ((hsame other).2 hlast).trans (draft.same_take outline other)
      · exact (hsame other).1 hmem
    · have hne : other ≠ part := by
        rintro rfl
        exact hother List.mem_cons_self
      have hrest : other.key ∉ rest.map (·.1) := fun hmem => hother (List.mem_cons_of_mem _ hmem)
      exact ((hsame other).2 hrest).trans (draft.same_take_of_ne outline hne)

/-- A node is read from its fields in any order. -/
theorem readOutline_of_perm (hfinite : outline.root.payload.options.haveFiniteFloats = true)
    (hrow : ReadAs docs outline.below) {fields : List (String × Doc)}
    (horder : fields.Perm (nodeFields outline docs)) {room : Nat}
    (hroom : (Doc.object fields).nesting ≤ room) :
    readOutline room (.ofDoc (.object fields)) = some outline := by
  rw [Doc.nesting] at hroom
  have hinner : Doc.nestingOfFields fields ≤ room - 1 := by omega
  have hkeys := horder.map (·.1)
  obtain ⟨done, hdone, hsame⟩ := readFields_ofFields hfinite hrow
    (fun field hfield => mem_nodeFields.mp (horder.mem_iff.mp hfield))
    (hkeys.nodup_iff.mpr (nodup_keys_nodeFields outline docs)) hinner Draft.fresh
    fun part hpart => absurd hpart List.not_mem_nil
  have hwhole : done.outline = outline := by
    refine Part.eq_of_same fun part => ?_
    cases hdoc : part.doc? outline docs with
    | some doc => exact (hsame part).1 (hkeys.mem_iff.mpr (key_mem_nodeFields.mpr ⟨doc, hdoc⟩))
    | none =>
      refine ((hsame part).2 fun hmem => ?_).trans (Part.same_fresh hdoc)
      obtain ⟨doc, hdoc'⟩ := key_mem_nodeFields.mp (hkeys.mem_iff.mp hmem)
      rw [hdoc] at hdoc'
      cases hdoc'
  have hzero : room ≠ 0 := by omega
  rw [Written.ofDoc, readOutline, if_neg hzero, hdone, Option.map_some, hwhole]

end Node

theorem RowKept.readAs {forest : Forest (Label Entry)} {docs : List Doc} (h : RowKept forest docs)
    (hfinite : ∀ label ∈ forest.preorder, label.payload.options.haveFiniteFloats = true) :
    ReadAs docs forest := by
  induction h with
  | nil =>
    intro room _
    rw [Written.ofItems, readChildren]
  | @cons label below rest docs others fields _ order _ ihdown ihright =>
    intro room hroom
    simp only [Forest.preorder, List.mem_cons, List.mem_append] at hfinite
    rw [Doc.nestingOfItems, Nat.max_le] at hroom
    have hdown := ihdown fun other hother => hfinite other (.inr (.inl hother))
    have hright := ihright fun other hother => hfinite other (.inr (.inr hother))
    have hnode : readOutline room (.ofDoc (.object fields)) = some ⟨label, below⟩ :=
      readOutline_of_perm (hfinite label (.inl rfl)) hdown order hroom.1
    rw [Written.ofItems, readChildren, hnode, hright room hroom.2]
    rfl

theorem outlineOfDoc?_of_rowKept {docs : List Doc} {fields : List (String × Doc)}
    (h : RowKept outline.below docs) (horder : fields.Perm (nodeFields outline docs))
    (hfinite : ∀ label ∈ (Forest.cons outline.root outline.below .nil).preorder,
      label.payload.options.haveFiniteFloats = true) :
    outlineOfDoc? (.object fields) = some outline := by
  simp only [Forest.preorder, List.append_nil, List.forall_mem_cons] at hfinite
  exact readOutline_of_perm hfinite.1 (h.readAs hfinite.2) horder (Nat.le_refl _)

/-- Outlines, schemas and documents say the same: an outline comes back from the schema that it
describes; a verified schema with names comes back from its outline, numbered anew; and an outline
without infinities comes back from its document, as it is written and in normal form. -/
theorem outline_round_trip (atlas : Atlas) :
    (∀ (outline : Outline Entry) (schema : Schema),
      ofOutline atlas outline = .ok schema → schema.outline = outline) ∧
    (∀ (good : Entry → Prop) (schema : Schema), Tree.Reachable good schema →
      (∀ id, schema.contains id = true → id ≠ root → (schema.name? id).isSome = true) →
      schema.verify atlas = .ok () →
      ∃ rebuilt, ofOutline atlas schema.outline = .ok rebuilt ∧
        (schema.branches [root]).Matched (fun entry other => entry.2.toLabel = other.2.toLabel)
          (rebuilt.branches [root])) ∧
    ∀ outline : Outline Entry,
      (∀ label ∈ (Forest.cons outline.root outline.below .nil).preorder,
        label.payload.options.haveFiniteFloats = true) →
      outlineOfDoc? (outlineDoc outline) = some outline ∧
        outlineOfDoc? (outlineDoc outline).normal = some outline := by
  refine ⟨fun _ _ => outline_of_ofOutline, ?_, fun outline hfinite => ⟨?_, ?_⟩⟩
  · intro good schema hreachable hnamed hverify
    have hlinked := hreachable.linked
    obtain ⟨outline, houtline⟩ := hlinked.exists_outline?
    refine ⟨_, ofOutline_outline hlinked hnamed hverify, ?_⟩
    rw [outline_eq houtline]
    have hlabels := (hlinked.labels_branches houtline).trans
      ((Tree.linked_ofOutline outline).labels_branches (Tree.outline?_ofOutline outline)).symm
    exact Forest.matched_of_map_eq hlabels fun _ _ _ hlabel => hlabel
  · rw [outlineDoc_eq]
    exact outlineOfDoc?_of_rowKept (rowKept_rowDocs _) (.refl _) hfinite
  · rw [outlineDoc_eq, Doc.normal]
    exact outlineOfDoc?_of_rowKept (rowKept_rowDocs _).normal (perm_normal (.refl _)) hfinite

private def festival : Outline Entry :=
  ⟨⟨some "festival", .blank⟩,
    .cons ⟨some "acts", ⟨some .string, none, .ofList
        [("shown", .array [.float ⟨0x3fe0000000000000⟩, .binary [0xca, 0xfe], .null]),
          ("rank", .integer (-1))]⟩⟩
      (.cons
        ⟨some "starts", (Entry.ofKind .time).withOption Zone.optionName (.string "Europe/London")⟩ .nil
        (.cons ⟨some "tags", ⟨some .string, some .set, .empty⟩⟩ .nil .nil)) .nil⟩

/-- The tags come before the start. -/
private def festivalSchema : Schema := (Tree.moveNode (Tree.ofOutline festival) 2 1).1

theorem outline_round_trip_festival :
    ofOutline .london festival = .ok (Tree.ofOutline festival) ∧
    Schema.outline (Tree.ofOutline festival) = festival ∧
    festivalSchema.children 1 = [3, 2] ∧ festivalSchema.verify .london = .ok () ∧
    (∃ rebuilt, ofOutline .london festivalSchema.outline = .ok rebuilt ∧
      (festivalSchema.branches [root]).Matched
        (fun entry other => entry.2.toLabel = other.2.toLabel) (rebuilt.branches [root])) ∧
    outlineOfDoc? (outlineDoc festival) = some festival ∧
    outlineOfDoc? (outlineDoc festival).normal = some festival := by
  obtain ⟨hback, hrebuilt, hread⟩ := outline_round_trip .london
  have hok : ofOutline .london festival = .ok (Tree.ofOutline festival) := rfl
  have hreachable : Tree.Reachable (fun _ => True) festivalSchema :=
    .edited (Tree.reachable_ofOutline _ trivial fun _ _ => trivial) (.moveNode _ 2 1)
  have hnames : ∀ id < 4, id ≠ root → (festivalSchema.name? id).isSome = true := by decide
  have hverify : festivalSchema.verify .london = .ok () := rfl
  have hfinite : ∀ label ∈ (Forest.cons festival.root festival.below .nil).preorder,
      label.payload.options.haveFiniteFloats = true := by decide
  obtain ⟨hwritten, hnormal⟩ := hread festival hfinite
  exact ⟨hok, hback _ _ hok, rfl, hverify,
    hrebuilt _ _ hreachable (fun id hid => hnames id (Tree.lt_bound_of_contains hid)) hverify,
    hwritten, hnormal⟩

end Schema

end Conform
