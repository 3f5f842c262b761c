import Conform.Proofs.Request.Documents
import Conform.Proofs.Request.RoundTrip
/-!
# Accepted documents

A document is accepted when the members of every list in it are of one kind.
The request that is made of it then has a node for every field, in the order
of the keys, with what the document says there.
-/

namespace Conform

open Conform.Tree (root)

namespace Doc

def kind? : Doc → Option Kind
  | boolean _ => some .boolean
  | integer _ | float _ => some .number
  | string _ => some .string
  | null | list _ | object _ => none

/-- Members that are all booleans, all numbers or all strings. -/
def Uniform (items : List Doc) : Prop := ∃ kind, ∀ item ∈ items, item.kind? = some kind

mutual
/-- The lists that a document is or has in fields, but not those in other lists. -/
def lists : Doc → List (List Doc)
  | list items => [items]
  | object fields => listsOfFields fields
  | null | boolean _ | integer _ | float _ | string _ => []
def listsOfFields : List (String × Doc) → List (List Doc)
  | [] => []
  | (_, doc) :: rest => doc.lists ++ listsOfFields rest
end

/-- Scalars and the values they are read as. -/
inductive Reads : Doc → Value → Prop
  | boolean (b : Bool) : Reads (.boolean b) (.boolean b)
  | integer (n : Int64) : Reads (.integer n.toInt) (.integer n)
  | large {n : Int} {x : Binary64} (range : Int64.maxValue.toInt < n) (nearest : x.NearestTo n) :
    Reads (.integer n) (.float x)
  | float (x : Binary64) : Reads (.float x) (.float x)
  | string (s : String) : Reads (.string s) (.string s)

/-- Documents that are no objects and the leaves they become. -/
inductive Leaf : Doc → Attribute → Prop
  | null : Leaf .null ⟨some .null, none, none⟩
  | scalar {doc : Doc} {kind : Kind} {value : Value} (suggests : doc.kind? = some kind)
    (reads : doc.Reads value) : Leaf doc ⟨some kind, some .single, some value⟩
  | list {items : List Doc} {kind : Kind} {values : List Value}
    (uniform : ∀ item ∈ items, item.kind? = some kind) (bare : items = [] → kind = .null)
    (reads : List.Forall₂ Reads items values) :
    Leaf (.list items) ⟨some kind, some .multiset, some (.array values)⟩

end Doc

namespace Request

/-! ## Scalars -/

theorem kind?_of_scalarOf {doc : Doc} {value : Value} (h : scalarOf doc = .ok value) :
    value.kind? = doc.kind? := by
  cases doc with
  | integer n =>
    cases h
    rw [Value.ofInt]
    split <;> rfl
  | list | object => cases h
  | _ =>
    cases h
    rfl

theorem exists_scalarOf {doc : Doc} {kind : Kind} (h : doc.kind? = some kind) :
    ∃ value, scalarOf doc = .ok value := by
  cases doc with
  | list | object => cases h
  | _ => exact ⟨_, rfl⟩

theorem reads_ofInt {n : Int} (h : (Doc.integer n).WellFormed) :
    (Doc.integer n).Reads (.ofInt n) := by
  rw [Doc.WellFormed] at h
  rw [Value.ofInt]
  split
  · next hrange =>
    have hsame : (Int64.ofInt n).toInt = n :=
      Int64.toInt_ofInt_of_le hrange.1 (Int.lt_of_le_of_lt hrange.2 (by decide))
    have hreads := Doc.Reads.integer (.ofInt n)
    rwa [hsame] at hreads
  · next hrange =>
    have hlarge : Int64.maxValue.toInt < n := Int.not_le.mp fun hle => hrange ⟨h.1, hle⟩
    exact .large hlarge (Binary64.nearestTo_ofInt_of_maxValue_lt hlarge h.2)

theorem reads_of_scalarOf {doc : Doc} (hdoc : doc.WellFormed) {kind : Kind}
    (hkind : doc.kind? = some kind) {value : Value} (h : scalarOf doc = .ok value) :
    doc.Reads value := by
  cases doc with
  | integer n =>
    cases h
    exact reads_ofInt hdoc
  | null | list | object => cases hkind
  | _ =>
    cases h
    constructor

theorem attributeOf_of_kind? {doc : Doc} {kind : Kind} (hkind : doc.kind? = some kind)
    {value : Value} (hvalue : scalarOf doc = .ok value) :
    attributeOf doc = .ok (.scalar kind value) := by
  have hguess : Attribute.guess? value = some (.scalar kind value) := by
    rw [Attribute.guess?, kind?_of_scalarOf hvalue, hkind]
    rfl
  cases doc with
  | null | list | object => cases hkind
  | _ =>
    refine bind_eq_ok_iff.mpr ⟨value, hvalue, ?_⟩
    simp only [hguess]

/-! ## Lists -/

theorem scalarsOf_ok_iff {items : List Doc} {values : List Value} :
    scalarsOf items = .ok values ↔
      List.Forall₂ (fun item value => scalarOf item = .ok value) items values := by
  induction items generalizing values with
  | nil =>
    rw [scalarsOf, List.forall₂_nil_left_iff, Except.ok.injEq]
    exact eq_comm
  | cons item rest ih =>
    rw [scalarsOf, List.forall₂_cons_left_iff, bind_eq_ok_iff]
    constructor
    · rintro ⟨value, hvalue, h⟩
      obtain ⟨others, hothers, heq⟩ := bind_eq_ok_iff.mp h
      exact ⟨value, others, hvalue, ih.mp hothers, (Except.ok.inj heq).symm⟩
    · rintro ⟨value, others, hvalue, hothers, rfl⟩
      exact ⟨value, hvalue, bind_eq_ok_iff.mpr ⟨others, ih.mpr hothers, rfl⟩⟩

theorem uniform_iff_of_scalarsOf {items : List Doc} {values : List Value}
    (h : List.Forall₂ (fun item value => scalarOf item = .ok value) items values) (kind : Kind) :
    (∀ item ∈ items, item.kind? = some kind) ↔ ∀ value ∈ values, value.kind? = some kind := by
  induction h with
  | nil => simp
  | cons hvalue _ ih =>
    rw [List.forall_mem_cons, List.forall_mem_cons, ih, kind?_of_scalarOf hvalue]

theorem attributeOf_list_ok_iff {items : List Doc} {a : Attribute} :
    attributeOf (.list items) = .ok a ↔
      ∃ kind values, (∀ item ∈ items, item.kind? = some kind) ∧ (items = [] → kind = .null) ∧
        List.Forall₂ (fun item value => scalarOf item = .ok value) items values ∧
        a = ⟨some kind, some .multiset, some (.array values)⟩ := by
  constructor
  · intro h
    obtain ⟨values, hvalues, h⟩ := bind_eq_ok_iff.mp h
    obtain ⟨kind?, hkind, hmade⟩ := bind_eq_ok_iff.mp h
    rw [scalarsOf_ok_iff] at hvalues
    obtain ⟨hnone, hsome⟩ := commonKind_none_ok_iff.mp hkind
    refine ⟨kind?.getD .null, values, ?_, ?_, hvalues, (Except.ok.inj hmade).symm⟩
    · rw [uniform_iff_of_scalarsOf hvalues]
      intro value hvalue
      obtain ⟨kind, rfl, hfound⟩ := hsome value hvalue
      exact hfound
    · rintro rfl
      cases hvalues
      rw [hnone rfl]
      rfl
  · rintro ⟨kind, values, huniform, hbare, hvalues, rfl⟩
    rw [uniform_iff_of_scalarsOf hvalues] at huniform
    refine bind_eq_ok_iff.mpr ⟨values, scalarsOf_ok_iff.mpr hvalues, bind_eq_ok_iff.mpr ?_⟩
    cases hvalues with
    | nil =>
      rw [hbare rfl]
      exact ⟨none, rfl, rfl⟩
    | cons _ _ =>
      refine ⟨some kind, commonKind_none_ok_iff.mpr ⟨?_, ?_⟩, rfl⟩
      · exact fun h => absurd h (List.cons_ne_nil _ _)
      · exact fun value hvalue => ⟨kind, rfl, huniform value hvalue⟩

theorem exists_scalarsOf {items : List Doc} {kind : Kind}
    (h : ∀ item ∈ items, item.kind? = some kind) :
    ∃ values, List.Forall₂ (fun item value => scalarOf item = .ok value) items values := by
  induction items with
  | nil => exact ⟨[], .nil⟩
  | cons item rest ih =>
    rw [List.forall_mem_cons] at h
    obtain ⟨value, hvalue⟩ := exists_scalarOf h.1
    obtain ⟨values, hvalues⟩ := ih h.2
    exact ⟨value :: values, .cons hvalue hvalues⟩

/-- Of all documents only lists can be refused, when their members are not of one kind. -/
theorem exists_attributeOf_list_iff {items : List Doc} :
    (∃ a, attributeOf (.list items) = .ok a) ↔ Doc.Uniform items := by
  constructor
  · rintro ⟨a, h⟩
    obtain ⟨kind, _, huniform, _⟩ := attributeOf_list_ok_iff.mp h
    exact ⟨kind, huniform⟩
  · rintro ⟨kind, huniform⟩
    obtain ⟨values, hvalues⟩ := exists_scalarsOf huniform
    cases items with
    | nil => exact ⟨_, rfl⟩
    | cons item rest =>
      have hfilled : item :: rest = [] → kind = .null := fun h => absurd h (List.cons_ne_nil _ _)
      exact ⟨_, attributeOf_list_ok_iff.mpr ⟨kind, values, huniform, hfilled, hvalues, rfl⟩⟩

/-! ## Acceptance -/

mutual
theorem exists_belowOf_iff (doc : Doc) :
    ((∃ a, attributeOf doc = .ok a) ∧ ∃ below, belowOf doc = .ok below) ↔
      ∀ items ∈ doc.lists, Doc.Uniform items := by
  cases doc with
  | object fields =>
    rw [Doc.lists, ← exists_rowOf_iff fields, belowOf]
    exact and_iff_right ⟨_, rfl⟩
  | list items =>
    rw [exists_attributeOf_list_iff, Doc.lists, belowOf, List.forall_mem_singleton]
    exact and_iff_left ⟨_, rfl⟩
  | null =>
    rw [Doc.lists, belowOf]
    exact iff_of_true ⟨⟨_, rfl⟩, _, rfl⟩ fun _ hmem => absurd hmem List.not_mem_nil
  | boolean | integer | float | string =>
    rw [Doc.lists, belowOf]
    exact iff_of_true ⟨⟨_, attributeOf_of_kind? rfl rfl⟩, _, rfl⟩
      fun _ hmem => absurd hmem List.not_mem_nil
theorem exists_rowOf_iff (fields : List (String × Doc)) :
    (∃ row, rowOf fields = .ok row) ↔ ∀ items ∈ Doc.listsOfFields fields, Doc.Uniform items := by
  cases fields with
  | nil =>
    rw [rowOf, Doc.listsOfFields]
    simp
  | cons field rest =>
    obtain ⟨name, doc⟩ := field
    rw [Doc.listsOfFields, List.forall_mem_append, ← exists_belowOf_iff doc,
      ← exists_rowOf_iff rest]
    constructor
    · rintro ⟨row, h⟩
      obtain ⟨payload, below, others, hpayload, hbelow, hothers, _⟩ := rowOf_cons_ok h
      exact ⟨⟨⟨payload, hpayload⟩, below, hbelow⟩, others, hothers⟩
    · rintro ⟨⟨⟨payload, hpayload⟩, below, hbelow⟩, others, hothers⟩
      rw [rowOf, hpayload, hbelow, hothers]
      exact ⟨_, rfl⟩
end

theorem exists_ofDoc_iff (name : String) (doc : Doc) :
    (∃ request, ofDoc name doc = .ok request) ↔ ∀ items ∈ doc.lists, Doc.Uniform items := by
  rw [← exists_belowOf_iff doc]
  constructor
  · rintro ⟨request, h⟩
    obtain ⟨payload, below, hpayload, hbelow, _⟩ := ofDoc_ok_iff.mp h
    exact ⟨⟨payload, hpayload⟩, below, hbelow⟩
  · rintro ⟨⟨payload, hpayload⟩, below, hbelow⟩
    exact ⟨_, ofDoc_ok_iff.mpr ⟨payload, below, hpayload, hbelow, rfl⟩⟩

/-! ## Requests that mirror documents -/

mutual
/-- A node, with all below it, holds what the document says. -/
def Mirrors (request : Request) (id : NodeId) : Doc → Prop
  | .object fields => request.payload? id = some .blank ∧ Keyed.Sorted fields ∧
      request.MirrorsRow (request.children id) fields
  | leaf => request.isLeaf id = true ∧ ∃ a, request.payload? id = some a ∧ leaf.Leaf a
/-- Nodes of a row hold what the fields of an object say, one node for each field, in order and
under the name of its key. -/
def MirrorsRow (request : Request) (ids : List NodeId) : List (String × Doc) → Prop
  | [] => ids = []
  | (key, doc) :: rest => ∃ id others, ids = id :: others ∧ request.name? id = some key ∧
      request.Mirrors id doc ∧ request.MirrorsRow others rest
end

theorem mirrors_leaf_iff {request : Request} {id : NodeId} {doc : Doc}
    (h : ∀ fields, doc ≠ .object fields) :
    request.Mirrors id doc ↔
      request.isLeaf id = true ∧ ∃ a, request.payload? id = some a ∧ doc.Leaf a := by
  rw [Mirrors]
  exact h

theorem reads_of_scalarsOf {items : List Doc} (hitems : Doc.WellFormedItems items) {kind : Kind}
    (huniform : ∀ item ∈ items, item.kind? = some kind) {values : List Value}
    (h : List.Forall₂ (fun item value => scalarOf item = .ok value) items values) :
    List.Forall₂ Doc.Reads items values := by
  induction h with
  | nil => exact .nil
  | cons hvalue _ ih =>
    rw [Doc.WellFormedItems] at hitems
    rw [List.forall_mem_cons] at huniform
    exact .cons (reads_of_scalarOf hitems.1 huniform.1 hvalue) (ih hitems.2 huniform.2)

theorem leaf_of_attributeOf {doc : Doc} (hdoc : doc.WellFormed)
    (hobject : ∀ fields, doc ≠ .object fields) {a : Attribute} (h : attributeOf doc = .ok a) :
    doc.Leaf a := by
  rcases attributeOf_ok h with ⟨fields, rfl, _⟩ | ⟨rfl, rfl⟩ | ⟨items, _, _, rfl, _⟩ |
    ⟨value, kind, hvalue, hkind, rfl⟩
  · exact absurd rfl (hobject fields)
  · exact .null
  · obtain ⟨kind, values, huniform, hbare, hvalues, rfl⟩ := attributeOf_list_ok_iff.mp h
    rw [Doc.WellFormed] at hdoc
    exact .list huniform hbare (reads_of_scalarsOf hdoc huniform hvalues)
  · rw [kind?_of_scalarOf hvalue] at hkind
    exact .scalar hkind (reads_of_scalarOf hdoc hkind hvalue)

theorem belowOf_eq_nil {doc : Doc} (h : ∀ fields, doc ≠ .object fields) :
    belowOf doc = .ok .nil := by
  cases doc with
  | object fields => exact absurd rfl (h fields)
  | _ => rw [belowOf]

theorem mirrors_of_leaf {doc : Doc} (hdoc : doc.WellFormed)
    (hobject : ∀ fields, doc ≠ .object fields) {request : Request} {id : NodeId}
    {node : Node Attribute} (hnode : request.find? id = some node)
    {below : Forest (NodeId × Node Attribute)} (hspan : request.Spans node.children below)
    (hpayload : attributeOf doc = .ok node.payload)
    (hbelow : belowOf doc = .ok (below.map (·.2.toLabel))) : request.Mirrors id doc := by
  rw [belowOf_eq_nil hobject, Except.ok.injEq] at hbelow
  have hleaf : below.isEmpty = true := by
    rw [← Forest.isEmpty_map (·.2.toLabel), ← hbelow]
    rfl
  rw [Forest.isEmpty_iff] at hleaf
  subst hleaf
  have hchildren : node.children = [] := hspan.roots_fst.symm
  rw [mirrors_leaf_iff hobject, Tree.isLeaf, Tree.children_of_find? hnode, hchildren,
    Tree.payload?_of_find? hnode]
  exact ⟨rfl, _, rfl, leaf_of_attributeOf hdoc hobject hpayload⟩

mutual
theorem mirrors_of_belowOf (doc : Doc) (hdoc : doc.WellFormed) {request : Request} {id : NodeId}
    {node : Node Attribute} (hnode : request.find? id = some node)
    {below : Forest (NodeId × Node Attribute)} (hspan : request.Spans node.children below)
    (hpayload : attributeOf doc = .ok node.payload)
    (hbelow : belowOf doc = .ok (below.map (·.2.toLabel))) : request.Mirrors id doc := by
  cases doc with
  | object fields =>
    rw [Doc.WellFormed] at hdoc
    rw [belowOf] at hbelow
    rw [Mirrors, Tree.payload?_of_find? hnode, Tree.children_of_find? hnode]
    exact ⟨congrArg some (Except.ok.inj hpayload).symm, hdoc.1,
      mirrorsRow_of_rowOf fields hdoc.2 hspan hbelow⟩
  | _ => exact mirrors_of_leaf hdoc (fun _ heq => nomatch heq) hnode hspan hpayload hbelow
theorem mirrorsRow_of_rowOf (fields : List (String × Doc)) (hfields : Doc.WellFormedFields fields)
    {request : Request} {ids : List NodeId} {forest : Forest (NodeId × Node Attribute)}
    (hspan : request.Spans ids forest) (hrow : rowOf fields = .ok (forest.map (·.2.toLabel))) :
    request.MirrorsRow ids fields := by
  cases fields with
  | nil =>
    rw [rowOf] at hrow
    cases hspan with
    | nil => rw [MirrorsRow]
    | cons => cases hrow
  | cons field rest =>
    obtain ⟨key, doc⟩ := field
    obtain ⟨payload, below, others, hpayload, hbelow, hothers, heq⟩ := rowOf_cons_ok hrow
    rw [Doc.WellFormedFields] at hfields
    cases hspan with
    | nil => cases heq
    | cons found down right =>
      rw [Forest.map, Forest.cons.injEq] at heq
      obtain ⟨hlabel, rfl, rfl⟩ := heq
      have hname := congrArg Label.name? hlabel
      have hheld := congrArg Label.payload hlabel
      rw [MirrorsRow]
      refine ⟨_, _, rfl, ?_, ?_, mirrorsRow_of_rowOf rest hfields.2 right hothers⟩
      · rw [Tree.name?_of_find? found]
        exact hname
      · exact mirrors_of_belowOf doc hfields.1 found down (hheld ▸ hpayload) hbelow
end

mutual
theorem eachRow_of_belowOf (doc : Doc) (hdoc : doc.WellFormed) {below : Forest (Label Attribute)}
    (h : belowOf doc = .ok below) : below.EachRow Tree.NamedRow := by
  cases doc with
  | object fields =>
    rw [Doc.WellFormed] at hdoc
    rw [belowOf] at h
    obtain ⟨hnames, hdown⟩ := eachRow_of_rowOf fields hdoc.2 h
    refine .intro (Tree.namedRow_iff.mpr ?_) hdown
    rw [hnames, ← List.map_map]
    constructor
    · simp
    · exact hdoc.1.nodup_keys.map fun _ _ => Option.some.inj
  | _ =>
    rw [belowOf] at h
    cases h
    exact .intro ⟨fun _ hmem => absurd hmem List.not_mem_nil, List.nodup_nil⟩
      fun _ hmem => absurd hmem List.not_mem_nil
theorem eachRow_of_rowOf (fields : List (String × Doc)) (hfields : Doc.WellFormedFields fields)
    {row : Forest (Label Attribute)} (h : rowOf fields = .ok row) :
    row.roots.map (·.name?) = fields.map (some ∘ (·.1)) ∧
      ∀ tree ∈ row.trees, tree.2.EachRow Tree.NamedRow := by
  cases fields with
  | nil =>
    rw [rowOf] at h
    cases h
    exact ⟨rfl, fun _ hmem => absurd hmem List.not_mem_nil⟩
  | cons field rest =>
    obtain ⟨key, doc⟩ := field
    obtain ⟨payload, below, others, _, hbelow, hothers, rfl⟩ := rowOf_cons_ok h
    rw [Doc.WellFormedFields] at hfields
    obtain ⟨hnames, hdown⟩ := eachRow_of_rowOf rest hfields.2 hothers
    rw [Forest.roots, Forest.trees_cons, List.map_cons, List.map_cons, hnames,
      List.forall_mem_cons]
    exact ⟨rfl, eachRow_of_belowOf doc hfields.1 hbelow, hdown⟩
end

/-- A document is accepted when every list that it is or has in fields is of one kind, at any depth
of objects. The request made of it is well-formed, its nodes are named apart from their siblings,
and it holds at every place what the document says there. -/
theorem ofDoc_mirrors (name : String) (doc : Doc) :
    ((∃ request, ofDoc name doc = .ok request) ↔ ∀ items ∈ doc.lists, Doc.Uniform items) ∧
    (doc.WellFormed → ∀ request, ofDoc name doc = .ok request →
      Tree.WellFormed request ∧ request.Named ∧ request.name? root = some name ∧
        request.Mirrors root doc) := by
  refine ⟨exists_ofDoc_iff name doc, fun hdoc request h => ?_⟩
  obtain ⟨payload, below, hpayload, hbelow, rfl⟩ := ofDoc_ok_iff.mp h
  have hlinked := Tree.linked_ofOutline ⟨⟨some name, payload⟩, below⟩
  obtain ⟨planted, hspan, hlabels, _⟩ := Tree.spans_ofOutline ⟨⟨some name, payload⟩, below⟩
  have hnamed : Tree.Named (.ofOutline ⟨⟨some name, payload⟩, below⟩) := by
    apply Tree.named_of_eachRow hlinked
    rw [Tree.labelsBelow_of_outline? (Tree.outline?_ofOutline _)]
    exact eachRow_of_belowOf doc hdoc hbelow
  have hrow : rowOf [(name, doc)] = .ok (planted.map (·.2.toLabel)) := by
    rw [rowOf, hpayload, hbelow, hlabels]
    rfl
  have hfields : Doc.WellFormedFields [(name, doc)] := by
    simpa only [Doc.WellFormedFields, and_true] using hdoc
  have hmirrors := mirrorsRow_of_rowOf _ hfields hspan hrow
  rw [MirrorsRow] at hmirrors
  obtain ⟨_, _, hids, hname, hroot, _⟩ := hmirrors
  cases hids
  exact ⟨hlinked.wellFormed, hnamed, hname, hroot⟩

private def inquiryDoc : Doc :=
  .object [("count", .integer 18446744073709551615),
    ("flags", .list [.boolean true, .boolean false]), ("none", .null),
    ("who", .object [("empty", .list []), ("names", .list [.string "Ada"])])]

private def mixedDoc : Doc :=
  .object [("who", .object [("names", .list [.integer 1, .string "Ada"])])]

theorem ofDoc_mirrors_inquiry :
    inquiryDoc.WellFormed ∧
    (∃ request, ofDoc "inquiry" inquiryDoc = .ok request ∧ request.Named ∧
      request.name? root = some "inquiry" ∧ request.Mirrors root inquiryDoc) ∧
    ¬∃ request, ofDoc "inquiry" mixedDoc = .ok request := by
  have hdoc : inquiryDoc.WellFormed := by
    simp only [inquiryDoc, Doc.WellFormed, Doc.WellFormedFields, Doc.WellFormedItems, Keyed.Sorted]
    decide
  obtain ⟨request, hrequest⟩ : ∃ request, ofDoc "inquiry" inquiryDoc = .ok request := ⟨_, rfl⟩
  obtain ⟨_, hnamed, hname, hmirrors⟩ :=
    (ofDoc_mirrors "inquiry" inquiryDoc).2 hdoc request hrequest
  refine ⟨hdoc, ⟨request, hrequest, hnamed, hname, hmirrors⟩, ?_⟩
  rw [(ofDoc_mirrors "inquiry" mixedDoc).1]
  intro huniform
  obtain ⟨kind, hkind⟩ := huniform [.integer 1, .string "Ada"] (by
    simp [mixedDoc, Doc.lists, Doc.listsOfFields])
  rw [List.forall_mem_cons, List.forall_mem_singleton] at hkind
  cases hkind.1
  cases hkind.2

end Request

end Conform
