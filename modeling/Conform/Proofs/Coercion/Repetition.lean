import Conform.Proofs.Coercion.Pass
/-!
# Repeated passes

A request that has been coerced is coerced again without a change, except that
a list that was absent is then present and empty. The reason lies in single
leaves: what coercion makes has the form that its entry asks for, and coercion
does not change what has that form.
-/

namespace Conform

open Conform.Tree (root)

variable {atlas : Atlas}

theorem convert_self (kind : Kind) (value : Value) (entry : Entry) (zone : Zone) :
    convert atlas kind kind value entry zone = .ok value := by
  cases kind <;> rfl

theorem convertEach_self {kind : Kind} {entry : Entry} {zone : Zone} {values : List Value}
    (hvalid : ∀ value ∈ values, kind.validate value = .ok ()) :
    convertEach atlas kind kind entry zone values = .ok values := by
  rw [convertEach_ok_iff]
  apply List.forall₂_same.mpr
  intro value hvalue
  exact convertChecked_ok_iff.mpr
    ⟨convert_ok_iff.mp (convert_self kind value entry zone), hvalid value hvalue⟩

theorem Kind.hasArrayForm_iff (kind : Kind) :
    kind.requireArrayForm = .ok () ↔ kind.hasArrayForm = true := by
  cases kind <;> simp [requireArrayForm, hasArrayForm]

namespace Attribute

/-- The attribute with an empty list in place of a list that is absent. -/
def filled (a : Attribute) : Attribute :=
  if a.isMultiple then { a with value? := some (.array a.values) } else a

/-- The same attribute, except that a list that was absent may be there and empty. -/
structure Kept (former later : Attribute) : Prop where
  kind? : later.kind? = former.kind?
  cardinality? : later.cardinality? = former.cardinality?
  values : later.values = former.values
  value? : later.value? = former.value? ∨
    former.isMultiple = true ∧ former.value? = none ∧ later.value? = some (.array [])

theorem Kept.refl (a : Attribute) : a.Kept a := ⟨rfl, rfl, rfl, .inl rfl⟩

theorem items_of_isArray {a : Attribute} {value : Value} (hvalue : a.value? = some value)
    (harray : value.isArray = true) : value = .array a.values := by
  cases value with
  | array items => simp [values, hvalue, Value.items?]
  | _ => cases harray

theorem Fits.kept_filled {a : Attribute} (h : a.Fits) : a.Kept a.filled := by
  rw [filled]
  cases hmultiple : a.isMultiple with
  | false => exact .refl a
  | true =>
    refine ⟨rfl, rfl, rfl, ?_⟩
    cases hheld : a.value? with
    | none => simp [Attribute.values, hheld, hmultiple]
    | some value =>
      have harray := h value hheld
      rw [hmultiple] at harray
      simp [← items_of_isArray hheld harray]

theorem values_of_not_isArray {a : Attribute}
    (h : ∀ value, a.value? = some value → value.isArray = false) : a.values = [] := by
  rw [values]
  cases hvalue : a.value? with
  | none => rfl
  | some value =>
    have harray := h value hvalue
    cases value with
    | array => cases harray
    | _ => rfl

theorem set_of_fits {value : Value} {cardinality : Cardinality} (kind : Kind)
    (hnull : value.isNull = false) (hfits : value.isArray = cardinality.isMultiple) :
    set value kind cardinality = .ok ⟨some kind, some cardinality, some value⟩ := by
  simp [set, hnull, hfits]

theorem mem_members_of_not_isArray {a : Attribute} {value : Value} (hvalue : a.value? = some value)
    (harray : value.isArray = false) : value ∈ a.members := by
  rw [members, hvalue]
  cases value with
  | array => cases harray
  | _ => exact List.mem_singleton_self _

theorem mem_members_of_mem_values {a : Attribute} {value : Value} (hvalue : value ∈ a.values) :
    value ∈ a.members := by
  rw [members]
  cases hheld : a.value? with
  | none => simp [values, hheld] at hvalue
  | some held =>
    cases held with
    | array items => simpa [values, hheld, Value.items?] using hvalue
    | _ => simp [values, hheld, Value.items?] at hvalue

end Attribute

namespace Entry

variable {entry : Entry} {zone : Zone} {path : Path} {former a : Attribute}

theorem conform_ok_cases (h : entry.conform atlas zone path former = .ok a) :
    (former.isMultiple = true ∧ ∃ value, entry.conformList atlas zone former = .ok value ∧
      Attribute.set value (entry.target former) (entry.cardinalityFor former) = .ok a) ∨
    (former.isMultiple = false ∧ ∃ held value, former.value? = some held ∧
      convertChecked atlas former.kind (entry.target former) entry zone held = .ok value ∧
      Attribute.set value (entry.target former) .single = .ok a) ∨
    (former.isMultiple = false ∧ former.value? = none ∧
      Attribute.set .null (entry.target former) (entry.cardinalityFor former) = .ok a) := by
  rw [conform] at h
  obtain ⟨_, _, h⟩ := bind_eq_ok_iff.mp h
  obtain ⟨_, _, h⟩ := bind_eq_ok_iff.mp h
  split at h
  · next hmultiple =>
    obtain ⟨value, hlist, hset⟩ := bind_eq_ok_iff.mp h
    exact .inl ⟨hmultiple, value, hlist, lift_eq_ok_iff.mp hset⟩
  · next hsingle =>
    rw [Bool.not_eq_true] at hsingle
    have hone : former.cardinality = .single := (Cardinality.isMultiple_eq_false_iff _).mp hsingle
    split at h
    · next held hheld =>
      obtain ⟨value, hconvert, hset⟩ := bind_eq_ok_iff.mp h
      rw [hone, lift_eq_ok_iff] at hset
      exact .inr (.inl ⟨hsingle, held, value, hheld, hconvert, hset⟩)
    · next hnothing => exact .inr (.inr ⟨hsingle, hnothing, lift_eq_ok_iff.mp h⟩)

/-- A list with members is made only of a kind whose values have a stored form as a list. -/
theorem hasArrayForm_of_conform (h : entry.conform atlas zone path former = .ok a)
    (hvalues : a.values ≠ []) : a.kind.hasArrayForm = true := by
  rcases conform_ok_cases h with ⟨-, value, hlist, hset⟩ | ⟨-, _, value, -, -, hset⟩ | ⟨-, -, hset⟩
  · obtain ⟨converted, hconvert, rfl⟩ := conformList_ok hlist
    obtain ⟨rfl, -⟩ := Attribute.eq_of_set hset
    have hformer : former.values.isEmpty = false := by
      cases hempty : former.values with
      | cons => rfl
      | nil =>
        rw [hempty, convertEach_ok_iff, List.forall₂_nil_left_iff] at hconvert
        subst hconvert
        rw [Cardinality.restrict_eq] at hvalues
        exact absurd (by split <;> rfl) hvalues
    rw [conformList, hformer] at hlist
    obtain ⟨_, hform, -⟩ := bind_eq_ok_iff.mp hlist
    exact (Kind.hasArrayForm_iff _).mp (lift_eq_ok_iff.mp hform)
  · refine absurd (Attribute.values_of_not_isArray fun held hheld => ?_) hvalues
    have harray := Attribute.isArray_iff_of_set hset hheld
    rw [(Attribute.eq_of_set hset).1] at harray
    simpa [Attribute.cardinality] using harray
  · rw [(Attribute.eq_of_set hset).1] at hvalues
    exact absurd rfl hvalues

/-- An attribute in the form that an entry asks for. -/
structure Settled (entry : Entry) (a : Attribute) : Prop where
  kind? : a.kind? = some (entry.target a)
  cardinality? : a.cardinality? = some (entry.cardinalityFor a)
  fits : a.Fits
  not_isNull (value : Value) (held : a.value? = some value) : value.isNull = false
  valid (value : Value) (held : value ∈ a.members) : a.kind.validate value = .ok ()
  arrayForm (nonempty : a.values ≠ []) : a.kind.hasArrayForm = true
  distinct (isSet : a.cardinality = .set) :
    a.values.Pairwise fun value other => value.agrees other = false

theorem settled_of_conform (hdeclared : ∀ value, former.value? = some value →
      former.cardinality? = some former.cardinality)
    (h : entry.conform atlas zone path former = .ok a) : entry.Settled a := by
  have hmet := met_of_conform hdeclared h
  have hkind : a.kind = entry.kind?.getD former.kind := by simp [Attribute.kind, hmet.kind?]
  have hcardinality : a.cardinality = entry.cardinality?.getD former.cardinality := by
    simp [Attribute.cardinality, hmet.cardinality?]
  refine ⟨?_, ?_, ?_, hmet.not_isNull, ?_, hasArrayForm_of_conform h, ?_⟩
  · rw [hmet.kind?, target, hkind]
    cases entry.kind? <;> rfl
  · rw [hmet.cardinality?, cardinalityFor, hcardinality]
    cases entry.cardinality? <;> rfl
  · intro value hvalue
    have harray := hmet.isArray_iff value hvalue
    rw [Bool.eq_iff_iff, harray, Attribute.isMultiple]
    cases a.cardinality <;> simp [Cardinality.isMultiple]
  · intro value hvalue
    cases hdate : a.kind with
    | date => exact (Kind.validate_date_iff value).mpr (hmet.midnight hdate value hvalue)
    | _ => rfl
  · intro hset
    exact (hmet.distinct hset).imp And.left

namespace Settled

theorem kind_eq (h : entry.Settled a) : entry.target a = a.kind := by
  simp [Attribute.kind, h.kind?]

theorem cardinality_eq (h : entry.Settled a) : entry.cardinalityFor a = a.cardinality := by
  simp [Attribute.cardinality, h.cardinality?]

theorem checkCardinality (h : entry.Settled a) (path : Path) :
    entry.checkCardinality path a = .ok () := by
  rw [Entry.checkCardinality, h.cardinality?, cardinalityFor]
  cases entry.cardinality? <;> simp

theorem checkKind (h : entry.Settled a) : entry.checkKind a = .ok () := by
  simp [Entry.checkKind, h.kind_eq, Kind.checkAccepts]

theorem conformList (h : entry.Settled a) (zone : Zone) :
    entry.conformList atlas zone a = .ok (.array a.values) := by
  have hconvert : convertEach atlas a.kind a.kind entry zone a.values = .ok a.values :=
    convertEach_self fun value hvalue => h.valid value (Attribute.mem_members_of_mem_values hvalue)
  have hrestrict : a.cardinality.restrict a.values = a.values := by
    rw [Cardinality.restrict_eq]
    split
    · next hset => exact Value.firsts_eq_self (h.distinct hset)
    · rfl
  have hform : a.values.isEmpty = false → a.kind.requireArrayForm = .ok () := by
    intro hempty
    apply (Kind.hasArrayForm_iff _).mpr
    apply h.arrayForm
    simpa using hempty
  rw [Entry.conformList, h.kind_eq, h.cardinality_eq, hconvert]
  cases hempty : a.values.isEmpty with
  | true => simp [hrestrict, bind, Except.bind, pure, Except.pure]
  | false => simp [hform hempty, hrestrict, bind, Except.bind, pure, Except.pure]

theorem conform (h : entry.Settled a) (zone : Zone) (path : Path) :
    entry.conform atlas zone path a = .ok a.filled := by
  have hkind : a.kind? = some a.kind := by rw [h.kind?, h.kind_eq]
  have hcardinality : a.cardinality? = some a.cardinality := by
    rw [h.cardinality?, h.cardinality_eq]
  rw [Entry.conform, h.checkCardinality path, h.checkKind, h.kind_eq, h.cardinality_eq]
  cases hmultiple : a.isMultiple with
  | true =>
    have hset : Attribute.set (.array a.values) a.kind a.cardinality =
        .ok ⟨some a.kind, some a.cardinality, some (.array a.values)⟩ :=
      Attribute.set_of_fits a.kind rfl hmultiple.symm
    simp [bind, Except.bind, h.conformList zone, hset, Attribute.filled, hmultiple, hkind,
      hcardinality]
  | false =>
    rw [Attribute.filled, hmultiple]
    cases hheld : a.value? with
    | none =>
      simp [bind, Except.bind, Attribute.set, Value.isNull, ← hkind, ← hcardinality, ← hheld]
    | some value =>
      have harray := h.fits value hheld
      rw [hmultiple] at harray
      have hmember := Attribute.mem_members_of_not_isArray hheld harray
      have hconvert : convertChecked atlas a.kind a.kind entry zone value = .ok value :=
        convertChecked_ok_iff.mpr
          ⟨convert_ok_iff.mp (convert_self a.kind value entry zone), h.valid value hmember⟩
      have hset := Attribute.set_of_fits a.kind (h.not_isNull value hheld) (h.fits value hheld)
      simp [bind, Except.bind, hconvert, hset, ← hkind, ← hcardinality, ← hheld]

end Settled

end Entry

namespace Schema

variable {schema : Schema} {zone : Zone} {request conformed : Request}

/-- A leaf that holds its outcome has an outcome again, which is what it holds already. -/
theorem leafOutcome_again (hrequest : Tree.Carries Attribute.Obtainable request)
    (hframe : conformed.SameFrame request) {leaf : NodeId} {held : Attribute}
    (hdone : schema.leafOutcome atlas zone request leaf = .ok (conformed.payload? leaf))
    (hheld : conformed.payload? leaf = some held) :
    ∃ kept, schema.leafOutcome atlas zone conformed leaf = .ok (some kept) ∧ held.Kept kept := by
  rw [hheld] at hdone
  cases hfound : schema.counterpart? request leaf with
  | none =>
    rw [← counterpart?_congr hframe] at hfound
    rw [leafOutcome_of_counterpart?_none hfound, hheld]
    exact ⟨held, rfl, .refl held⟩
  | some found =>
    obtain ⟨path, entry⟩ := found
    obtain ⟨hpath, hentry⟩ := counterpart?_eq_some_iff.mp hfound
    have hcontains : request.contains leaf = true := by
      rw [← hframe.contains]
      exact Tree.contains_iff_payload?.mpr ⟨held, hheld⟩
    obtain ⟨node, hnode⟩ := Tree.contains_iff.mp hcontains
    have hformer : request.payload? leaf = some node.payload :=
      Tree.payload?_eq_some_iff.mpr ⟨node, hnode, rfl⟩
    rw [leafOutcome_eq_conform hpath hentry hformer] at hdone
    obtain ⟨coerced, hconform, hcoerced⟩ := map_eq_ok_iff.mp hdone
    cases hcoerced
    have hsettled : entry.Settled held :=
      Entry.settled_of_conform (fun _ hvalue => (hrequest leaf node hnode).declared hvalue) hconform
    rw [← hframe.pathFrom?] at hpath
    rw [leafOutcome_eq_conform hpath hentry hheld, hsettled.conform zone path]
    exact ⟨held.filled, rfl, hsettled.fits.kept_filled⟩

/-- Coercing a request a second time succeeds and keeps what the first time made of it. -/
theorem conform_again (hreachable : Tree.Reachable Attribute.Obtainable request)
    {settings : Settings} (hok : schema.conform atlas settings request = (conformed, .ok ())) :
    ∃ again, schema.conform atlas settings conformed = (again, .ok ()) ∧ again.SameFrame conformed ∧
      ∀ id held, conformed.payload? id = some held →
        ∃ kept, again.payload? id = some kept ∧ held.Kept kept ∧
          (conformed.isLeaf id = false → kept = held) := by
  have hlinked := hreachable.linked
  obtain ⟨hframe, hdone⟩ := leafOutcome_of_conform hlinked hok
  have hlinked' : conformed.Linked := hframe.linked hlinked
  have hagain : ∀ leaf ∈ conformed.leaves, ∀ held, conformed.payload? leaf = some held →
      ∃ kept, schema.leafOutcome atlas settings.zone conformed leaf = .ok (some kept) ∧
        held.Kept kept := by
    intro leaf hleaf held hheld
    rw [hlinked'.mem_leaves_iff, hframe.contains, hframe.isLeaf, ← hlinked.mem_leaves_iff] at hleaf
    exact leafOutcome_again hreachable.carries hframe (hdone leaf hleaf) hheld
  have hall : ∀ leaf ∈ conformed.leaves,
      ∃ payload?, schema.leafOutcome atlas settings.zone conformed leaf = .ok payload? := by
    intro leaf hleaf
    have hcontains := ((hlinked'.mem_leaves_iff leaf).mp hleaf).1
    obtain ⟨held, hheld⟩ := Tree.contains_iff_payload?.mp hcontains
    obtain ⟨kept, houtcome, -⟩ := hagain leaf hleaf held hheld
    exact ⟨_, houtcome⟩
  obtain ⟨hresult, hleaves, hinner⟩ := conformInPlace_ok hlinked' settings hall
  have hsame := conformInPlace_sameFrame hlinked' atlas schema settings
  refine ⟨_, ?_, hsame, ?_⟩
  · rw [conform_eq]
    simp only [hresult]
    exact Prod.ext rfl hresult
  · intro id held hheld
    by_cases hid : id ∈ conformed.leaves
    · obtain ⟨kept, houtcome, hkept⟩ := hagain id hid held hheld
      have hnow := hleaves id hid
      rw [houtcome] at hnow
      have hleaf := ((hlinked'.mem_leaves_iff id).mp hid).2
      refine ⟨kept, (Except.ok.inj hnow).symm, hkept, ?_⟩
      simp [hleaf]
    · exact ⟨held, by rw [hinner id hid, hheld], .refl held, fun _ => rfl⟩

private def shiftSchema : Schema :=
  .ofOutline ⟨⟨some "shift", .blank⟩,
    .cons ⟨some "start", (Entry.ofKind .time).withOption Zone.optionName (.string "GMT+02:00")⟩ .nil
      (.cons ⟨some "rooms", ⟨some .string, some .set, .empty⟩⟩ .nil .nil)⟩

private def shiftRequest : Request :=
  .ofOutline ⟨⟨some "shift", .blank⟩,
    .cons ⟨some "start", .number (.integer 0)⟩ .nil (.cons ⟨some "rooms", .null⟩ .nil .nil)⟩

private def shiftConformed : Request :=
  .ofOutline ⟨⟨some "shift", .blank⟩,
    .cons ⟨some "start", .time (-7200000)⟩ .nil
      (.cons ⟨some "rooms", ⟨some .string, some .set, none⟩⟩ .nil .nil)⟩

theorem conform_again_shift :
    Tree.Reachable Attribute.Obtainable shiftRequest ∧
    shiftSchema.conform .london ⟨.utc⟩ shiftRequest = (shiftConformed, .ok ()) ∧
    ∃ again, shiftSchema.conform .london ⟨.utc⟩ shiftConformed = (again, .ok ()) ∧
      ∃ start rooms, again.payload? 1 = some start ∧ again.payload? 2 = some rooms ∧
        Attribute.Kept (.time (-7200000)) start ∧
        Attribute.Kept ⟨some .string, some .set, none⟩ rooms := by
  have hreachable : Tree.Reachable Attribute.Obtainable shiftRequest := by
    refine Tree.reachable_ofOutline _ .blank fun label hlabel => ?_
    rcases List.mem_cons.mp hlabel with rfl | hlabel
    · exact .number _
    · rw [List.mem_singleton.mp hlabel]
      exact .null
  have hok : shiftSchema.conform .london ⟨.utc⟩ shiftRequest = (shiftConformed, .ok ()) := rfl
  obtain ⟨again, hagain, -, hkept⟩ := conform_again hreachable hok
  obtain ⟨start, hstart, hsame, -⟩ := hkept 1 _ rfl
  obtain ⟨rooms, hrooms, hsame', -⟩ := hkept 2 _ rfl
  exact ⟨hreachable, hok, again, hagain, start, rooms, hstart, hrooms, hsame, hsame'⟩

end Schema

end Conform
