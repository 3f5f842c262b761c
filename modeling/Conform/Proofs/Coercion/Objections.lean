import Conform.Proofs.Coercion.Repetition
import Conform.Proofs.Failure
import Conform.Proofs.Schema.Offences
/-!
# Objections of entries

All that an entry has to object to in an attribute, each objection by its own
condition, in the order in which coercion makes its checks. A request is
coerced when no leaf meets an objection. Otherwise the pass fails with the
first objection to the first leaf that meets one.
-/

namespace Conform

open Conform.Tree (root)

namespace Value

def isFiniteNumber : Value → Bool
  | integer _ => true
  | float x => x.isFinite
  | null | boolean _ | string _ | array _ | binary _ => false

/-- The value whose day counts when a date is wanted: of a number its milliseconds. -/
def dated (source : Kind) (value : Value) : Value :=
  if source = .number then value.millis?.elim value integer else value

theorem isFiniteNumber_eq_false_iff (value : Value) :
    value.isFiniteNumber = false ↔ value.millis? = none := by
  cases value <;> simp [isFiniteNumber, millis?]

theorem isArray_of_isFiniteNumber {value : Value} (h : value.isFiniteNumber = true) :
    value.isArray = false := by
  cases value with
  | array => cases h
  | _ => rfl

end Value

/-- The values that are converted one by one. A list is one value where a single one is held. -/
def Attribute.presented (a : Attribute) : List Value :=
  if a.isMultiple then a.values else a.value?.toList

namespace Entry

/-- The option for the zone names none, or its text stops the run that works the zone out. -/
def zoneObjections (atlas : Atlas) (entry : Entry) : List Halt :=
  match entry.options.get? Zone.optionName with
  | none => []
  | some option =>
    (Failure.illegalOption option.text Zone.optionName).when (¬option.NamesZone atlas) ++
      match option.string?.map (Zone.resolve atlas) with
      | some (.error overflow) => [.overflow overflow]
      | _ => []

/-- A number that becomes a date or a time is finite, a number that becomes a time has a zone that
can be read, and a date is the start of a day. -/
def valueObjections (atlas : Atlas) (entry : Entry) (source target : Kind) (value : Value) :
    List Halt :=
  (Failure.illegalValue value.text target).when
      (source = .number ∧ (target = .date ∨ target = .time) ∧ value.isFiniteNumber = false) ++
    ((if source = .number ∧ target = .time then entry.zoneObjections atlas else []) ++
      (Failure.illegalValue (value.dated source).text .date).when
        (target = .date ∧ (value.dated source).millis?.any Instant.isMidnight = false))

/-- Cardinalities that are declared on both sides, the kinds, the form of a list, the values one by
one, and at last a list where a single value is held. -/
def objections (atlas : Atlas) (entry : Entry) (path : Path) (a : Attribute) : List Halt :=
  let target := entry.kind?.getD a.kind
  (Failure.mismatch path a.describe entry.describe).when
      (a.cardinality?.any fun found =>
        entry.cardinality?.any fun expected => found.isMultiple != expected.isMultiple) ++
    ((Failure.incompatible a.kind target).when (target.accepts a.kind = false) ++
      ((Failure.misuse (.noArrayForm target)).when
          (a.isMultiple = true ∧ a.values ≠ [] ∧ (target = .object ∨ target = .null)) ++
        (a.presented.flatMap (entry.valueObjections atlas a.kind target) ++
          a.presented.flatMap fun value =>
            (Failure.misuse (.misfit value.text .single)).when
              (a.isMultiple = false ∧ value.isArray = true))))

end Entry

/-! ## Values -/

section Values

variable {atlas : Atlas} {source target : Kind} {entry : Entry} {zone : Zone}
  {value converted : Value}

theorem reports_millisFor (value : Value) (kind : Kind) :
    Reports (liftM (value.millisFor kind))
      ((Failure.illegalValue value.text kind).when (value.isFiniteNumber = false)) := by
  simp only [value.isFiniteNumber_eq_false_iff, Value.millisFor]
  cases value.millis? <;> rfl

theorem mem_zoneObjections_iff {halt : Halt} :
    halt ∈ entry.zoneObjections atlas ↔ entry.Zoneless atlas halt := by
  rw [Entry.zoneObjections]
  constructor
  · intro h
    cases hoption : entry.options.get? Zone.optionName with
    | none => simp [hoption] at h
    | some option =>
      rw [hoption, List.mem_append, Failure.mem_when] at h
      rcases h with ⟨hzoneless, rfl⟩ | hstops
      · exact .illegal hoption hzoneless
      · cases option with
        | string text =>
          cases hresolve : Zone.resolve atlas text with
          | error overflow =>
            simp only [Value.string?, Option.map_some, hresolve, List.mem_singleton] at hstops
            exact hstops ▸ .stopped hoption hresolve
          | ok _ => simp [Value.string?, hresolve] at hstops
        | _ => simp [Value.string?] at hstops
  · intro h
    cases h with
    | illegal option zoneless => simp [option, zoneless]
    | stopped option stops => simp [option, Value.string?, stops]

theorem zoneObjections_of_stops {text : String} {overflow : Overflow}
    (option : entry.options.get? Zone.optionName = some (.string text))
    (stops : Zone.resolve atlas text = .error overflow) :
    entry.zoneObjections atlas = [.overflow overflow] := by
  have hnames : (Value.string text).NamesZone atlas := by
    rw [Value.namesZone_string_iff, stops]
    exact nofun
  simp [Entry.zoneObjections, option, Failure.when, hnames, Value.string?, stops]

theorem zoneObjections_of_illegal {option : Value}
    (held : entry.options.get? Zone.optionName = some option) (zoneless : ¬option.NamesZone atlas) :
    entry.zoneObjections atlas =
      [.failure (.illegalOption option.text Zone.optionName)] := by
  cases option with
  | string text =>
    have hnone := zoneless
    rw [Value.namesZone_string_iff, ne_eq, not_not] at hnone
    simp [Entry.zoneObjections, held, Failure.when, zoneless, Value.string?, hnone]
  | _ => simp [Entry.zoneObjections, held, Failure.when, zoneless, Value.string?]

theorem reports_zone? (atlas : Atlas) (entry : Entry) :
    Reports (entry.zone? atlas) (entry.zoneObjections atlas) := by
  rcases entry.names_or_zoneless atlas with ⟨own?, hnames⟩ | ⟨halt, hzoneless⟩
  · rw [hnames.zone?]
    refine List.eq_nil_iff_forall_not_mem.mpr fun halt hmem => ?_
    have herror := (mem_zoneObjections_iff.mp hmem).zone?
    rw [hnames.zone?] at herror
    cases herror
  · rw [hzoneless.zone?]
    cases hzoneless with
    | illegal option zoneless =>
      rw [zoneObjections_of_illegal option zoneless]
      exact Reports.error _ _
    | stopped option stops =>
      rw [zoneObjections_of_stops option stops]
      exact Reports.error _ _

theorem reports_validate (kind : Kind) (value : Value) :
    Reports (liftM (kind.validate value)) ((Failure.illegalValue value.text .date).when
      (kind = .date ∧ value.millis?.any Instant.isMidnight = false)) := by
  cases kind with
  | date =>
    rw [Kind.validate, Value.millisFor]
    cases hmillis : value.millis? with
    | none => rfl
    | some millis =>
      cases hday : Instant.isMidnight millis <;> simp [Reports, Failure.when, hday]
  | _ => rfl

theorem reports_convert (atlas : Atlas) (source target : Kind) (value : Value) (entry : Entry)
    (zone : Zone) : Reports (convert atlas source target value entry zone)
      ((Failure.illegalValue value.text target).when
          (source = .number ∧ (target = .date ∨ target = .time) ∧ value.isFiniteNumber = false) ++
        if source = .number ∧ target = .time then entry.zoneObjections atlas else []) := by
  by_cases hnumber : source = .number ∧ (target = .date ∨ target = .time)
  · obtain ⟨rfl, rfl | rfl⟩ := hnumber
    · have h := (reports_millisFor value .date).bind_pure Value.integer
      simpa only [convert, true_and, true_or, reduceCtorEq, and_false, if_false, List.append_nil]
        using h
    · have hzone (millis : Int64) := (reports_zone? atlas entry).bind_pure fun own? =>
        Value.integer (millis - (own?.getD zone).offsetAt atlas millis)
      have h := (reports_millisFor value .time).bind fun millis _ => hzone millis
      simpa only [convert, true_and, or_true, if_true] using h
  · rw [convert_of_other hnumber, Failure.when_of_not fun h => hnumber ⟨h.1, h.2.1⟩,
      if_neg fun h => hnumber ⟨h.1, .inr h.2⟩]
    exact Reports.ok value

theorem dated_of_becomes (h : entry.Becomes atlas zone source .date value converted) :
    converted = value.dated source := by
  cases h with
  | date number _ reads => rw [Value.dated, if_pos number, reads, Option.elim_some]
  | time _ time => cases time
  | same other => rw [Value.dated, if_neg fun hnumber => other ⟨hnumber, .inl rfl⟩]

theorem eq_or_integer_of_becomes (h : entry.Becomes atlas zone source target value converted) :
    converted = value ∨ value.isFiniteNumber = true ∧ ∃ millis, converted = .integer millis := by
  have hfinite {millis : Int64} (reads : value.millis? = some millis) :
      value.isFiniteNumber = true := by
    by_contra hnot
    rw [Bool.not_eq_true, value.isFiniteNumber_eq_false_iff, reads] at hnot
    cases hnot
  cases h with
  | date _ _ reads => exact .inr ⟨hfinite reads, _, rfl⟩
  | time _ _ reads _ _ => exact .inr ⟨hfinite reads, _, rfl⟩
  | same _ => exact .inl rfl

theorem reports_convertChecked (atlas : Atlas) (source target : Kind) (entry : Entry) (zone : Zone)
    (value : Value) : Reports (convertChecked atlas source target entry zone value)
      (entry.valueObjections atlas source target value) := by
  rw [Entry.valueObjections, ← List.append_assoc, convertChecked]
  refine (reports_convert atlas source target value entry zone).bind fun converted hconvert => ?_
  have hvalid : Reports (liftM (target.validate converted))
      ((Failure.illegalValue (value.dated source).text .date).when
        (target = .date ∧ (value.dated source).millis?.any Instant.isMidnight = false)) := by
    by_cases hdate : target = .date
    · rw [hdate] at hconvert ⊢
      rw [← dated_of_becomes (convert_ok_iff.mp hconvert)]
      exact reports_validate .date converted
    · have h := reports_validate target converted
      rw [Failure.when_of_not fun hand => hdate hand.1] at h ⊢
      exact h
  exact hvalid.bind_pure fun _ => converted

theorem reports_convertEach (atlas : Atlas) (source target : Kind) (entry : Entry) (zone : Zone)
    (values : List Value) : Reports (convertEach atlas source target entry zone values)
      (values.flatMap (entry.valueObjections atlas source target)) := by
  induction values with
  | nil => exact Reports.ok []
  | cons value rest ih =>
    rw [List.flatMap_cons, convertEach]
    exact (reports_convertChecked atlas source target entry zone value).bind fun first _ =>
      ih.bind_pure fun others => first :: others

end Values

/-! ## Attributes -/

namespace Entry

variable {atlas : Atlas} {entry : Entry} {zone : Zone} {path : Path} {a : Attribute}

theorem reports_checkCardinality (entry : Entry) (path : Path) (a : Attribute) :
    Reports (liftM (entry.checkCardinality path a))
      ((Failure.mismatch path a.describe entry.describe).when
        (a.cardinality?.any fun found =>
          entry.cardinality?.any fun expected => found.isMultiple != expected.isMultiple)) := by
  rw [checkCardinality]
  cases a.cardinality? with
  | none => exact Reports.ok ()
  | some found =>
    cases entry.cardinality? with
    | none => exact Reports.ok ()
    | some expected => exact Reports.check _ _ ()

theorem reports_checkKind (entry : Entry) (a : Attribute) :
    Reports (liftM (entry.checkKind a)) ((Failure.incompatible a.kind (entry.target a)).when
      ((entry.target a).accepts a.kind = false)) := by
  rw [checkKind, Kind.checkAccepts]
  cases (entry.target a).accepts a.kind <;> rfl

theorem reports_requireArrayForm (kind : Kind) :
    Reports (liftM kind.requireArrayForm)
      ((Failure.misuse (.noArrayForm kind)).when (kind = .object ∨ kind = .null)) := by
  cases kind <;> rfl

theorem isMultiple_cardinalityFor (h : entry.checkCardinality path a = .ok ())
    (hmultiple : a.isMultiple = true) : (entry.cardinalityFor a).isMultiple = true := by
  rw [cardinalityFor]
  cases hfound : a.cardinality? with
  | none => simp [Attribute.isMultiple, Attribute.cardinality, hfound, Cardinality.isMultiple]
      at hmultiple
  | some found =>
    cases hexpected : entry.cardinality? with
    | none => exact hmultiple
    | some expected =>
      have hsame := isMultiple_of_checkCardinality h hfound hexpected
      rw [Attribute.isMultiple, Attribute.cardinality, hfound, Option.getD_some] at hmultiple
      rw [Option.getD_some, ← hsame, hmultiple]

theorem reports_conformList (atlas : Atlas) (entry : Entry) (zone : Zone)
    (hmultiple : a.isMultiple = true) : Reports (entry.conformList atlas zone a)
      ((Failure.misuse (.noArrayForm (entry.target a))).when
          (a.isMultiple = true ∧ a.values ≠ [] ∧
            (entry.target a = .object ∨ entry.target a = .null)) ++
        a.values.flatMap (entry.valueObjections atlas a.kind (entry.target a))) := by
  have hvalues := (reports_convertEach atlas a.kind (entry.target a) entry zone a.values).bind_pure
    fun converted => Value.array ((entry.cardinalityFor a).restrict converted)
  rw [conformList]
  split
  · next hfilled =>
    have hne : a.values ≠ [] := by simpa using hfilled
    have hform : (a.isMultiple = true ∧ a.values ≠ [] ∧
        (entry.target a = .object ∨ entry.target a = .null)) ↔
          (entry.target a = .object ∨ entry.target a = .null) :=
      ⟨fun h => h.2.2, fun h => ⟨hmultiple, hne, h⟩⟩
    rw [Failure.when_congr _ hform]
    exact (reports_requireArrayForm (entry.target a)).bind fun _ _ => hvalues
  · next hempty =>
    have hnil : a.values = [] := by simpa using hempty
    rw [Failure.when_of_not fun h => h.2.1 hnil, List.nil_append]
    exact hvalues

theorem reports_set_single (value : Value) (kind : Kind) :
    Reports (liftM (Attribute.set value kind .single))
      ((Failure.misuse (.misfit value.text .single)).when (value.isArray = true)) := by
  have hmisfit : (!value.isNull && Cardinality.single.isMultiple != value.isArray) =
      value.isArray := by
    cases value <;> rfl
  rw [Attribute.set, hmisfit]
  exact Reports.check _ _ _

theorem reports_conformScalar (atlas : Atlas) (source target : Kind) (entry : Entry) (zone : Zone)
    (held : Value) : Reports (do
        let value ← convertChecked atlas source target entry zone held
        Attribute.set value target .single)
      (entry.valueObjections atlas source target held ++
        (Failure.misuse (.misfit held.text .single)).when (held.isArray = true)) := by
  refine (reports_convertChecked atlas source target entry zone held).bind fun value hvalue => ?_
  have hset := reports_set_single value target
  rcases eq_or_integer_of_becomes (convertChecked_ok_iff.mp hvalue).1 with
    rfl | ⟨hfinite, millis, rfl⟩
  · exact hset
  · have hscalar : ¬held.isArray = true := by simp [Value.isArray_of_isFiniteNumber hfinite]
    rw [Failure.when_of_not hscalar]
    exact hset

/-- Coercion of an attribute fails with the first objection to it. -/
theorem reports_conform (atlas : Atlas) (entry : Entry) (zone : Zone) (path : Path)
    (a : Attribute) : Reports (entry.conform atlas zone path a) (entry.objections atlas path a) := by
  refine (reports_checkCardinality entry path a).bind fun _ hcardinality => ?_
  rw [lift_eq_ok_iff] at hcardinality
  refine (reports_checkKind entry a).bind fun _ _ => ?_
  rw [Attribute.presented]
  by_cases hmultiple : a.isMultiple = true
  · have hset (value : Value) (hvalue : entry.conformList atlas zone a = .ok value) :
        Reports (liftM (Attribute.set value (entry.target a) (entry.cardinalityFor a)) :
          Except Halt Attribute) [] := by
      obtain ⟨converted, _, rfl⟩ := conformList_ok hvalue
      have hfits : (Value.array ((entry.cardinalityFor a).restrict converted)).isArray =
          (entry.cardinalityFor a).isMultiple :=
        (isMultiple_cardinalityFor hcardinality hmultiple).symm
      rw [Attribute.set_of_fits (entry.target a) rfl hfits]
      exact Reports.ok _
    have hmisfit : a.values.flatMap (fun value => (Failure.misuse (.misfit value.text .single)).when
        (a.isMultiple = false ∧ value.isArray = true)) = [] := by
      simp [Failure.when, hmultiple]
    rw [if_pos hmultiple, if_pos hmultiple, hmisfit, ← List.append_assoc]
    exact (reports_conformList atlas entry zone hmultiple).bind hset
  · have hsingle : a.isMultiple = false := by simpa using hmultiple
    have hcardinality : a.cardinality = .single :=
      (Cardinality.isMultiple_eq_false_iff _).mp hsingle
    rw [if_neg hmultiple, if_neg hmultiple, Failure.when_of_not fun h => hmultiple h.1,
      List.nil_append]
    cases a.value? with
    | none => exact Reports.ok _
    | some held =>
      simpa [hcardinality, hsingle, target] using
        reports_conformScalar atlas a.kind (entry.target a) entry zone held

def objectionCodes : List String :=
  ["WRONG_TYPES", "INCOMPATIBLE_TYPES", "INVALID_OPERATION", "ILLEGAL_VALUE", "ILLEGAL_OPTION"]

theorem zoneless_or_illegal_of_mem_valueObjections {source target : Kind} {value : Value}
    {halt : Halt} (h : halt ∈ entry.valueObjections atlas source target value) :
    (source = .number ∧ target = .time ∧ entry.Zoneless atlas halt) ∨
      ∃ text kind, halt = .failure (.illegalValue text kind) := by
  simp only [valueObjections, List.mem_append, Failure.mem_when] at h
  rcases h with ⟨-, rfl⟩ | hzone | ⟨-, rfl⟩
  · exact .inr ⟨_, _, rfl⟩
  · split at hzone
    · next hkinds => exact .inl ⟨hkinds.1, hkinds.2, mem_zoneObjections_iff.mp hzone⟩
    · cases hzone
  · exact .inr ⟨_, _, rfl⟩

/-- What is objected to, apart from a zone, is a failure whose code tells what the check was. -/
theorem zoneless_or_code_of_mem_objections {halt : Halt}
    (h : halt ∈ entry.objections atlas path a) :
    (a.kind = .number ∧ entry.kind? = some .time ∧ entry.Zoneless atlas halt) ∨
      ∃ failure, halt = .failure failure ∧
        failure.code ∈
          ["WRONG_TYPES", "INCOMPATIBLE_TYPES", "INVALID_OPERATION", "ILLEGAL_VALUE"] := by
  simp only [objections, List.mem_append, List.mem_flatMap, Failure.mem_when] at h
  rcases h with ⟨-, rfl⟩ | ⟨-, rfl⟩ | ⟨-, rfl⟩ | ⟨value, -, hvalue⟩ | ⟨value, -, -, rfl⟩
  · exact .inr ⟨_, rfl, by simp [Failure.code]⟩
  · exact .inr ⟨_, rfl, by simp [Failure.code]⟩
  · exact .inr ⟨_, rfl, by simp [Failure.code]⟩
  · rcases zoneless_or_illegal_of_mem_valueObjections hvalue with
      ⟨hnumber, htime, hzoneless⟩ | ⟨text, kind, rfl⟩
    · refine .inl ⟨hnumber, ?_, hzoneless⟩
      cases hkind : entry.kind? with
      | none => simp [hkind, hnumber] at htime
      | some kind => simpa [hkind] using htime
    · exact .inr ⟨_, rfl, by simp [Failure.code]⟩
  · exact .inr ⟨_, rfl, by simp [Failure.code]⟩

theorem code_of_mem_objections {failure : Failure}
    (h : .failure failure ∈ entry.objections atlas path a) : failure.code ∈ objectionCodes := by
  rw [objectionCodes]
  rcases zoneless_or_code_of_mem_objections h with ⟨-, -, hzoneless⟩ | ⟨other, heq, hcode⟩
  · cases hzoneless with
    | illegal => simp [Failure.code]
  · cases heq
    simp only [List.mem_cons, List.not_mem_nil, or_false] at hcode ⊢
    tauto

theorem zoneless_of_overflow_mem_objections {overflow : Overflow}
    (h : .overflow overflow ∈ entry.objections atlas path a) :
    a.kind = .number ∧ entry.kind? = some .time ∧ entry.Zoneless atlas (.overflow overflow) := by
  rcases zoneless_or_code_of_mem_objections h with hzoneless | ⟨failure, heq, -⟩
  · exact hzoneless
  · cases heq

end Entry

/-! ## Requests -/

namespace Schema

variable {atlas : Atlas} {schema : Schema} {request : Request}

/-- What the entry at the place of a leaf objects to; nothing for a leaf without an entry. -/
def objections (atlas : Atlas) (schema : Schema) (request : Request) (leaf : NodeId) : List Halt :=
  match schema.counterpart? request leaf, request.payload? leaf with
  | some (path, entry), some held => entry.objections atlas path held
  | _, _ => []

theorem objections_eq {leaf : NodeId} {path : Path} {entry : Entry} {held : Attribute}
    (hpath : request.pathFrom? root leaf = some path) (hentry : schema.payloadAt? path = some entry)
    (hheld : request.payload? leaf = some held) :
    schema.objections atlas request leaf = entry.objections atlas path held := by
  rw [objections, counterpart?_eq_some_iff.mpr ⟨hpath, hentry⟩, hheld]

theorem exists_entry_of_mem_objections {leaf : NodeId} {halt : Halt}
    (h : halt ∈ schema.objections atlas request leaf) :
    ∃ path entry held, request.pathFrom? root leaf = some path ∧
      schema.payloadAt? path = some entry ∧ request.payload? leaf = some held ∧
      halt ∈ entry.objections atlas path held := by
  rw [objections] at h
  split at h
  · next hfound hheld =>
    obtain ⟨hpath, hentry⟩ := counterpart?_eq_some_iff.mp hfound
    exact ⟨_, _, _, hpath, hentry, hheld, h⟩
  · cases h

theorem reports_leafOutcome (atlas : Atlas) (schema : Schema) (zone : Zone) (request : Request)
    (leaf : NodeId) : Reports (schema.leafOutcome atlas zone request leaf)
      (schema.objections atlas request leaf) := by
  cases hfound : schema.counterpart? request leaf with
  | none =>
    rw [leafOutcome_of_counterpart?_none hfound, objections, hfound]
    exact Reports.ok _
  | some found =>
    obtain ⟨path, entry⟩ := found
    cases hheld : request.payload? leaf with
    | none =>
      rw [objections, leafOutcome, outcome?, hfound, hheld]
      exact Reports.ok none
    | some held =>
      obtain ⟨hpath, hentry⟩ := counterpart?_eq_some_iff.mp hfound
      rw [objections_eq hpath hentry hheld, leafOutcome_eq_conform hpath hentry hheld]
      exact (entry.reports_conform atlas zone path held).map some

/-- A pass ends with the first objection to its leaves, leaf after leaf. -/
theorem reports_conform (hlinked : request.Linked) (atlas : Atlas) (schema : Schema)
    (settings : Settings) : Reports (schema.conform atlas settings request).2
      (request.leaves.flatMap (schema.objections atlas request)) := by
  have hnothing {leaf : NodeId} (hok : ∃ payload?,
      schema.leafOutcome atlas settings.zone request leaf = .ok payload?) :
      schema.objections atlas request leaf = [] :=
    (reports_leafOutcome atlas schema settings.zone request leaf).ok_iff.mp hok
  rw [conform_snd]
  rcases leafOutcome_ok_or_first atlas schema settings.zone request request.leaves with
    hall | ⟨before, leaf, after, halt, hleaves, hbefore, hfail⟩
  · rw [(conformInPlace_ok hlinked settings hall).1]
    exact List.flatMap_eq_nil_iff.mpr fun leaf hleaf => hnothing (hall leaf hleaf)
  · rw [(conformInPlace_error hlinked settings hleaves hbefore hfail).1, hleaves]
    have hfirst := (reports_leafOutcome atlas schema settings.zone request leaf).error_iff.mp hfail
    have hskipped : before.flatMap (schema.objections atlas request) = [] :=
      List.flatMap_eq_nil_iff.mpr fun earlier hearlier => hnothing (hbefore earlier hearlier)
    show (List.flatMap _ _).head? = some halt
    rw [List.flatMap_append, hskipped, List.nil_append, List.flatMap_cons, List.head?_append,
      hfirst, Option.some_or]

/-- What ends a coercion is objected to by the entry for one of the leaves. -/
theorem exists_objection_of_conform_error (hlinked : request.Linked) {settings : Settings}
    {halt : Halt} (h : (schema.conform atlas settings request).2 = .error halt) :
    ∃ leaf ∈ request.leaves, ∃ path entry held, request.pathFrom? root leaf = some path ∧
      schema.payloadAt? path = some entry ∧ request.payload? leaf = some held ∧
      halt ∈ entry.objections atlas path held := by
  have hhead := (reports_conform hlinked atlas schema settings).error_iff.mp h
  obtain ⟨leaf, hleaf, hmem⟩ := List.mem_flatMap.mp (List.mem_of_head? hhead)
  exact ⟨leaf, hleaf, exists_entry_of_mem_objections hmem⟩

/-- A request is coerced exactly when there is no objection to any leaf. Otherwise coercion ends
with the first objection to the first leaf that meets one: a failure with one of five codes, or the
stop of the run by the zone that is named where a number becomes a time. -/
theorem conform_first_objection {good : Attribute → Prop} (hreachable : Tree.Reachable good request)
    (atlas : Atlas) (schema : Schema) (settings : Settings) :
    let result := (schema.conform atlas settings request).2
    (result = .ok () ↔ ∀ leaf ∈ request.leaves, schema.objections atlas request leaf = []) ∧
    (∀ halt, result = .error halt ↔
      ∃ before leaf after, request.leaves = before ++ leaf :: after ∧
        (∀ earlier ∈ before, schema.objections atlas request earlier = []) ∧
        (schema.objections atlas request leaf).head? = some halt) ∧
    (∀ failure, result = .error (.failure failure) → failure.code ∈ Entry.objectionCodes) ∧
    ∀ overflow, result = .error (.overflow overflow) →
      ∃ leaf ∈ request.leaves, ∃ path entry held, request.pathFrom? root leaf = some path ∧
        schema.payloadAt? path = some entry ∧ request.payload? leaf = some held ∧
        held.kind = .number ∧ entry.kind? = some .time ∧
        entry.Zoneless atlas (.overflow overflow) := by
  intro result
  have hresult : Reports result (request.leaves.flatMap (schema.objections atlas request)) :=
    reports_conform hreachable.linked atlas schema settings
  have hfirst {halt : Halt} : result = .error halt ↔
      ∃ before leaf after, request.leaves = before ++ leaf :: after ∧
        (∀ earlier ∈ before, schema.objections atlas request earlier = []) ∧
        (schema.objections atlas request leaf).head? = some halt := by
    rw [hresult.error_iff, List.head?_flatMap, List.findSome?_eq_some_iff]
    simp only [List.head?_eq_none_iff, and_comm]
  refine ⟨?_, fun _ => hfirst, ?_, ?_⟩
  · rw [← List.flatMap_eq_nil_iff, ← hresult.ok_iff]
    exact ⟨fun hok => ⟨(), hok⟩, fun ⟨_, hok⟩ => hok⟩
  · intro failure herror
    obtain ⟨_, _, _, _, _, -, -, -, hmem⟩ :=
      exists_objection_of_conform_error hreachable.linked herror
    exact Entry.code_of_mem_objections hmem
  · intro overflow herror
    obtain ⟨leaf, hleaf, path, entry, held, hpath, hentry, hheld, hmem⟩ :=
      exists_objection_of_conform_error hreachable.linked herror
    obtain ⟨hnumber, htime, hzoneless⟩ := Entry.zoneless_of_overflow_mem_objections hmem
    exact ⟨leaf, hleaf, path, entry, held, hpath, hentry, hheld, hnumber, htime, hzoneless⟩

private def rosterSchema : Schema :=
  .ofOutline ⟨⟨some "roster", .blank⟩,
    .cons ⟨some "days", ⟨some .date, some .set, .empty⟩⟩ .nil
      (.cons ⟨some "lead", .ofKind .number⟩ .nil .nil)⟩

private def rosterRequest : Request :=
  .ofOutline ⟨⟨some "roster", .blank⟩,
    .cons ⟨some "note", .string "draft"⟩ .nil
      (.cons ⟨some "days", ⟨some .number, some .multiset,
          some (.array [.integer 0, .integer 3600000, .string "monday"])⟩⟩ .nil
        (.cons ⟨some "lead", .string "Grace"⟩ .nil .nil))⟩

theorem conform_first_objection_roster :
    Tree.Reachable (fun _ => True) rosterRequest ∧
    (rosterSchema.conform .london ⟨.utc⟩ rosterRequest).2 =
      .error (.failure (.illegalValue "3600000" .date)) := by
  have hreachable : Tree.Reachable (fun _ => True) rosterRequest :=
    Tree.reachable_ofOutline _ trivial fun _ _ => trivial
  obtain ⟨_, hfirst, _⟩ := conform_first_objection hreachable .london rosterSchema ⟨.utc⟩
  refine ⟨hreachable, (hfirst _).mpr ⟨[1], 2, [3], rfl, ?_, rfl⟩⟩
  intro earlier hearlier
  rw [List.mem_singleton.mp hearlier]
  rfl

private def gateSchema : Schema :=
  .ofOutline ⟨⟨some "trip", .blank⟩,
    .cons ⟨some "at", timeIn "GMT+-2147483648:0"⟩
      (.cons ⟨some "gate", .ofKind .string⟩ .nil .nil) .nil⟩

private def gateRequest : Request :=
  .ofOutline ⟨⟨some "trip", .blank⟩, .cons ⟨some "at", .number (.integer 0)⟩ .nil .nil⟩

/-- No check fails, and still coercion does not come to an end. -/
theorem conform_stopped : ¬∀ (atlas : Atlas) (schema : Schema) (settings : Settings)
    (request : Request), Tree.Reachable Attribute.Obtainable request →
      ((schema.conform atlas settings request).2 = .ok () ↔ ∀ leaf ∈ request.leaves,
        ∀ failure, .failure failure ∉ schema.objections atlas request leaf) := by
  intro h
  have hreachable : Tree.Reachable Attribute.Obtainable gateRequest := by
    refine Tree.reachable_ofOutline _ .blank fun label hlabel => ?_
    rw [List.mem_singleton.mp hlabel]
    exact .number _
  have hstopped : (gateSchema.conform .london ⟨.utc⟩ gateRequest).2 =
      .error (.overflow .multiplication) := rfl
  have hobjections : gateSchema.objections .london gateRequest 1 =
      [.overflow .multiplication] := rfl
  have hleaves : gateRequest.leaves = [1] := rfl
  have hok := (h .london gateSchema ⟨.utc⟩ gateRequest hreachable).mpr fun leaf hleaf failure => by
    rw [hleaves, List.mem_singleton] at hleaf
    rw [hleaf, hobjections]
    simp
  rw [hstopped] at hok
  cases hok

end Schema

end Conform
