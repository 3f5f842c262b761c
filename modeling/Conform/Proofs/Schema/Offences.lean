import Conform.Proofs.Tree.Growth
import Conform.Proofs.Tree.Visits
import Conform.Proofs.Zone.Options
import Conform.Schema.Verify
/-!
# Offences of schemas

What is wrong with the options of an entry, and what verification ends with
over it. An entry has at most one offence. A schema is verified when no leaf
has one, and otherwise ends with that of the first leaf in pre-order.
-/

namespace Conform

open Conform.Tree (root)

open Greenwich (mark)

/-! ## Entries -/

namespace Entry

variable {atlas : Atlas} {entry : Entry}

/-- An entry with a kind whose options this kind allows: none unless it is a time, and of a time
only the zone. -/
inductive InOrder (atlas : Atlas) (entry : Entry) : Prop where
  | bare {kind} (declared : entry.kind? = some kind) (other : kind ≠ .time)
      (free : entry.options.isEmpty = true) : InOrder atlas entry
  | time (declared : entry.kind? = some .time)
      (only : ∀ key ∈ entry.options.keys, key = Zone.optionName)
      (zone : ∀ value, entry.options.get? Zone.optionName = some value → value.NamesZone atlas) :
      InOrder atlas entry

/-- What is wrong with an entry, as verification ends over it. The zone of a time counts only where
there is no other option. -/
inductive Offends (atlas : Atlas) (entry : Entry) : Halt → Prop where
  | untyped (undeclared : entry.kind? = none) : Offends atlas entry (.failure (.misuse .untypedEntry))
  | forbidden {kind} (declared : entry.kind? = some kind) (other : kind ≠ .time)
      (held : entry.options.isEmpty = false) : Offends atlas entry (.failure (.optionsForbidden kind))
  | unknown {key} (declared : entry.kind? = some .time) (option : key ∈ entry.options.keys)
      (other : key ≠ Zone.optionName) :
      Offends atlas entry (.failure (.unknownOption .time Zone.optionName))
  | illegal {value} (declared : entry.kind? = some .time)
      (only : ∀ key ∈ entry.options.keys, key = Zone.optionName)
      (option : entry.options.get? Zone.optionName = some value) (zoneless : ¬value.NamesZone atlas) :
      Offends atlas entry (.failure (.illegalOption value.text Zone.optionName))
  | stopped {text overflow} (declared : entry.kind? = some .time)
      (only : ∀ key ∈ entry.options.keys, key = Zone.optionName)
      (option : entry.options.get? Zone.optionName = some (.string text))
      (stops : Zone.resolve atlas text = .error overflow) : Offends atlas entry (.overflow overflow)

/-- In order, and the zone can be worked out. -/
structure Passes (atlas : Atlas) (entry : Entry) : Prop where
  inOrder : entry.InOrder atlas
  worked : ∀ overflow, ¬entry.Offends atlas (.overflow overflow)

theorem verify_of_untyped (undeclared : entry.kind? = none) :
    entry.verify atlas = .error (.failure (.misuse .untypedEntry)) := by
  simp only [verify, undeclared]

theorem verify_of_ne_time {kind : Kind} (declared : entry.kind? = some kind)
    (other : kind ≠ .time) : entry.verify atlas =
      if entry.options.isEmpty then .ok () else .error (.failure (.optionsForbidden kind)) := by
  cases kind with
  | time => exact absurd rfl other
  | _ => simp only [verify, declared]

theorem verify_of_unknown {key : String} (declared : entry.kind? = some .time)
    (option : key ∈ entry.options.keys) (other : key ≠ Zone.optionName) :
    entry.verify atlas = .error (.failure (.unknownOption .time Zone.optionName)) := by
  have hany : (entry.options.keys.any (· != Zone.optionName)) = true :=
    List.any_eq_true.mpr ⟨key, option, bne_iff_ne.mpr other⟩
  simp only [verify, declared, hany, if_true]

theorem verify_of_only (declared : entry.kind? = some .time)
    (only : ∀ key ∈ entry.options.keys, key = Zone.optionName) :
    entry.verify atlas = (entry.zone? atlas).map fun _ => () := by
  have hany : (entry.options.keys.any (· != Zone.optionName)) = false := by
    simpa using only
  simp only [verify, declared, hany, Bool.false_eq_true, if_false]

theorem verify_error_iff {halt : Halt} :
    entry.verify atlas = .error halt ↔ entry.Offends atlas halt := by
  constructor
  · intro h
    cases hkind : entry.kind? with
    | none =>
      rw [verify_of_untyped hkind, Except.error.injEq] at h
      exact h ▸ .untyped hkind
    | some kind =>
      by_cases htime : kind = .time
      · subst htime
        by_cases honly : ∀ key ∈ entry.options.keys, key = Zone.optionName
        · rw [verify_of_only hkind honly, map_eq_error_iff, zone?_error_iff] at h
          cases h with
          | illegal option zoneless => exact .illegal hkind honly option zoneless
          | stopped option stops => exact .stopped hkind honly option stops
        · push Not at honly
          obtain ⟨key, hkey, hother⟩ := honly
          rw [verify_of_unknown hkind hkey hother, Except.error.injEq] at h
          exact h ▸ .unknown hkind hkey hother
      · rw [verify_of_ne_time hkind htime] at h
        cases hempty : entry.options.isEmpty with
        | true =>
          rw [hempty, if_pos rfl] at h
          cases h
        | false =>
          rw [hempty, if_neg Bool.false_ne_true, Except.error.injEq] at h
          exact h ▸ .forbidden hkind htime hempty
  · intro h
    cases h with
    | untyped undeclared => exact verify_of_untyped undeclared
    | forbidden declared other held =>
      rw [verify_of_ne_time declared other, held, if_neg Bool.false_ne_true]
    | unknown declared option other => exact verify_of_unknown declared option other
    | illegal declared only option zoneless =>
      rw [verify_of_only declared only, map_eq_error_iff, zone?_error_iff]
      exact .illegal option zoneless
    | stopped declared only option stops =>
      rw [verify_of_only declared only, map_eq_error_iff, zone?_error_iff]
      exact .stopped option stops

theorem inOrder_iff :
    entry.InOrder atlas ↔ ∀ failure, ¬entry.Offends atlas (.failure failure) := by
  constructor
  · rintro (⟨declared, other, free⟩ | ⟨declared, only, zone⟩) failure hoffends
    · cases hoffends with
      | untyped undeclared => rw [declared] at undeclared; cases undeclared
      | forbidden _ _ held => rw [free] at held; cases held
      | unknown isTime _ _ | illegal isTime _ _ _ =>
        rw [declared, Option.some.injEq] at isTime
        exact other isTime
    · cases hoffends with
      | untyped undeclared => rw [declared] at undeclared; cases undeclared
      | forbidden isOther other _ =>
        rw [declared, Option.some.injEq] at isOther
        exact other isOther.symm
      | unknown _ option other => exact other (only _ option)
      | illegal _ _ option zoneless => exact zoneless (zone _ option)
  · intro h
    cases hkind : entry.kind? with
    | none => exact absurd (.untyped hkind) (h _)
    | some kind =>
      by_cases htime : kind = .time
      · subst htime
        have honly : ∀ key ∈ entry.options.keys, key = Zone.optionName := by
          intro key hkey
          by_contra hother
          exact h _ (.unknown hkind hkey hother)
        refine .time hkind honly fun value hvalue => ?_
        by_contra hzoneless
        exact h _ (.illegal hkind honly hvalue hzoneless)
      · refine .bare hkind htime ?_
        by_contra hheld
        exact h _ (.forbidden hkind htime (Bool.eq_false_iff.mpr hheld))

theorem passes_iff : entry.Passes atlas ↔ ∀ halt, ¬entry.Offends atlas halt := by
  constructor
  · rintro ⟨hinOrder, hworked⟩ halt
    cases halt with
    | failure failure => exact inOrder_iff.mp hinOrder failure
    | overflow overflow => exact hworked overflow
  · intro h
    exact ⟨inOrder_iff.mpr fun failure => h _, fun overflow => h _⟩

theorem verify_ok_iff : entry.verify atlas = .ok () ↔ entry.Passes atlas := by
  simp only [passes_iff, ← verify_error_iff]
  cases entry.verify atlas <;> simp

end Entry

/-! ## Schemas -/

namespace Schema

variable {atlas : Atlas} {schema : Schema}

/-- What verification ends with over one leaf, unless it goes on. -/
def haltAt? (atlas : Atlas) (schema : Schema) (id : NodeId) : Option Halt :=
  match (schema.payload? id).elim (.ok ()) (Entry.verify atlas) with
  | .error halt => some halt
  | .ok () => none

theorem haltAt?_eq_some_iff {id : NodeId} {halt : Halt} : schema.haltAt? atlas id = some halt ↔
    ∃ entry, schema.payload? id = some entry ∧ entry.Offends atlas halt := by
  rw [haltAt?]
  cases schema.payload? id with
  | none => simp
  | some entry =>
    simp only [Option.elim_some, Option.some.injEq, exists_eq_left',
      ← Entry.verify_error_iff]
    cases entry.verify atlas <;> simp

theorem haltAt?_eq_none_iff {id : NodeId} : schema.haltAt? atlas id = none ↔
    ∀ entry, schema.payload? id = some entry → entry.Passes atlas := by
  simp only [Option.eq_none_iff_forall_ne_some, ne_eq, haltAt?_eq_some_iff, Entry.passes_iff]
  exact ⟨fun h entry hentry halt hoffends => h halt ⟨entry, hentry, hoffends⟩,
    fun h halt ⟨entry, hentry, hoffends⟩ => h entry hentry halt hoffends⟩

/-- Among the leaves of some nodes the first one with an offence decides. -/
theorem verifyEach_eq (ids : List NodeId) : schema.verifyEach atlas ids =
    ((ids.filter schema.isLeaf).findSome? (schema.haltAt? atlas)).elim (.ok ()) .error := by
  induction ids with
  | nil => rfl
  | cons id rest ih =>
    rw [verifyEach, ih, List.filter_cons]
    cases schema.isLeaf id with
    | false => rfl
    | true =>
      simp only [if_true, List.findSome?_cons]
      rw [haltAt?]
      cases (schema.payload? id).elim (.ok ()) (Entry.verify atlas) <;> rfl

/-- A schema is verified when all its leaves pass, and otherwise ends with the offence of the first
leaf in pre-order that has one. -/
theorem verify_first_offence (h : schema.Linked) :
    (schema.verify atlas = .ok () ↔ ∀ id, schema.contains id = true → schema.isLeaf id = true →
      ∀ entry, schema.payload? id = some entry → entry.Passes atlas) ∧
    ∀ halt, schema.verify atlas = .error halt ↔ ∃ before id after entry,
      schema.leaves = before ++ id :: after ∧ schema.payload? id = some entry ∧
      entry.Offends atlas halt ∧
      ∀ earlier ∈ before, ∀ entry, schema.payload? earlier = some entry → entry.Passes atlas := by
  have heq : schema.verify atlas =
      (schema.leaves.findSome? (schema.haltAt? atlas)).elim (.ok ()) .error :=
    verifyEach_eq _
  constructor
  · have hok : schema.verify atlas = .ok () ↔
        schema.leaves.findSome? (schema.haltAt? atlas) = none := by
      rw [heq]
      cases schema.leaves.findSome? (schema.haltAt? atlas) <;> simp
    simp only [hok, List.findSome?_eq_none_iff, haltAt?_eq_none_iff, h.mem_leaves_iff, and_imp]
  · intro halt
    have herror : schema.verify atlas = .error halt ↔
        schema.leaves.findSome? (schema.haltAt? atlas) = some halt := by
      rw [heq]
      cases schema.leaves.findSome? (schema.haltAt? atlas) <;> simp
    rw [herror, List.findSome?_eq_some_iff]
    simp only [haltAt?_eq_none_iff, haltAt?_eq_some_iff]
    constructor
    · rintro ⟨before, id, after, hleaves, ⟨entry, hentry, hoffends⟩, hbefore⟩
      exact ⟨before, id, after, entry, hleaves, hentry, hoffends, hbefore⟩
    · rintro ⟨before, id, after, entry, hleaves, hentry, hoffends, hbefore⟩
      exact ⟨before, id, after, hleaves, ⟨entry, hentry, hoffends⟩, hbefore⟩

def timeIn (zone : String) : Entry := (Entry.ofKind .time).withOption Zone.optionName (.string zone)

def trip (zone : String) : Schema :=
  Tree.ofOutline ⟨⟨some "trip", .blank⟩,
    .cons ⟨some "seat", .ofKind .string⟩ .nil (.cons ⟨some "at", timeIn zone⟩ .nil .nil)⟩

theorem verify_first_offence_trip : (trip "Atlantis").Linked ∧
    (trip "Atlantis").verify .london =
      .error (.failure (.illegalOption "Atlantis" Zone.optionName)) := by
  have hlinked : (trip "Atlantis").Linked := Tree.linked_ofOutline _
  have hzoneless : ¬(Value.string "Atlantis").NamesZone .london := by
    rw [Value.namesZone_string_iff, not_not]
    rfl
  have hoffends : (timeIn "Atlantis").Offends .london
      (.failure (.illegalOption (Value.string "Atlantis").text Zone.optionName)) :=
    .illegal rfl (by decide) rfl hzoneless
  have hseat : (Entry.ofKind .string).Passes .london := Entry.verify_ok_iff.mp rfl
  have hleaves : (trip "Atlantis").leaves = [1, 2] := by decide
  have hpayload : (trip "Atlantis").payload? 2 = some (timeIn "Atlantis") := rfl
  have hfirst : (trip "Atlantis").payload? 1 = some (Entry.ofKind .string) := rfl
  refine ⟨hlinked, ((verify_first_offence hlinked).2 _).mpr
    ⟨[1], 2, [], timeIn "Atlantis", hleaves, hpayload, hoffends, ?_⟩⟩
  intro earlier hearlier entry hentry
  rw [List.mem_singleton] at hearlier
  rw [hearlier, hfirst, Option.some.injEq] at hentry
  exact hentry ▸ hseat

/-- The time names a zone by its mark, and still verification does not come to an end. -/
theorem verify_stopped : ¬∀ (atlas : Atlas) (schema : Schema), schema.Linked →
    (schema.verify atlas = .ok () ↔ ∀ id, schema.contains id = true → schema.isLeaf id = true →
      ∀ entry, schema.payload? id = some entry → entry.InOrder atlas) := by
  intro h
  have hlinked : (trip "GMT+-2147483648:0").Linked := Tree.linked_ofOutline _
  have hstopped : (trip "GMT+-2147483648:0").verify .london =
      .error (.overflow .multiplication) := rfl
  have hleaves : (trip "GMT+-2147483648:0").leaves = [1, 2] := by decide
  have hseat : (Entry.ofKind .string).InOrder .london := .bare rfl (by decide) rfl
  have htime : (timeIn "GMT+-2147483648:0").InOrder .london := by
    refine .time rfl (by decide) fun value hvalue => ?_
    cases hvalue
    exact .marked ⟨[], "+-2147483648:0".toList, rfl⟩
  have hok := (h .london _ hlinked).mpr fun id hid hleaf entry hentry => by
    have hmem := (hlinked.mem_leaves_iff id).mpr ⟨hid, hleaf⟩
    rw [hleaves, List.mem_pair] at hmem
    rcases hmem with rfl | rfl
    · cases hentry
      exact hseat
    · cases hentry
      exact htime
  rw [hstopped] at hok
  cases hok

end Schema

end Conform
