import Conform.Proofs.Tree.Reachable
import Conform.Proofs.Zone.Options
import Conform.Schema.Document
/-!
# Verified schemas

A schema is verified exactly when the options of each of its leaves are in
order. The zone of such a leaf can be read. Nothing is said of inner nodes.
-/

namespace Conform

open Conform.Tree (root)

theorem Entry.names_of_verify {atlas : Atlas} {entry : Entry} (h : entry.verify atlas = .ok ()) :
    ∃ own?, entry.Names atlas own? := by
  rw [verify] at h
  split at h
  · cases h
  · split at h
    · cases h
    · obtain ⟨own?, hzone, -⟩ := map_eq_ok_iff.mp h
      exact ⟨own?, zone?_ok_iff.mp hzone⟩
  · split at h
    · next hempty =>
      have hpairs : entry.options.pairs = [] := by simpa [Options.isEmpty] using hempty
      exact ⟨none, .absent (by simp [Options.get?, hpairs])⟩
    · cases h

namespace Schema

variable {atlas : Atlas} {schema : Schema}

theorem verifyEach_ok_iff {ids : List NodeId} :
    schema.verifyEach atlas ids = .ok () ↔ ∀ id ∈ ids, schema.isLeaf id = true →
      ∀ entry, schema.payload? id = some entry → entry.verify atlas = .ok () := by
  induction ids with
  | nil => simp [verifyEach]
  | cons id rest ih =>
    rw [verifyEach, List.forall_mem_cons, ← ih]
    cases hleaf : schema.isLeaf id with
    | false => simp
    | true =>
      cases hentry : schema.payload? id with
      | none => simp
      | some entry => cases hverify : entry.verify atlas <;> simp [hverify]

/-- A schema is verified when its leaves are, whatever inner nodes carry. -/
theorem verify_ok_iff (h : schema.Linked) :
    schema.verify atlas = .ok () ↔ ∀ id, schema.contains id = true → schema.isLeaf id = true →
      ∀ entry, schema.payload? id = some entry → entry.verify atlas = .ok () := by
  rw [verify, verifyEach_ok_iff]
  constructor
  · intro hall id hid
    exact hall id ((h.mem_descendants_iff h.contains_root id).mpr ⟨hid, h.root_isAbove hid⟩)
  · intro hall id hid
    exact hall id ((h.mem_descendants_iff h.contains_root id).mp hid).1

/-! ## Schemas of outlines -/

variable {outline : Outline Entry}

theorem ofOutline_of_named (h : ∀ label ∈ outline.below.preorder, label.name?.isSome = true) :
    ofOutline atlas outline =
      (verify atlas (Tree.ofOutline outline)).map fun _ => Tree.ofOutline outline := by
  have hnamed : (outline.below.preorder.any fun label => label.name?.isNone) = false := by
    simpa [List.any_eq_false, Option.isSome_iff_ne_none] using h
  rw [ofOutline, hnamed, if_neg Bool.false_ne_true]

theorem ofOutline_of_unnamed
    (h : ¬∀ label ∈ outline.below.preorder, label.name?.isSome = true) :
    ofOutline atlas outline = .error (.failure (.misuse .unnamedChild)) := by
  have hunnamed : (outline.below.preorder.any fun label => label.name?.isNone) = true := by
    simpa [List.any_eq_true, Option.isSome_iff_ne_none] using h
  rw [ofOutline, hunnamed, if_pos rfl]

/-- An outline makes a schema when its nodes are named and the schema is verified. -/
theorem ofOutline_ok_iff :
    ofOutline atlas outline = .ok schema ↔
      (∀ label ∈ outline.below.preorder, label.name?.isSome = true) ∧
      verify atlas (Tree.ofOutline outline) = .ok () ∧ Tree.ofOutline outline = schema := by
  by_cases hnamed : ∀ label ∈ outline.below.preorder, label.name?.isSome = true
  · rw [ofOutline_of_named hnamed, map_eq_ok_iff]
    exact ⟨fun ⟨_, hverify, hschema⟩ => ⟨hnamed, hverify, hschema⟩,
      fun ⟨_, hverify, hschema⟩ => ⟨(), hverify, hschema⟩⟩
  · rw [ofOutline_of_unnamed hnamed]
    exact ⟨fun h => (nomatch h), fun h => absurd h.1 hnamed⟩

/-- A node without a name is told first, and otherwise what verification ends with. -/
theorem ofOutline_error_iff {halt : Halt} :
    ofOutline atlas outline = .error halt ↔
      ((¬∀ label ∈ outline.below.preorder, label.name?.isSome = true) ∧
        halt = .failure (.misuse .unnamedChild)) ∨
      (∀ label ∈ outline.below.preorder, label.name?.isSome = true) ∧
        verify atlas (Tree.ofOutline outline) = .error halt := by
  by_cases hnamed : ∀ label ∈ outline.below.preorder, label.name?.isSome = true
  · rw [ofOutline_of_named hnamed, map_eq_error_iff]
    exact ⟨fun h => .inr ⟨hnamed, h⟩, fun h => h.elim (fun h => absurd hnamed h.1) fun h => h.2⟩
  · rw [ofOutline_of_unnamed hnamed, Except.error.injEq]
    exact ⟨fun h => .inl ⟨hnamed, h.symm⟩,
      fun h => h.elim (fun h => h.2.symm) fun h => absurd h.1 hnamed⟩

theorem verify_of_ofOutline (h : ofOutline atlas outline = .ok schema) :
    Tree.Reachable (fun _ => True) schema ∧ schema.verify atlas = .ok () := by
  obtain ⟨-, hverify, rfl⟩ := ofOutline_ok_iff.mp h
  exact ⟨Tree.reachable_ofOutline outline trivial fun _ _ => trivial, hverify⟩

end Schema

end Conform
