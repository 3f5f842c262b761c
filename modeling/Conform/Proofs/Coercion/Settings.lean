import Conform.Coercion.Document
import Mathlib.Data.List.Basic
/-!
# Settings that are read

All that reading settings can come to. Their zone is that of Greenwich or the
one that is named where settings have their zone, and a reading that fails
does so by that name or by the form of the text.
-/

namespace Conform

namespace Written

theorem suffix_of_readEach (steps : Nat) :
    (∀ {tokens written rest}, readValue steps tokens = some (written, rest) → rest <:+ tokens) ∧
    (∀ {tokens items rest}, readItems steps tokens = some (items, rest) → rest <:+ tokens) ∧
    ∀ {tokens fields rest}, readFields steps tokens = some (fields, rest) → rest <:+ tokens := by
  induction steps with
  | zero => exact ⟨nofun, nofun, nofun⟩
  | succ steps ih =>
    obtain ⟨hvalue, hitems, hfields⟩ := ih
    refine ⟨fun {tokens written rest} h => ?_, fun {tokens items rest} h => ?_,
      fun {tokens fields rest} h => ?_⟩
    · rw [readValue.eq_def] at h
      dsimp only at h
      split at h
      · cases h
        exact List.suffix_cons _ _
      · cases h
        exact List.suffix_cons _ _
      · cases h
        exact List.suffix_cons _ _
      · cases h
        exact List.suffix_cons _ _
      · cases h
        exact (List.suffix_cons _ _).trans (List.suffix_cons _ _)
      · obtain ⟨⟨items, later⟩, hread, heq⟩ := Option.map_eq_some_iff.mp h
        cases heq
        exact (hitems hread).trans (List.suffix_cons _ _)
      · cases h
        exact (List.suffix_cons _ _).trans (List.suffix_cons _ _)
      · obtain ⟨⟨fields, later⟩, hread, heq⟩ := Option.map_eq_some_iff.mp h
        cases heq
        exact (hfields hread).trans (List.suffix_cons _ _)
      · cases h
    · rw [readItems.eq_def] at h
      dsimp only at h
      split at h
      · next hread =>
        obtain ⟨⟨items, later⟩, hread', heq⟩ := Option.map_eq_some_iff.mp h
        cases heq
        exact (hitems hread').trans ((List.suffix_cons _ _).trans (hvalue hread))
      · next hread =>
        cases h
        exact (List.suffix_cons _ _).trans (hvalue hread)
      · cases h
    · rw [readFields.eq_def] at h
      dsimp only at h
      split at h
      · next key? behind =>
        have hbehind : behind <:+ .string key? :: .colon :: behind :=
          (List.suffix_cons _ _).trans (List.suffix_cons _ _)
        split at h
        · next hread =>
          obtain ⟨⟨fields, later⟩, hread', heq⟩ := Option.map_eq_some_iff.mp h
          cases heq
          exact (hfields hread').trans (((List.suffix_cons _ _).trans (hvalue hread)).trans hbehind)
        · next hread =>
          cases h
          exact ((List.suffix_cons _ _).trans (hvalue hread)).trans hbehind
        · cases h
      · cases h

theorem suffix_of_read? {tokens rest : List Token} {written : Written}
    (h : read? tokens = some (written, rest)) : rest <:+ tokens :=
  (suffix_of_readEach _).1 h

end Written

namespace Settings

variable {atlas : Atlas} {tokens rest : List Token} {zone : Zone}

/-- A string stands where settings have their zone: behind its key, or at the front of a list. -/
inductive Holds (tokens : List Token) (id : String) : Prop where
  | field {before after}
      (split : before ++ .string (some zoneKey) :: .colon :: .string (some id) :: after = tokens)
  | item {after} (split : .openList :: .string (some id) :: after = tokens)

/-- What reading settings can come to. -/
inductive Told (atlas : Atlas) (tokens : List Token) : Except Halt Settings → Prop where
  | default : Told atlas tokens (.ok ⟨.utc⟩)
  | zone {id own} (held : Holds tokens id) (resolved : Zone.resolve atlas id = .ok (some own)) :
      Told atlas tokens (.ok ⟨own⟩)
  | unknown {id} (held : Holds tokens id) (zoneless : Zone.resolve atlas id = .ok none) :
      Told atlas tokens (.error (unreadable (.unknownZone id)))
  | stopped {id overflow} (held : Holds tokens id)
      (stops : Zone.resolve atlas id = .error overflow) :
      Told atlas tokens (.error (.overflow overflow))
  | malformed : Told atlas tokens (.error (unreadable .malformed))

theorem zoneOf_string (atlas : Atlas) (id : String) : zoneOf atlas (.string (some id)) =
    match Zone.resolve atlas id with
    | .ok (some zone) => .ok zone
    | .ok none => .error (unreadable (.unknownZone id))
    | .error overflow => .error (.overflow overflow) := by
  rw [zoneOf]
  cases Zone.resolve atlas id with
  | error overflow => rfl
  | ok zone? => cases zone? <;> rfl

theorem told_of_zoneOf (atlas : Atlas) {token : Token}
    (hheld : ∀ id, token = .string (some id) → Holds tokens id) :
    Told atlas tokens ((zoneOf atlas token).map Settings.mk) := by
  cases token with
  | string text? =>
    cases text? with
    | none => exact .malformed
    | some id =>
      have hid := hheld id rfl
      rw [zoneOf_string]
      cases hresolve : Zone.resolve atlas id with
      | error overflow => exact .stopped hid hresolve
      | ok zone? =>
        cases zone? with
        | none => exact .unknown hid hresolve
        | some zone => exact .zone hid hresolve
  | _ => exact .malformed

theorem told_atEnd (hzone : Told atlas tokens (.ok ⟨zone⟩)) (rest : List Token) :
    Told atlas tokens (atEnd zone rest) := by
  cases rest with
  | nil => exact hzone
  | cons => exact .malformed

theorem holds_of_suffix {token : Token}
    (hsuffix : .string (some zoneKey) :: .colon :: token :: rest <:+ tokens) (id : String)
    (htoken : token = .string (some id)) : Holds tokens id := by
  obtain ⟨before, hsplit⟩ := hsuffix
  exact .field (htoken ▸ hsplit)

theorem told_ofFields (steps : Nat) {zone? : Option Zone} (hsuffix : rest <:+ tokens)
    (hzone : Told atlas tokens (.ok ⟨zone?.getD .utc⟩)) :
    Told atlas tokens (ofFields atlas steps zone? rest) := by
  have hbehind {token : Token} {later : List Token}
      (hhere : .string (some zoneKey) :: .colon :: token :: later <:+ tokens) :=
    told_of_zoneOf atlas (holds_of_suffix hhere)
  fun_induction ofFields atlas steps zone? rest with
  | case1 => exact .malformed
  | case2 steps token rest halt herror =>
    have htold := hbehind hsuffix
    rwa [herror] at htold
  | case3 steps token zone rest hok ih =>
    have htold := hbehind hsuffix
    rw [hok] at htold
    exact ih (List.IsSuffix.trans ⟨[_, _, _, _], rfl⟩ hsuffix) htold
  | case4 steps token zone rest hok =>
    have htold := hbehind hsuffix
    rw [hok] at htold
    exact told_atEnd htold rest
  | case5 => exact .malformed
  | case6 => exact .malformed
  | case7 steps zone? key behind hkey written rest hread ih =>
    have hlater : rest <:+ behind := (List.suffix_cons _ _).trans (Written.suffix_of_read? hread)
    exact ih (hlater.trans (List.IsSuffix.trans ⟨[_, _], rfl⟩ hsuffix)) hzone
  | case8 steps zone? key behind hkey written rest hread => exact told_atEnd hzone rest
  | case9 => exact .malformed
  | case10 => exact .malformed

theorem told_ofText (atlas : Atlas) (text : String) :
    Told atlas (Token.ofText text) (ofText atlas text) := by
  rw [ofText, ofTokens.eq_def]
  split
  · exact told_atEnd .default _
  · next rest _ htokens => exact told_ofFields _ ⟨[.openObject], htokens.symm⟩ .default
  · exact told_atEnd .default _
  · next token rest _ htokens =>
    have hheld (id : String) (hid : token = .string (some id)) : Holds (Token.ofText text) id :=
      .item (by rw [htokens, hid])
    have htold := told_of_zoneOf atlas hheld
    split
    · next herror => rwa [herror] at htold
    · next hok =>
      rw [hok] at htold
      exact told_atEnd htold _
    · exact .malformed
  · exact .malformed

/-- Settings that name a zone are read, from an object and from a list. -/
theorem ofTokens_of_resolve {id : String} (h : Zone.resolve atlas id = .ok (some zone)) :
    ofTokens atlas [.openObject, .string (some zoneKey), .colon, .string (some id), .closeObject] =
      .ok ⟨zone⟩ ∧
    ofTokens atlas [.openList, .string (some id), .closeList] = .ok ⟨zone⟩ := by
  have hzone : zoneOf atlas (.string (some id)) = .ok zone := by
    rw [zoneOf_string, h]
  constructor
  · simp [ofTokens, ofFields, hzone, atEnd]
  · simp [ofTokens, hzone, atEnd]

/-- A name that names no zone ends the reading, whatever is written behind it. -/
theorem ofTokens_of_zoneless {id : String} (h : Zone.resolve atlas id = .ok none)
    (rest : List Token) :
    ofTokens atlas (.openObject :: .string (some zoneKey) :: .colon :: .string (some id) :: rest) =
      .error (unreadable (.unknownZone id)) := by
  have hzone : zoneOf atlas (.string (some id)) = .error (unreadable (.unknownZone id)) := by
    rw [zoneOf_string, h]
  simp [ofTokens, ofFields, hzone]

end Settings

end Conform
