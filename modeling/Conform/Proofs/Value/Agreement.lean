import Conform.Value.Distinct
/-!
# Agreement of values

Agreement is symmetric and transitive. It is not reflexive, since what is no
number agrees with nothing. That is enough for sets: what is kept of a list are
the values that agree with none before them, whether those were kept or not.
-/

namespace Conform

theorem Binary64.agrees_trans {x y z : Binary64} (hxy : x.agrees y = true)
    (hyz : y.agrees z = true) : x.agrees z = true := by
  simp only [agrees, Bool.and_eq_true, Bool.or_eq_true, Bool.not_eq_true', beq_iff_eq] at hxy hyz ⊢
  obtain ⟨⟨hx, _⟩, hxy⟩ := hxy
  obtain ⟨⟨_, hz⟩, hyz⟩ := hyz
  refine ⟨⟨hx, hz⟩, ?_⟩
  have hbits : ∀ {a b : Binary64}, a.bits = b.bits → a = b := fun {a b} h => by
    cases a
    cases b
    exact congrArg Binary64.mk h
  rcases hxy with hxy | ⟨hx0, hy0⟩
  · rw [hbits hxy]
    exact hyz
  · rcases hyz with hyz | ⟨_, hz0⟩
    · rw [← hbits hyz]
      exact .inr ⟨hx0, hy0⟩
    · exact .inr ⟨hx0, hz0⟩

namespace Value

mutual
theorem agrees_comm : (a b : Value) → a.agrees b = b.agrees a
  | float x, b => by
    cases b with
    | float y => exact Binary64.agrees_comm x y
    | _ => rfl
  | array as, b => by
    cases b with
    | array bs => exact allAgree_comm as bs
    | _ => rfl
  | null, b | boolean _, b | integer _, b | string _, b | binary _, b => by
    cases b <;> first | rfl | exact Bool.beq_comm
theorem allAgree_comm : (as bs : List Value) → allAgree as bs = allAgree bs as
  | [], bs => by cases bs <;> rfl
  | a :: as, bs => by
    cases bs with
    | nil => rfl
    | cons b bs =>
      simp only [allAgree]
      rw [agrees_comm a b, allAgree_comm as bs]
end

/-- For a value that is no floating point number and no list, agreement is equality. -/
theorem eq_of_agrees {a b : Value} (hfloat : ∀ x, a ≠ float x) (harray : ∀ items, a ≠ array items)
    (h : a.agrees b = true) : a = b := by
  cases a with
  | float x => exact absurd rfl (hfloat x)
  | array items => exact absurd rfl (harray items)
  | _ => cases b <;> simp_all [agrees]

mutual
theorem agrees_trans : (a b c : Value) → a.agrees b = true → b.agrees c = true →
    a.agrees c = true
  | float x, b, c, hab, hbc => by
    cases b with
    | float y =>
      cases c with
      | float z => exact Binary64.agrees_trans hab hbc
      | _ => cases hbc
    | _ => cases hab
  | array as, b, c, hab, hbc => by
    cases b with
    | array bs =>
      cases c with
      | array cs => exact allAgree_trans as bs cs hab hbc
      | _ => cases hbc
    | _ => cases hab
  | null, b, c, hab, hbc | boolean _, b, c, hab, hbc | integer _, b, c, hab, hbc
  | string _, b, c, hab, hbc | binary _, b, c, hab, hbc => by
    rw [eq_of_agrees (fun _ => by simp) (fun _ => by simp) hab]
    exact hbc
theorem allAgree_trans : (as bs cs : List Value) → allAgree as bs = true →
    allAgree bs cs = true → allAgree as cs = true
  | [], bs, cs, hab, hbc => by
    cases bs with
    | nil => exact hbc
    | cons => cases hab
  | a :: as, bs, cs, hab, hbc => by
    cases bs with
    | nil => cases hab
    | cons b bs =>
      cases cs with
      | nil => cases hbc
      | cons c cs =>
        simp only [allAgree, Bool.and_eq_true] at hab hbc ⊢
        exact ⟨agrees_trans a b c hab.1 hbc.1, allAgree_trans as bs cs hab.2 hbc.2⟩
end

/-! ## First occurrences -/

/-- The values that agree with none before them, where some have come before the first. -/
def firstsAfter (before : List Value) : List Value → List Value
  | [] => []
  | value :: rest =>
    if before.any (·.agrees value) then firstsAfter (before ++ [value]) rest
    else value :: firstsAfter (before ++ [value]) rest

/-- The first occurrence of each value. -/
def firsts (values : List Value) : List Value := firstsAfter [] values

theorem any_agrees_congr {before : List Value} {value other : Value}
    (h : value.agrees other = true) (hbefore : before.any (·.agrees other) = true) :
    before.any (·.agrees value) = true := by
  obtain ⟨first, hfirst, hagrees⟩ := List.any_eq_true.mp hbefore
  have hback : other.agrees value = true := by rwa [agrees_comm]
  exact List.any_eq_true.mpr ⟨first, hfirst, agrees_trans first other value hagrees hback⟩

theorem distinctAfter_eq {kept before : List Value}
    (hsame : ∀ value, kept.any (·.agrees value) = before.any (·.agrees value))
    (values : List Value) : distinctAfter kept values = kept ++ firstsAfter before values := by
  induction values generalizing kept before with
  | nil => simp [distinctAfter, firstsAfter]
  | cons value rest ih =>
    rw [distinctAfter, firstsAfter, hsame value]
    split
    · next hseen =>
      refine ih fun other => ?_
      rw [List.any_append, hsame other]
      cases hagrees : value.agrees other with
      | false => simp [hagrees]
      | true =>
        have hback : other.agrees value = true := by rwa [agrees_comm]
        simp [any_agrees_congr hback hseen]
    · rw [ih, List.append_assoc, List.singleton_append]
      intro other
      rw [List.any_append, List.any_append, hsame other]

theorem distinctAfter_nil (values : List Value) : distinctAfter [] values = firsts values :=
  distinctAfter_eq (fun _ => rfl) values

theorem not_agrees_of_mem_firstsAfter {before values : List Value} {value : Value}
    (hvalue : value ∈ firstsAfter before values) : ∀ earlier ∈ before, earlier.agrees value = false := by
  induction values generalizing before with
  | nil => simp [firstsAfter] at hvalue
  | cons first rest ih =>
    have hlater : value ∈ firstsAfter (before ++ [first]) rest →
        ∀ earlier ∈ before, earlier.agrees value = false := fun hmem earlier hearlier =>
      ih hmem earlier (List.mem_append_left _ hearlier)
    rw [firstsAfter] at hvalue
    split at hvalue
    · exact hlater hvalue
    · next hnew =>
      rcases List.mem_cons.mp hvalue with rfl | hvalue
      · intro earlier hearlier
        cases hagrees : earlier.agrees value with
        | false => rfl
        | true => exact absurd (List.any_eq_true.mpr ⟨earlier, hearlier, hagrees⟩) hnew
      · exact hlater hvalue

theorem pairwise_firstsAfter (before values : List Value) :
    (firstsAfter before values).Pairwise fun value other => value.agrees other = false := by
  induction values generalizing before with
  | nil => exact .nil
  | cons value rest ih =>
    rw [firstsAfter]
    split
    · exact ih _
    · refine .cons (fun other hother => ?_) (ih _)
      exact not_agrees_of_mem_firstsAfter hother value (by simp)

/-- No two of the first occurrences agree. -/
theorem pairwise_firsts (values : List Value) :
    (firsts values).Pairwise fun value other => value.agrees other = false :=
  pairwise_firstsAfter [] values

theorem firstsAfter_sublist (before values : List Value) :
    (firstsAfter before values).Sublist values := by
  induction values generalizing before with
  | nil => exact .slnil
  | cons value rest ih =>
    rw [firstsAfter]
    split
    · exact (ih _).cons value
    · exact (ih _).cons_cons value

theorem firstsAfter_eq_self {before values : List Value}
    (hbefore : ∀ earlier ∈ before, ∀ value ∈ values, earlier.agrees value = false)
    (hvalues : values.Pairwise fun value other => value.agrees other = false) :
    firstsAfter before values = values := by
  induction values generalizing before with
  | nil => rfl
  | cons value rest ih =>
    have hhead := (List.pairwise_cons.mp hvalues).1
    have hrest := (List.pairwise_cons.mp hvalues).2
    have hnew : before.any (·.agrees value) = false := by
      rw [List.any_eq_false]
      intro earlier hearlier
      simp [hbefore earlier hearlier value List.mem_cons_self]
    have hlater : ∀ earlier ∈ before ++ [value], ∀ other ∈ rest, earlier.agrees other = false := by
      intro earlier hearlier other hother
      rcases List.mem_append.mp hearlier with hearlier | hearlier
      · exact hbefore earlier hearlier other (List.mem_cons_of_mem _ hother)
      · rw [List.mem_singleton.mp hearlier]
        exact hhead other hother
    simp [firstsAfter, hnew, ih hlater hrest]

theorem firsts_eq_self {values : List Value}
    (h : values.Pairwise fun value other => value.agrees other = false) : firsts values = values :=
  firstsAfter_eq_self (by simp) h

end Value

theorem Cardinality.restrict_eq (cardinality : Cardinality) (values : List Value) :
    cardinality.restrict values = if cardinality = .set then Value.firsts values else values := by
  cases cardinality with
  | set => exact Value.distinctAfter_nil values
  | single => rfl
  | multiset => rfl

end Conform
