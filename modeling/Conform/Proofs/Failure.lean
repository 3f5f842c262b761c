import Conform.Failure
/-!
# Failures in order

A computation made of checks ends with the first cause that one of them
reports. The list of all that its checks would report, in their order, so
tells when it succeeds and what it ends with otherwise.
-/

namespace Conform

/-- What the failure of a check makes of a run, when the condition for it is met. -/
def Failure.when (failure : Failure) (condition : Prop) [Decidable condition] : List Halt :=
  if condition then [.failure failure] else []

@[simp] theorem Failure.mem_when {failure : Failure} {halt : Halt} {condition : Prop}
    [Decidable condition] : halt ∈ failure.when condition ↔ condition ∧ halt = .failure failure := by
  by_cases h : condition <;> simp [Failure.when, h]

theorem Failure.when_of_not {failure : Failure} {condition : Prop} [Decidable condition]
    (h : ¬condition) : failure.when condition = [] :=
  if_neg h

theorem Failure.when_congr (failure : Failure) {condition other : Prop} [Decidable condition]
    [Decidable other] (h : condition ↔ other) : failure.when condition = failure.when other := by
  simp only [Failure.when, h]

/-- A computation succeeds when the list is empty and ends with the first cause in it otherwise. -/
def Reports {ε α : Type} (result : Except ε α) (causes : List ε) : Prop :=
  match result with
  | .ok _ => causes = []
  | .error cause => causes.head? = some cause

namespace Reports

variable {ε α β : Type} {result : Except ε α} {causes others : List ε}

theorem ok (value : α) : Reports (.ok value : Except ε α) [] := rfl

theorem error (cause : ε) (later : List ε) :
    Reports (.error cause : Except ε α) (cause :: later) := rfl

theorem check (failure : Failure) (condition : Prop) [Decidable condition] (value : α) :
    Reports (liftM (if condition then .error failure else .ok value : Except Failure α))
      (failure.when condition) := by
  by_cases h : condition <;> simp [Reports, Failure.when, h]

theorem ok_iff (h : Reports result causes) : (∃ value, result = .ok value) ↔ causes = [] := by
  cases result with
  | ok value => exact ⟨fun _ => h, fun _ => ⟨value, rfl⟩⟩
  | error cause =>
    have hhead : causes.head? = some cause := h
    constructor
    · rintro ⟨_, hok⟩
      cases hok
    · intro hnil
      simp [hnil] at hhead

theorem error_iff (h : Reports result causes) {cause : ε} :
    result = .error cause ↔ causes.head? = some cause := by
  cases result with
  | ok value =>
    have hnil : causes = [] := h
    simp [hnil]
  | error other =>
    have hhead : causes.head? = some other := h
    simp [hhead]

theorem exists_error_iff (h : Reports result causes) :
    (∃ cause, result = .error cause) ↔ causes ≠ [] := by
  simp only [h.error_iff]
  cases causes <;> simp

theorem bind {next : α → Except ε β} (h : Reports result causes)
    (hnext : ∀ value, result = .ok value → Reports (next value) others) :
    Reports (result >>= next) (causes ++ others) := by
  cases result with
  | ok value =>
    have hnil : causes = [] := h
    rw [hnil, List.nil_append]
    exact hnext value rfl
  | error cause =>
    have hhead : causes.head? = some cause := h
    show (causes ++ others).head? = some cause
    rw [List.head?_append, hhead, Option.some_or]

theorem bind_pure (h : Reports result causes) (change : α → β) :
    Reports (result >>= fun value => pure (change value)) causes := by
  cases result <;> exact h

theorem map (h : Reports result causes) (change : α → β) :
    Reports (result.map change) causes := by
  cases result <;> exact h

end Reports

end Conform
