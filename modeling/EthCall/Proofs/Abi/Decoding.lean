import EthCall.Abi.Decode

/-!
# Runs of decoding

A computation that decodes is run from a budget. It either **returns** a
value or **fails** with an error, and leaves a budget behind in both
cases. `Decoding.Returns` and `Decoding.Fails` are the two relations, and
a run is taken apart by `Decoding.returns_bind` and
`Decoding.fails_bind`, one step at a time. Only a charge changes the
budget (`charge_returns`).
-/

namespace EthCall.Abi

namespace Decoding

variable {α β : Type}

/-! ## Returning and failing -/

/-- The run from a budget. -/
def runFrom (d : Decoding α) (budget : Budget) : Except AbiError α × Budget :=
  d.run.run budget

/-- **The run from a budget returns a value** and leaves a budget. -/
def Returns (d : Decoding α) (budget : Budget) (a : α) (rest : Budget) : Prop :=
  d.runFrom budget = (.ok a, rest)

/-- **The run from a budget fails** and leaves a budget. -/
def Fails (d : Decoding α) (budget : Budget) (e : AbiError) (rest : Budget) : Prop :=
  d.runFrom budget = (.error e, rest)

/-- A sequence runs its first part and then, if that returned, the
second. -/
theorem runFrom_bind (x : Decoding α) (f : α → Decoding β) (budget : Budget) :
    (x >>= f).runFrom budget
      = match x.runFrom budget with
        | (.ok a, rest) => (f a).runFrom rest
        | (.error e, rest) => (.error e, rest) := by
  unfold runFrom
  rw [ExceptT.run_bind, StateT.run_bind]
  show (match x.run.run budget with | (a, s) => _) = _
  rcases x.run.run budget with ⟨_ | _, _⟩ <;> rfl

/-- **A sequence returns what its second part returns** from where the
first one left off. -/
theorem returns_bind {x : Decoding α} {f : α → Decoding β} {budget rest : Budget} {b : β} :
    (x >>= f).Returns budget b rest
      ↔ ∃ a mid, x.Returns budget a mid ∧ (f a).Returns mid b rest := by
  unfold Returns
  rw [runFrom_bind]
  rcases x.runFrom budget with ⟨_ | a, mid⟩
  · simp
  · constructor
    · intro h
      exact ⟨a, mid, rfl, h⟩
    · rintro ⟨a', mid', heq, h⟩
      cases heq
      exact h

/-- **A sequence fails where one of its parts fails.** -/
theorem fails_bind {x : Decoding α} {f : α → Decoding β} {budget rest : Budget}
    {e : AbiError} :
    (x >>= f).Fails budget e rest
      ↔ x.Fails budget e rest
        ∨ ∃ a mid, x.Returns budget a mid ∧ (f a).Fails mid e rest := by
  unfold Fails Returns
  rw [runFrom_bind]
  rcases x.runFrom budget with ⟨_ | a, mid⟩
  · simp
  · constructor
    · intro h
      exact .inr ⟨a, mid, rfl, h⟩
    · rintro (h | ⟨a', mid', heq, h⟩)
      · cases h
      · cases heq
        exact h

/-- A constant returns, and leaves the budget alone. -/
@[simp] theorem returns_pure {a r : α} {budget rest : Budget} :
    (pure a : Decoding α).Returns budget r rest ↔ r = a ∧ rest = budget := by
  show ((Except.ok a, budget) : Except AbiError α × Budget) = (.ok r, rest) ↔ _
  rw [Prod.mk.injEq, Except.ok.injEq, eq_comm, @eq_comm _ budget]

@[simp] theorem not_fails_pure {a : α} {e : AbiError} {budget rest : Budget} :
    ¬ (pure a : Decoding α).Fails budget e rest := by
  show ¬ ((Except.ok a, budget) : Except AbiError α × Budget) = (.error e, rest)
  simp

@[simp] theorem not_returns_throw {e : AbiError} {a : α} {budget rest : Budget} :
    ¬ (throw e : Decoding α).Returns budget a rest := by
  show ¬ ((Except.error e, budget) : Except AbiError α × Budget) = (.ok a, rest)
  simp

/-- A refusal fails, and leaves the budget alone. -/
@[simp] theorem fails_throw {e e' : AbiError} {budget rest : Budget} :
    (throw e : Decoding α).Fails budget e' rest ↔ e' = e ∧ rest = budget := by
  show ((Except.error e, budget) : Except AbiError α × Budget) = (.error e', rest) ↔ _
  rw [Prod.mk.injEq, Except.error.injEq, eq_comm, @eq_comm _ budget]

/-- A choice that throws on one side returns only on the other. -/
theorem returns_guard {c : Prop} [Decidable c] {x : Decoding α} {e : AbiError} {a : α}
    {budget rest : Budget} :
    (if c then x else throw e : Decoding α).Returns budget a rest
      ↔ c ∧ x.Returns budget a rest := by
  by_cases h : c
  · rw [if_pos h]
    exact (and_iff_right h).symm
  · rw [if_neg h]
    exact iff_of_false not_returns_throw (fun hc => h hc.1)

/-- **The result of a computation** is that of its run from the budget of
the buffer. -/
theorem result_eq_ok_iff {b : Buffer} {d : Decoding α} {a : α} :
    d.result b = .ok a ↔ ∃ rest, d.Returns (Budget.ofBuffer b) a rest := by
  show (d.runFrom (Budget.ofBuffer b)).1 = _ ↔ _
  unfold Returns
  rcases d.runFrom (Budget.ofBuffer b) with ⟨r, rest⟩
  simp

/-- The same for an error. -/
theorem result_eq_error_iff {b : Buffer} {d : Decoding α} {e : AbiError} :
    d.result b = .error e ↔ ∃ rest, d.Fails (Budget.ofBuffer b) e rest := by
  show (d.runFrom (Budget.ofBuffer b)).1 = _ ↔ _
  unfold Fails
  rcases d.runFrom (Budget.ofBuffer b) with ⟨r, rest⟩
  simp

end Decoding

open Decoding

/-! ## Charging -/

/-- The budget behind a charge. -/
def Budget.spend (budget : Budget) (span : Span) : Budget where
  remaining := budget.remaining - span.length
  charged := span :: budget.charged

/-- A charge is booked before it is refused. -/
theorem runFrom_charge (span : Span) (budget : Budget) :
    (charge span).runFrom budget
      = (if budget.remaining < span.length then .error (.corrupt .overlap) else .ok (),
        budget.spend span) := by
  unfold charge
  rw [runFrom_bind]
  show (set _ >>= fun _ => _ : Decoding Unit).runFrom budget = _
  rw [runFrom_bind]
  show (if budget.remaining < span.length then throw _ else pure () : Decoding Unit).runFrom _
    = _
  split <;> rfl

/-- **A charge goes through while the budget covers it.** -/
theorem charge_returns {span : Span} {budget rest : Budget} {u : Unit} :
    (charge span).Returns budget u rest
      ↔ span.length ≤ budget.remaining ∧ rest = budget.spend span := by
  unfold Returns
  rw [runFrom_charge, Prod.mk.injEq, ← Nat.not_lt, @eq_comm _ rest]
  by_cases h : budget.remaining < span.length
  · rw [if_pos h]
    simp [h]
  · rw [if_neg h]
    simp [h]

/-- A charge fails for one reason. -/
theorem charge_fails {span : Span} {budget rest : Budget} {e : AbiError} :
    (charge span).Fails budget e rest
      ↔ budget.remaining < span.length ∧ e = .corrupt .overlap ∧ rest = budget.spend span := by
  unfold Fails
  rw [runFrom_charge, Prod.mk.injEq, @eq_comm _ rest]
  by_cases h : budget.remaining < span.length
  · rw [if_pos h]
    simp [h, @eq_comm _ e]
  · rw [if_neg h]
    simp [h]

end EthCall.Abi
