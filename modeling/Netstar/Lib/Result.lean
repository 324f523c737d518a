/-!
# `Netstar.Lib.Result`: sequences of steps that can fail

Rules for `do` blocks in `Except`. They run a block from the front: `ok_bind` when the result of the
first step is known, `bind_eq_ok` when the result of the whole block is. `map_eq_ok` and
`mapError_eq_ok` do the same for a change of the result and of the error.

`Sat allowed P` is a specification of a block: it fails with an allowed error, or its result
satisfies `P`. `Sat.bind` is the rule for a sequence.
-/

set_option autoImplicit false

namespace Netstar.Lib

variable {ε α β : Type}

/-- A result goes on. -/
@[simp] theorem ok_bind (a : α) (f : α → Except ε β) : (Except.ok a >>= f) = f a := rfl

/-- Two steps succeed when the first does, and the second does on its result. -/
theorem bind_eq_ok {x : Except ε α} {f : α → Except ε β} {b : β} :
    (x >>= f) = .ok b ↔ ∃ a, x = .ok a ∧ f a = .ok b := by
  cases x with
  | error e => simp [bind, Except.bind]
  | ok a => simp

/-- A mapped result comes from a result. -/
theorem map_eq_ok {x : Except ε α} {f : α → β} {b : β} :
    x.map f = .ok b ↔ ∃ a, x = .ok a ∧ f a = b := by
  cases x with
  | error e => simp [Except.map]
  | ok a => simp [Except.map]

/-- Renaming the errors leaves the results. -/
theorem mapError_eq_ok {ε' : Type} {x : Except ε α} {f : ε → ε'} {a : α} :
    x.mapError f = .ok a ↔ x = .ok a := by
  cases x with
  | error e => exact iff_of_false (fun h => by cases h) fun h => by cases h
  | ok b => exact ⟨fun h => by cases h; rfl, fun h => by cases h; rfl⟩

/-- The block fails with an allowed error, or its result satisfies `P`. -/
def Sat (allowed : ε → Prop) (P : α → Prop) : Except ε α → Prop
  | .ok a => P a
  | .error e => allowed e

namespace Sat

variable {allowed : ε → Prop} {P : α → Prop} {Q : β → Prop} {x : Except ε α}

/-- Two steps satisfy what the second does, on what the first does. -/
theorem bind {f : α → Except ε β} (hx : Sat allowed P x) (hf : ∀ a, P a → Sat allowed Q (f a)) :
    Sat allowed Q (x >>= f) := by
  cases x with
  | error e => exact hx
  | ok a => exact hf a hx

/-- `Sat.bind` when the later steps need to know what the first one returned. -/
theorem bind_result {f : α → Except ε β} (hx : Sat allowed P x)
    (hf : ∀ a, x = .ok a → Sat allowed Q (f a)) : Sat allowed Q (x >>= f) := by
  cases x with
  | error e => exact hx
  | ok a => exact hf a rfl

/-- A mapped result satisfies what it satisfies before the map. -/
theorem map {f : α → β} (hx : Sat allowed (fun a => Q (f a)) x) : Sat allowed Q (x.map f) := by
  cases x with
  | error e => exact hx
  | ok a => exact hx

/-- Renaming the errors to allowed ones. -/
theorem mapError {ε' : Type} {allowed' : ε' → Prop} {f : ε → ε'} (h : ∀ e, allowed' (f e))
    (x : Except ε α) : Sat allowed' (fun _ => True) (x.mapError f) := by
  cases x with
  | error e => exact h e
  | ok a => exact trivial

/-- `Sat.mapError` when the errors of the block matter. -/
theorem mapError_of {ε' : Type} {allowed' : ε' → Prop} {f : ε → ε'} (hx : Sat allowed P x)
    (h : ∀ e, allowed e → allowed' (f e)) : Sat allowed' P (x.mapError f) := by
  cases x with
  | error e => exact h e hx
  | ok a => exact hx

/-- The property may be weakened. -/
theorem mono {P' : α → Prop} (hx : Sat allowed P x) (h : ∀ a, P a → P' a) : Sat allowed P' x := by
  cases x with
  | error e => exact hx
  | ok a => exact h a hx

/-- More errors may be allowed. -/
theorem mono_error {allowed' : ε → Prop} (hx : Sat allowed P x) (h : ∀ e, allowed e → allowed' e) :
    Sat allowed' P x := by
  cases x with
  | error e => exact h e hx
  | ok a => exact hx

/-- To prove a specification from what the block can return. -/
theorem of_cases (herror : ∀ e, x = .error e → allowed e) (hok : ∀ a, x = .ok a → P a) :
    Sat allowed P x := by
  cases x with
  | error e => exact herror e rfl
  | ok a => exact hok a rfl

/-- `Sat.mono` when the result is needed to conclude. -/
theorem mono_result {P' : α → Prop} (hx : Sat allowed P x) (h : ∀ a, x = .ok a → P a → P' a) :
    Sat allowed P' x := by
  cases x with
  | error e => exact hx
  | ok a => exact h a rfl hx

/-- What the block returns satisfies `P`. -/
theorem result {a : α} (hx : Sat allowed P x) (h : x = .ok a) : P a := by
  rw [h] at hx
  exact hx

/-- A result satisfies its property, or it is an allowed error. -/
theorem cases (hx : Sat allowed P x) : (∃ e, x = .error e ∧ allowed e) ∨ ∃ a, x = .ok a ∧ P a := by
  cases x with
  | error e => exact .inl ⟨e, rfl, hx⟩
  | ok a => exact .inr ⟨a, rfl, hx⟩

end Sat

end Netstar.Lib
