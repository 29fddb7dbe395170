set_option autoImplicit false

/-!
# Outcomes

Evaluation of terms that no checker has seen may meet a shape that no typing rule produces or a
name that nothing binds, a long search for a fresh name may find none, and evaluation need not
end. All of these are values here: an `Outcome` is a result or the reason why there is none.

The checker adds another way to stop early, a rejection of its input. `Interrupt` keeps
rejections apart from the stops, so that "the program is ill-typed" and "the checker broke" are
never confused.
-/

namespace PieChecker

/-- Why a computation on terms gave no result. -/
inductive Stop where
  /-- A value or a position had a shape that its user cannot handle. -/
  | broken
  /-- A name was evaluated that has no value. -/
  | unbound
  /-- No subscript was left to make a name fresh. -/
  | overflow
  /-- The fuel ran out before the computation ended. -/
  | exhausted
  deriving DecidableEq, Repr

/-- The result of a computation on terms that can break or run out of fuel. -/
abbrev Outcome := Except Stop

namespace Outcome

/-- The result of meeting a shape that cannot be handled. -/
def broken {α : Type} : Outcome α := .error .broken

/-- The result of evaluating a name without a value. -/
def unbound {α : Type} : Outcome α := .error .unbound

/-- The result of finding no fresh name. -/
def overflow {α : Type} : Outcome α := .error .overflow

/-- The result of running out of fuel. -/
def exhausted {α : Type} : Outcome α := .error .exhausted

end Outcome

/-- Why checking gave no result: the input was rejected for the reason `ε`, or the computation
stopped. -/
inductive Interrupt (ε : Type) where
  | rejected (reason : ε)
  | stopped (stop : Stop)
  deriving DecidableEq, Repr

namespace Interrupt

/-- Changes the reason of a rejection; a stop stays as it is. -/
def map {ε δ : Type} (f : ε → δ) : Interrupt ε → Interrupt δ
  | rejected reason => rejected (f reason)
  | stopped stop => stopped stop

end Interrupt

/-- A computation that rejects nothing, used where rejections are possible. -/
def Outcome.unrejected {ε α : Type} : Outcome α → Except (Interrupt ε) α
  | .ok a => .ok a
  | .error stop => .error (.stopped stop)

instance {ε : Type} : MonadLift (Except Stop) (Except (Interrupt ε)) := ⟨Outcome.unrejected⟩

/-- An outcome gives the same result where rejections are possible. -/
theorem Outcome.unrejected_eq_ok_iff {ε α : Type} {r : Outcome α} {a : α} :
    (r.unrejected : Except (Interrupt ε) α) = .ok a ↔ r = .ok a := by
  cases r with
  | error s => exact ⟨nofun, nofun⟩
  | ok b => exact ⟨fun h => by cases h; rfl, fun h => by cases h; rfl⟩

/-! ## Computations in two steps -/

/-- A computation in two steps gives a result if both steps do. -/
theorem bind_eq_ok_iff {ε α β : Type} {r : Except ε α} {f : α → Except ε β} {b : β} :
    r >>= f = .ok b ↔ ∃ a, r = .ok a ∧ f a = .ok b := by
  cases r with
  | error e => exact ⟨nofun, fun ⟨_, h, _⟩ => nomatch h⟩
  | ok a => exact ⟨fun h => ⟨a, rfl, h⟩, fun ⟨_, ha, h⟩ => by cases ha; exact h⟩

theorem bind_of_ok {ε α β : Type} {r : Except ε α} {a : α} (h : r = .ok a)
    (f : α → Except ε β) : r >>= f = f a := by
  rw [h]
  rfl

/-- What follows a step may use that the step was made. -/
theorem bind_congr_of_ok {ε α β : Type} {r : Except ε α} {f g : α → Except ε β}
    (h : ∀ a, r = .ok a → f a = g a) :
    r >>= f = r >>= g := by
  cases r with
  | error e => rfl
  | ok a => exact h a rfl

end PieChecker
