/-! Computations that return a value or fail.

`Ends P E x`: `x` returns a value with `P`, or fails with an error with `E`. A sequence of
computations is proved part by part: what the first one leaves is what the next may rely on
(`Ends.bind`). -/
namespace CompilingToAssembly.Library

variable {ε α β : Type}

inductive Ends (P : α → Prop) (E : ε → Prop) : Except ε α → Prop where
  | ok {a} (h : P a) : Ends P E (.ok a)
  | error {e} (h : E e) : Ends P E (.error e)

namespace Ends
variable {P P' : α → Prop} {Q : β → Prop} {E F : ε → Prop} {x : Except ε α}

theorem mono (h : Ends P E x) (hP : ∀ a, P a → P' a) (hE : ∀ e, E e → F e) : Ends P' F x := by
  cases h with
  | ok h => exact .ok (hP _ h)
  | error h => exact .error (hE _ h)

theorem bind {f : α → Except ε β} (h : Ends P E x) (hE : ∀ e, E e → F e) (hf : ∀ a, P a → Ends Q F (f a)) :
    Ends Q F (x.bind f) := by
  cases h with
  | ok h => exact hf _ h
  | error h => exact .error (hE _ h)

theorem map {f : α → β} (h : Ends P E x) (hE : ∀ e, E e → F e) (hf : ∀ a, P a → Q (f a)) : Ends Q F (x.map f) := by
  cases h with
  | ok h => exact .ok (hf _ h)
  | error h => exact .error (hE _ h)

theorem of_ok {a : α} (h : Ends P E x) (hx : x = .ok a) : P a := by
  cases h with
  | ok h => exact Except.ok.inj hx ▸ h
  | error h => cases hx

theorem of_error {e : ε} (h : Ends P E x) (hx : x = .error e) : E e := by
  cases h with
  | ok h => cases hx
  | error h => exact Except.error.inj hx ▸ h

theorem exists_or (h : Ends P E x) : (∃ a, x = .ok a ∧ P a) ∨ ∃ e, x = .error e ∧ E e := by
  cases h with
  | ok h => exact .inl ⟨_, rfl, h⟩
  | error h => exact .inr ⟨_, rfl, h⟩

end Ends

theorem bind_ok {x : Except ε α} {f : α → Except ε β} {y : β} (h : x.bind f = .ok y) : ∃ a, x = .ok a ∧ f a = .ok y := by
  cases x with
  | error m => cases h
  | ok a => exact ⟨a, rfl, h⟩

theorem map_ok {x : Except ε α} {f : α → β} {y : β} (h : x.map f = .ok y) : ∃ a, x = .ok a ∧ f a = y := by
  cases x with
  | error m => cases h
  | ok a => exact ⟨a, rfl, Except.ok.inj h⟩

end CompilingToAssembly.Library
