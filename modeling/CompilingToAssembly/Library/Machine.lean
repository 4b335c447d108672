import Mathlib.Algebra.BigOperators.Group.Finset.Basic
import Mathlib.Data.Fintype.BigOperators

/-! Machines that take one labelled step at a time.

A step does not happen yet (`waits`), stops the machine for good (`panics`) or leads to a
next state. `Runs step allowed s es s'`: the events `es`, each allowed by the rules its
author keeps, lead from `s` to `s'`. -/
namespace CompilingToAssembly.Library

inductive Turn (σ : Type) where
  | waits
  | panics (message : String)
  | next (state : σ)

namespace Turn
variable {σ τ : Type}

def isNext : Turn σ → Bool
  | .next _ => true
  | _ => false

/-- What can fail, as a step. -/
def ofExcept : Except String σ → Turn σ
  | .error m => .panics m
  | .ok s => .next s

@[simp] theorem ofExcept_ok (s : σ) : ofExcept (.ok s) = .next s := rfl
theorem ofExcept_next {x : Except String σ} {s : σ} (h : ofExcept x = .next s) : x = .ok s := by
  cases x with
  | error m => cases h
  | ok a => exact congrArg Except.ok (Turn.next.inj h)

/-- One step after another, of which the second may depend on what the first has led to. -/
def bind : Turn σ → (σ → Turn τ) → Turn τ
  | .waits, _ => .waits
  | .panics m, _ => .panics m
  | .next s, f => f s

@[simp] theorem bind_next (s : σ) (f : σ → Turn τ) : (Turn.next s).bind f = f s := rfl
@[simp] theorem bind_panics (m : String) (f : σ → Turn τ) : (Turn.panics m : Turn σ).bind f = .panics m := rfl

end Turn

variable {σ ε : Type} {step : σ → ε → Turn σ} {allowed : σ → ε → Prop}

inductive Runs (step : σ → ε → Turn σ) (allowed : σ → ε → Prop) : σ → List ε → σ → Prop where
  | nil {s} : Runs step allowed s [] s
  | cons {s s' s'' e es} : allowed s e → step s e = .next s' → Runs step allowed s' es s'' →
      Runs step allowed s (e :: es) s''

namespace Runs
variable {s s' s'' : σ} {es es' : List ε}

theorem one {e : ε} (ha : allowed s e) (h : step s e = .next s') : Runs step allowed s [e] s' :=
  .cons ha h .nil

theorem append (h : Runs step allowed s es s') (h' : Runs step allowed s' es' s'') :
    Runs step allowed s (es ++ es') s'' := by
  induction h with
  | nil => exact h'
  | cons ha hs _ ih => exact .cons ha hs (ih h')

/-- What every step of a run keeps holds at its end. -/
theorem invariant {P : σ → Prop}
    (hstep : ∀ s e s', e ∈ es → P s → allowed s e → step s e = .next s' → P s')
    (h : Runs step allowed s es s') (hs : P s) : P s' := by
  induction h with
  | nil => exact hs
  | cons ha hn _ ih =>
    apply ih fun s e s' he => hstep s e s' (List.mem_cons_of_mem _ he)
    exact hstep _ _ _ List.mem_cons_self hs ha hn

/-- The same events under other rules. -/
theorem mono {allowed' : σ → ε → Prop} (hle : ∀ s e, e ∈ es → allowed s e → allowed' s e)
    (h : Runs step allowed s es s') : Runs step allowed' s es s' := by
  induction h with
  | nil => exact .nil
  | cons ha hn _ ih =>
    exact .cons (hle _ _ List.mem_cons_self ha) hn (ih fun s e he => hle s e (List.mem_cons_of_mem _ he))

/-- From one state the same events lead to one state. -/
theorem unique (h : Runs step allowed s es s') (h' : Runs step allowed s es s'') : s' = s'' := by
  induction h with
  | nil => cases h'; rfl
  | cons _ hn _ ih =>
    cases h' with
    | cons _ hn' h' =>
      rw [hn] at hn'
      cases hn'
      exact ih h'

/-- What holds at the beginning of a run holds all the way, or there is a step that ends it. -/
theorem first_exit {P : σ → Prop} (h : Runs step allowed s es s') (hs : P s) :
    (Runs step (fun s _ => P s) s es s' ∧ P s') ∨
      ∃ es₁ e es₂ s₁ s₂, es = es₁ ++ e :: es₂ ∧ Runs step allowed s es₁ s₁ ∧
        Runs step (fun s _ => P s) s es₁ s₁ ∧ P s₁ ∧ allowed s₁ e ∧ step s₁ e = .next s₂ ∧ ¬ P s₂ := by
  induction h with
  | nil => exact .inl ⟨.nil, hs⟩
  | @cons s s₁ s' e es ha hn _ ih =>
    by_cases hs₁ : P s₁
    · rcases ih hs₁ with ⟨hrun, hend⟩ | ⟨es₁, e', es₂, s₂, s₃, heq, hrun, hkeeps, hold⟩
      · exact .inl ⟨.cons hs hn hrun, hend⟩
      · exact .inr ⟨e :: es₁, e', es₂, s₂, s₃, by rw [heq]; rfl, .cons ha hn hrun, .cons hs hn hkeeps, hold⟩
    · exact .inr ⟨[], e, es, s, s₁, rfl, .nil, .nil, hs, ha, hn, hs₁⟩

/-- How often something can happen while `P` holds, where each time uses some of `φ` up. -/
theorem countP_le {P : σ → Prop} {φ : σ → Nat} {counts : ε → Bool}
    (hstep : ∀ s e s', P s → P s' → step s e = .next s' → φ s' + (if counts e then 1 else 0) ≤ φ s)
    (h : Runs step (fun s _ => P s) s es s') (hend : P s') : es.countP counts ≤ φ s := by
  suffices P s ∧ es.countP counts ≤ φ s from this.2
  induction h with
  | nil => exact ⟨hend, by simp⟩
  | cons hs hn _ ih =>
    obtain ⟨hnext, hle⟩ := ih hend
    refine ⟨hs, ?_⟩
    have := hstep _ _ _ hs hnext hn
    rw [List.countP_cons]
    omega

/-- A run can be computed. -/
def go (step : σ → ε → Turn σ) (allowed : σ → ε → Prop) [∀ s e, Decidable (allowed s e)] :
    σ → List ε → Option σ
  | s, [] => some s
  | s, e :: es =>
    match step s e with
    | .next s' => if allowed s e then go step allowed s' es else none
    | _ => none

theorem of_go [∀ s e, Decidable (allowed s e)] (h : (go step allowed s es).isSome) :
    Runs step allowed s es ((go step allowed s es).getD s) := by
  suffices ∀ s', go step allowed s es = some s' → Runs step allowed s es s' by
    obtain ⟨s', hs'⟩ := Option.isSome_iff_exists.mp h
    rw [hs']
    exact this s' hs'
  intro s' h
  induction es generalizing s with
  | nil => cases h; exact .nil
  | cons e es ih =>
    rw [go] at h
    split at h
    · next hn =>
      split at h
      · next ha => exact .cons ha hn (ih (by rw [h]; rfl) h)
      · cases h
    · cases h

end Runs

/-! ### One process of many -/

/-- A sum over all processes, when one of them changes. -/
theorem sum_update {P : Type} [Fintype P] [DecidableEq P] {β : Type} (f : β → Nat) (g : P → β) (p : P) (v : β) :
    (∑ q, f (Function.update g p v q)) + f (g p) = (∑ q, f (g q)) + f v := by
  have hp := Finset.mem_univ p
  rw [← Finset.sum_erase_add _ _ hp, ← Finset.sum_erase_add (a := p) _ _ hp, Function.update_self]
  have hrest : (∑ q ∈ Finset.univ.erase p, f (Function.update g p v q)) = ∑ q ∈ Finset.univ.erase p, f (g q) := by
    apply Finset.sum_congr rfl
    intro q hq
    rw [Function.update_of_ne (Finset.ne_of_mem_erase hq)]
  omega

end CompilingToAssembly.Library
