import Mathlib.Logic.Function.Basic
import Mathlib.Data.List.Count
import Mathlib.Order.Basic

/-! Who has which of a store's cells.

The cells from `lo` up to `hi` are handed out; those below are in use for good. `held x` is the
cell in place `x`, or 0 if the place is empty. In a ledger no cell is in two places, and a cell
is in use exactly if it is in a place. -/
namespace CompilingToAssembly.Library

structure Ledger {σ : Type} (lo hi : Nat) (used : Nat → Bool) (held : σ → Nat) : Prop where
  below : ∀ b < lo, used b = true
  range : ∀ x, held x ≠ 0 → lo ≤ held x ∧ held x < hi ∧ used (held x) = true
  inj : ∀ x y, held x ≠ 0 → held x = held y → x = y
  all : ∀ b, lo ≤ b → b < hi → used b = true → ∃ x, held x = b

variable {σ : Type} {lo hi b : Nat} {used used' : Nat → Bool} {held held' : σ → Nat} {x : σ}

theorem Ledger.congr (h : Ledger lo hi used held) (hlo : lo ≤ hi) (hused : ∀ c < hi, used' c = used c)
    (hheld : ∀ y, held' y = held y) : Ledger lo hi used' held' := by
  obtain rfl : held' = held := funext hheld
  refine ⟨fun c hc => ?_, fun y hy => ?_, h.inj, fun c hlo hc hu => ?_⟩
  · rw [hused c (by omega)]
    exact h.below c hc
  · obtain ⟨hlo, hhi, hu⟩ := h.range y hy
    exact ⟨hlo, hhi, by rw [hused _ hhi]; exact hu⟩
  · exact h.all c hlo hc (by rw [← hused c hc]; exact hu)

/-- A free cell is above `lo` and in no place. -/
theorem Ledger.free (h : Ledger lo hi used held) (hb : used b = false) : lo ≤ b ∧ ∀ y, held y ≠ 0 → held y ≠ b := by
  refine ⟨?_, fun y hy heq => ?_⟩
  · by_contra hlt
    rw [h.below b (by omega)] at hb
    cases hb
  · have hu := (h.range y hy).2.2
    rw [heq, hb] at hu
    cases hu

/-- A free cell goes to an empty place. -/
theorem Ledger.claim [DecidableEq σ] (h : Ledger lo hi used held) (hlo : 0 < lo) (hb : used b = false)
    (hhi : b < hi) (hx : held x = 0) (hused : ∀ c < hi, used' c = (decide (b = c) || used c))
    (hheld : ∀ y, held' y = if y = x then b else held y) : Ledger lo hi used' held' := by
  obtain ⟨hblo, hfree⟩ := h.free hb
  have hother : ∀ y, y ≠ x → held' y = held y := fun y hy => (hheld y).trans (if_neg hy)
  have hself : held' x = b := (hheld x).trans (if_pos rfl)
  refine ⟨fun c hc => ?_, fun y hy => ?_, fun y z hy hyz => ?_, fun c hclo hc hu => ?_⟩
  · rw [hused c (by omega), h.below c hc, Bool.or_true]
  · by_cases hyx : y = x
    · rw [hyx, hself]
      exact ⟨hblo, hhi, by simp [hused b hhi]⟩
    · rw [hother y hyx] at hy ⊢
      obtain ⟨hlo, hlt, hu⟩ := h.range y hy
      exact ⟨hlo, hlt, by simp [hused _ hlt, hu]⟩
  · by_cases hyx : y = x
    · by_cases hzx : z = x
      · rw [hyx, hzx]
      · rw [hyx, hself, hother z hzx] at hyz
        exact absurd hyz.symm (hfree z (by omega))
    · rw [hother y hyx] at hy hyz
      by_cases hzx : z = x
      · rw [hzx, hself] at hyz
        exact absurd hyz (hfree y hy)
      · rw [hother z hzx] at hyz
        exact h.inj y z hy hyz
  · by_cases hbc : b = c
    · exact ⟨x, hself.trans hbc⟩
    · rw [hused c hc, decide_eq_false hbc, Bool.false_or] at hu
      obtain ⟨y, hy⟩ := h.all c hclo hc hu
      refine ⟨y, (hother y ?_).trans hy⟩
      rintro rfl
      omega

/-- The cell in a place becomes free. -/
theorem Ledger.release [DecidableEq σ] (h : Ledger lo hi used held) (hle : lo ≤ hi) (hb : held x = b)
    (hx : held x ≠ 0) (hused : ∀ c < hi, used' c = (!decide (b = c) && used c))
    (hheld : ∀ y, held' y = if y = x then 0 else held y) : Ledger lo hi used' held' := by
  obtain ⟨hblo, hbhi, _⟩ := h.range x hx
  rw [hb] at hblo hbhi
  have hother : ∀ y, y ≠ x → held' y = held y := fun y hy => (hheld y).trans (if_neg hy)
  have hself : held' x = 0 := (hheld x).trans (if_pos rfl)
  have hne : ∀ y, held' y ≠ 0 → y ≠ x := fun y hy heq => hy (heq ▸ hself)
  refine ⟨fun c hc => ?_, fun y hy => ?_, fun y z hy hyz => ?_, fun c hclo hc hu => ?_⟩
  · have hbc : b ≠ c := by omega
    rw [hused c (by omega), decide_eq_false hbc, h.below c hc]
    rfl
  · have hyx := hne y hy
    rw [hother y hyx] at hy ⊢
    obtain ⟨hlo, hlt, hu⟩ := h.range y hy
    have hby : b ≠ held y := fun heq => hyx (h.inj y x hy (heq.symm.trans hb.symm))
    refine ⟨hlo, hlt, ?_⟩
    rw [hused _ hlt, decide_eq_false hby, hu]
    rfl
  · have hyx := hne y hy
    have hzx := hne z (hyz ▸ hy)
    rw [hother y hyx] at hy hyz
    rw [hother z hzx] at hyz
    exact h.inj y z hy hyz
  · rw [hused c hc, Bool.and_eq_true, Bool.not_eq_true', decide_eq_false_iff_not] at hu
    obtain ⟨y, hy⟩ := h.all c hclo hc hu.2
    refine ⟨y, (hother y ?_).trans hy⟩
    rintro rfl
    exact hu.1 (hb.symm.trans hy)

/-! ### How many cells are free -/

def vacant (hi : Nat) (used : Nat → Bool) : Nat := (List.range hi).countP fun b => !used b

theorem vacant_succ (hi : Nat) (used : Nat → Bool) : vacant (hi + 1) used = vacant hi used + if used hi then 0 else 1 := by
  rw [vacant, vacant, List.range_succ, List.countP_append, List.countP_singleton]
  cases used hi <;> rfl

theorem vacant_congr (h : ∀ b < hi, used' b = used b) : vacant hi used' = vacant hi used := by
  refine List.countP_congr fun b hb => ?_
  rw [h b (List.mem_range.mp hb)]

theorem vacant_claim (hb : used b = false) (hhi : b < hi) : vacant hi (Function.update used b true) + 1 = vacant hi used := by
  induction hi with
  | zero => omega
  | succ hi ih =>
    rw [vacant_succ, vacant_succ]
    by_cases heq : b = hi
    · have hbelow : vacant hi (Function.update used b true) = vacant hi used :=
        vacant_congr fun c hc => Function.update_of_ne (by omega) ..
      rw [hbelow, ← heq, Function.update_self, hb]
      rfl
    · have := ih (by omega)
      rw [Function.update_of_ne (Ne.symm heq)]
      omega

theorem vacant_eq_zero (h : ∀ b < hi, used b = true) : vacant hi used = 0 := by
  rw [vacant, List.countP_eq_zero]
  intro b hb
  simp [h b (List.mem_range.mp hb)]

end CompilingToAssembly.Library
