/-! Calls of a function that returns a value and a new state, or fails.

`Steps step s as s'`: calling `step` again and again leads from `s` to `s'` and
returns the values `as`. Where every call makes a measure smaller, calling ends
(`exists_final`). -/
namespace CompilingToAssembly.Library

variable {σ α ε : Type} {step : σ → Except ε (α × σ)}

inductive Steps (step : σ → Except ε (α × σ)) : σ → List α → σ → Prop where
  | nil {s} : Steps step s [] s
  | cons {s s' s'' a as} : step s = .ok (a, s') → Steps step s' as s'' → Steps step s (a :: as) s''

namespace Steps
variable {s s' s'' : σ} {as bs : List α}

theorem one {a : α} (h : step s = .ok (a, s')) : Steps step s [a] s' := .cons h .nil

theorem append (h : Steps step s as s') (h' : Steps step s' bs s'') : Steps step s (as ++ bs) s'' := by
  induction h with
  | nil => exact h'
  | cons ha _ ih => exact .cons ha (ih h')

/-- What every call keeps holds at the end. -/
theorem invariant {P : σ → Prop} (hstep : ∀ s a s', step s = .ok (a, s') → P s → P s')
    (h : Steps step s as s') (hs : P s) : P s' := by
  induction h with
  | nil => exact hs
  | cons ha _ ih => exact ih (hstep _ _ _ ha hs)

/-- Calling to the end can go one way only. -/
theorem unique {e e' : ε} {t t' : σ} (h : Steps step s as t) (ht : step t = .error e)
    (h' : Steps step s bs t') (ht' : step t' = .error e') : as = bs ∧ t = t' := by
  induction h generalizing bs with
  | nil =>
    cases h' with
    | nil => exact ⟨rfl, rfl⟩
    | cons hb _ => rw [ht] at hb; cases hb
  | cons ha _ ih =>
    cases h' with
    | nil => rw [ht'] at ha; cases ha
    | cons hb h' =>
      rw [ha] at hb
      cases hb
      obtain ⟨rfl, rfl⟩ := ih ht h'
      exact ⟨rfl, rfl⟩

/-- Of two runs from one state the shorter is the beginning of the longer. -/
theorem initial {t t' : σ} (h : Steps step s as t) (h' : Steps step s bs t') (hlen : as.length ≤ bs.length) :
    ∃ cs, bs = as ++ cs ∧ Steps step t cs t' := by
  induction h generalizing bs with
  | nil => exact ⟨bs, rfl, h'⟩
  | cons ha _ ih =>
    cases h' with
    | nil => exact absurd hlen (Nat.not_succ_le_zero _)
    | cons hb h' =>
      rw [ha] at hb
      cases hb
      obtain ⟨cs, rfl, hcs⟩ := ih h' (Nat.le_of_succ_le_succ hlen)
      exact ⟨cs, rfl, hcs⟩

end Steps

/-- Where every call that returns makes `measure` smaller, calling ends after at most
as many values as the measure was. -/
theorem exists_final (measure : σ → Nat) {s : σ}
    (hless : ∀ as s' a s'', Steps step s as s' → step s' = .ok (a, s'') → measure s'' < measure s') :
    ∃ as s' e, Steps step s as s' ∧ step s' = .error e ∧ as.length ≤ measure s := by
  induction hm : measure s using Nat.strongRecOn generalizing s with
  | ind m ih =>
    cases hs : step s with
    | error e => exact ⟨[], s, e, .nil, hs, Nat.zero_le _⟩
    | ok r =>
      obtain ⟨a, s'⟩ := r
      have hlt := hless [] s a s' .nil hs
      obtain ⟨as, t, e, has, ht, hlen⟩ := ih (measure s') (hm ▸ hlt)
        (fun bs u b u' hu => hless (a :: bs) u b u' (.cons hs hu)) rfl
      refine ⟨a :: as, t, e, .cons hs has, ht, ?_⟩
      rw [List.length_cons]
      omega

end CompilingToAssembly.Library
