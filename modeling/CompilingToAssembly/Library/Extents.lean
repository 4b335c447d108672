import Mathlib.Data.List.Count

/-! Stretches of memory: an extent is its first unit and how many units it has.

Two lists of extents that have the same `tally` cover the same units, each as often as the
other. Where no unit is counted twice, the extents do not overlap. -/
namespace CompilingToAssembly.Library

/-- How many of the extents the unit `u` is in. -/
def tally (bs : List (Nat × Nat)) (u : Nat) : Nat := bs.countP fun b => decide (b.1 ≤ u) && decide (u < b.1 + b.2)

def units : List (Nat × Nat) → Nat
  | [] => 0
  | b :: bs => b.2 + units bs

variable {bs cs : List (Nat × Nat)} {b c : Nat × Nat} {u : Nat}

theorem tally_nil (u : Nat) : tally [] u = 0 := rfl

theorem tally_append (bs cs : List (Nat × Nat)) (u : Nat) : tally (bs ++ cs) u = tally bs u + tally cs u :=
  List.countP_append

theorem tally_cons (b : Nat × Nat) (bs : List (Nat × Nat)) (u : Nat) : tally (b :: bs) u = tally [b] u + tally bs u :=
  tally_append [b] bs u

theorem tally_singleton (a n u : Nat) : tally [(a, n)] u = if a ≤ u ∧ u < a + n then 1 else 0 := by
  simp [tally, List.countP_cons]

theorem tally_join (a m n u : Nat) : tally [(a, m + n)] u = tally [(a, m)] u + tally [(a + m, n)] u := by
  simp only [tally_singleton]
  split_ifs <;> omega

theorem tally_perm (h : bs.Perm cs) (u : Nat) : tally bs u = tally cs u := h.countP_eq _

theorem tally_pos_of_mem (hb : b ∈ bs) (hu : b.1 ≤ u ∧ u < b.1 + b.2) : 0 < tally bs u :=
  List.countP_pos_iff.mpr ⟨b, hb, by simpa using hu⟩

theorem exists_mem_of_tally_pos (h : 0 < tally bs u) : ∃ b ∈ bs, b.1 ≤ u ∧ u < b.1 + b.2 := by
  obtain ⟨b, hb, hu⟩ := List.countP_pos_iff.mp h
  exact ⟨b, hb, by simpa using hu⟩

/-- Of two lists that together count no unit twice the extents are apart. -/
theorem apart_of_tally (h : ∀ u, tally bs u + tally cs u ≤ 1) (hb : b ∈ bs) (hc : c ∈ cs) (hbpos : 0 < b.2)
    (hcpos : 0 < c.2) : b.1 + b.2 ≤ c.1 ∨ c.1 + c.2 ≤ b.1 := by
  by_contra hnot
  have hmax := h (max b.1 c.1)
  have hbs := tally_pos_of_mem (u := max b.1 c.1) hb (by omega)
  have hcs := tally_pos_of_mem (u := max b.1 c.1) hc (by omega)
  omega

/-- In a list that counts no unit twice the extents are apart. -/
theorem pairwise_of_tally (h : ∀ u, tally bs u ≤ 1) (hpos : ∀ b ∈ bs, 0 < b.2) :
    bs.Pairwise fun b c => b.1 + b.2 ≤ c.1 ∨ c.1 + c.2 ≤ b.1 := by
  induction bs with
  | nil => exact .nil
  | cons b bs ih =>
    have hsplit : ∀ u, tally [b] u + tally bs u ≤ 1 := fun u => tally_cons b bs u ▸ h u
    refine .cons (fun c hc => ?_) (ih (fun u => ?_) fun c hc => hpos c (List.mem_cons_of_mem _ hc))
    · exact apart_of_tally hsplit List.mem_cons_self hc (hpos b List.mem_cons_self) (hpos c (List.mem_cons_of_mem _ hc))
    · have := hsplit u
      omega

/-- One extent is found by where it starts. -/
theorem perm_filter_of_tally (h : ∀ u, tally bs u ≤ 1) (hpos : ∀ b ∈ bs, 0 < b.2) (hb : b ∈ bs) :
    bs.Perm (b :: bs.filter fun c => c.1 ≠ b.1) := by
  obtain ⟨l, r, rfl⟩ := List.append_of_mem hb
  have hperm : (l ++ b :: r).Perm (b :: (l ++ r)) := List.perm_middle
  have hothers : ∀ c ∈ l ++ r, c.1 ≠ b.1 := by
    intro c hc heq
    have hapart := List.rel_of_pairwise_cons (pairwise_of_tally (fun u => tally_perm hperm u ▸ h u) fun c hc =>
      hpos c (hperm.mem_iff.mpr hc)) hc
    have := hpos b hb
    have := hpos c (hperm.mem_iff.mpr (List.mem_cons_of_mem _ hc))
    omega
  have hfilter : (l ++ b :: r).filter (fun c => c.1 ≠ b.1) = l ++ r := by
    rw [List.filter_append, List.filter_cons_of_neg (by simp), ← List.filter_append, List.filter_eq_self]
    intro c hc
    simpa using hothers c hc
  rw [hfilter]
  exact hperm

theorem units_append (bs cs : List (Nat × Nat)) : units (bs ++ cs) = units bs + units cs := by
  induction bs with
  | nil => simp [units]
  | cons b bs ih => simp [units, ih, Nat.add_assoc]

theorem units_cons (b : Nat × Nat) (bs : List (Nat × Nat)) : units (b :: bs) = b.2 + units bs := rfl

theorem units_perm (h : bs.Perm cs) : units bs = units cs := by
  induction h with
  | nil => rfl
  | cons b _ ih => rw [units_cons, units_cons, ih]
  | swap b c bs => simp only [units_cons, Nat.add_left_comm]
  | trans _ _ ih ih' => exact ih.trans ih'

theorem length_le_units (h : ∀ b ∈ bs, 0 < b.2) : bs.length ≤ units bs := by
  induction bs with
  | nil => exact Nat.le_refl _
  | cons b bs ih =>
    have := h b List.mem_cons_self
    have := ih fun c hc => h c (List.mem_cons_of_mem _ hc)
    rw [units_cons, List.length_cons]
    omega

end CompilingToAssembly.Library
