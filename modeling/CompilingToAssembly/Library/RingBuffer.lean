import Mathlib.Data.List.Basic
import Mathlib.Data.Nat.ModEq
import Mathlib.Logic.Function.Basic

/-! Ring buffers with counters that wrap.

The number of items ever read and the number ever written are words; an item's place is
its number modulo the capacity. Nothing goes wrong when a counter wraps, as long as the
capacity divides the number of words. -/
namespace CompilingToAssembly.Library

structure RingBuffer (α : Type) where
  data : Nat → α
  nread : UInt32
  nwrite : UInt32

namespace RingBuffer
variable {α : Type} (cap : Nat) (s : RingBuffer α)

def length : Nat := (s.nwrite - s.nread).toNat

/-- The items between the counters, the oldest first. -/
def contents : List α := (List.range s.length).map fun i => s.data ((s.nread.toNat + i) % cap)

def push (a : α) : RingBuffer α :=
  { s with data := Function.update s.data (s.nwrite.toNat % cap) a, nwrite := s.nwrite + 1 }

def front : α := s.data (s.nread.toNat % cap)

def pop : RingBuffer α := { s with nread := s.nread + 1 }

/-- Push item after item until the buffer is full: what is left over stays. -/
def fill (s : RingBuffer α) : List α → RingBuffer α × List α
  | [] => (s, [])
  | a :: as => if s.nwrite = s.nread + UInt32.ofNat cap then (s, a :: as) else fill (s.push cap a) as

/-- Pop item after item, at most `n`, until the buffer is empty. -/
def drain (s : RingBuffer α) : Nat → RingBuffer α × List α
  | 0 => (s, [])
  | n + 1 =>
    if s.nread = s.nwrite then (s, [])
    else ((drain s.pop n).1, s.front cap :: (drain s.pop n).2)

@[simp] theorem length_contents : (s.contents cap).length = s.length := by simp [contents]

theorem length_eq_zero_iff : s.length = 0 ↔ s.nread = s.nwrite := by
  rw [length, ← UInt32.toNat_inj, UInt32.toNat_sub]
  have hr := s.nread.toNat_lt
  have hw := s.nwrite.toNat_lt
  omega

theorem contents_eq_nil_iff : s.contents cap = [] ↔ s.nread = s.nwrite := by
  rw [← length_eq_zero_iff, ← List.length_eq_zero_iff, length_contents]

section Capacity
variable {cap} {s} (hcap : cap ∣ 2 ^ 32) (hlt : cap < 2 ^ 32)
include hlt

theorem full_iff (h : s.length ≤ cap) : s.nwrite = s.nread + UInt32.ofNat cap ↔ s.length = cap := by
  rw [length, UInt32.toNat_sub] at *
  rw [← UInt32.toNat_inj, UInt32.toNat_add, UInt32.toNat_ofNat']
  have hr := s.nread.toNat_lt
  have hw := s.nwrite.toNat_lt
  omega

theorem length_push (a : α) (h : s.length < cap) : (s.push cap a).length = s.length + 1 := by
  simp only [length, push, UInt32.toNat_sub, UInt32.toNat_add, UInt32.toNat_one] at *
  have hr := s.nread.toNat_lt
  have hw := s.nwrite.toNat_lt
  omega

omit hlt in
theorem length_pop (h : 0 < s.length) : s.pop.length + 1 = s.length := by
  simp only [length, pop, UInt32.toNat_sub, UInt32.toNat_add, UInt32.toNat_one] at *
  have hr := s.nread.toNat_lt
  have hw := s.nwrite.toNat_lt
  omega

include hcap

omit hlt in
theorem mod_cap (m : Nat) : m % 2 ^ 32 % cap = m % cap := Nat.mod_mod_of_dvd m hcap

omit hlt in
theorem nwrite_mod : s.nwrite.toNat % cap = (s.nread.toNat + s.length) % cap := by
  have hw : s.nwrite.toNat = (s.nread.toNat + s.length) % 2 ^ 32 := by
    rw [length, UInt32.toNat_sub]
    have hr := s.nread.toNat_lt
    have hw := s.nwrite.toNat_lt
    omega
  rw [hw, mod_cap hcap]

theorem contents_push (a : α) (h : s.length < cap) : (s.push cap a).contents cap = s.contents cap ++ [a] := by
  have hsame : ∀ i < s.length, (s.nread.toNat + i) % cap ≠ s.nwrite.toNat % cap := by
    intro i hi heq
    rw [nwrite_mod hcap] at heq
    have hdvd : cap ∣ s.length - i := by
      have hmod := (Nat.modEq_iff_dvd' (Nat.add_le_add_left (Nat.le_of_lt hi) s.nread.toNat)).mp heq
      rwa [Nat.add_sub_add_left] at hmod
    have hle := Nat.le_of_dvd (by omega) hdvd
    omega
  rw [contents, length_push hlt a h, List.range_succ, List.map_append, List.map_singleton]
  congr 1
  · apply List.map_congr_left
    intro i hi
    exact Function.update_of_ne (hsame i (List.mem_range.mp hi)) _ _
  · simp only [push, ← nwrite_mod hcap, Function.update_self]

omit hlt in
theorem contents_pop (h : 0 < s.length) : s.contents cap = s.front cap :: s.pop.contents cap := by
  have hnext (i : Nat) : ((s.nread + 1).toNat + i) % cap = (s.nread.toNat + (i + 1)) % cap := by
    rw [UInt32.toNat_add, UInt32.toNat_one, Nat.add_mod, mod_cap hcap, ← Nat.add_mod, Nat.add_right_comm,
      Nat.add_assoc]
  rw [contents, ← length_pop h, List.range_succ_eq_map, List.map_cons, List.map_map]
  simp only [contents, pop, front, hnext, Nat.add_zero]
  rfl

/-- What fits is appended, in order; something is left over only where the buffer is full. -/
theorem fill_spec (as : List α) (h : s.length ≤ cap) : ∃ fits, as = fits ++ (s.fill cap as).2 ∧
    (s.fill cap as).1.contents cap = s.contents cap ++ fits ∧ (s.fill cap as).1.length ≤ cap ∧
    ((s.fill cap as).2 ≠ [] → (s.fill cap as).1.length = cap) := by
  induction as generalizing s with
  | nil => exact ⟨[], rfl, (List.append_nil _).symm, h, fun hne => absurd rfl hne⟩
  | cons a as ih =>
    by_cases hfull : s.nwrite = s.nread + UInt32.ofNat cap
    · simp only [fill, if_pos hfull]
      exact ⟨[], rfl, (List.append_nil _).symm, h, fun _ => (full_iff hlt h).mp hfull⟩
    · have hroom : s.length < cap := lt_of_le_of_ne h fun heq => hfull ((full_iff hlt h).mpr heq)
      obtain ⟨fits, hsplit, hcontents, hle, hrest⟩ := ih (s := s.push cap a) (by rw [length_push hlt a hroom]; omega)
      simp only [fill, if_neg hfull]
      refine ⟨a :: fits, by rw [List.cons_append, ← hsplit], ?_, hle, hrest⟩
      rw [hcontents, contents_push hcap hlt a hroom, List.append_assoc, List.singleton_append]

omit hlt in
/-- What is taken stood at the front; fewer than `n` are taken only where nothing is left. -/
theorem drain_spec (n : Nat) : s.contents cap = (s.drain cap n).2 ++ (s.drain cap n).1.contents cap ∧
    (s.drain cap n).2.length ≤ n ∧
    ((s.drain cap n).2.length < n → (s.drain cap n).1.contents cap = []) := by
  induction n generalizing s with
  | zero => exact ⟨rfl, le_rfl, fun h => absurd h (Nat.not_lt_zero _)⟩
  | succ n ih =>
    by_cases hempty : s.nread = s.nwrite
    · simp only [drain, if_pos hempty]
      exact ⟨rfl, Nat.zero_le _, fun _ => (contents_eq_nil_iff cap s).mpr hempty⟩
    · have hpos : 0 < s.length := Nat.pos_of_ne_zero fun h0 => hempty ((length_eq_zero_iff s).mp h0)
      obtain ⟨hcontents, hle, hrest⟩ := ih (s := s.pop)
      simp only [drain, if_neg hempty, List.length_cons, List.cons_append]
      refine ⟨by rw [contents_pop hcap hpos, ← hcontents], by omega, fun h => hrest (by omega)⟩

end Capacity
end RingBuffer
end CompilingToAssembly.Library
