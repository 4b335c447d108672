import Mathlib.Data.List.Rotate
import Mathlib.Logic.Function.Basic

/-! Singly linked lists that close on themselves.

`Loops next ns`: from each of the nodes `ns` one step leads to the following one, and from
the last to the first. -/
namespace CompilingToAssembly.Library
variable {ν : Type} {next next' : ν → ν} {a b : ν} {xs ys : List ν}

def Loops (next : ν → ν) (ns : List ν) : Prop := ns.map next = ns.rotate 1

theorem loops_cons : Loops next (a :: xs) ↔ next a :: xs.map next = xs ++ [a] := by
  simp [Loops]

/-- A circle starts anywhere. -/
theorem Loops.rotate (h : Loops next (xs ++ ys)) : Loops next (ys ++ xs) := by
  have hrotate : ys ++ xs = (xs ++ ys).rotate xs.length := by simp
  rw [Loops, hrotate, List.map_rotate, h, List.rotate_rotate, List.rotate_rotate, Nat.add_comm]

theorem Loops.congr (h : Loops next xs) (hnext : ∀ x ∈ xs, next' x = next x) : Loops next' xs := by
  rw [Loops, ← h]
  exact List.map_congr_left hnext

theorem Loops.next_mem (h : Loops next xs) (ha : a ∈ xs) : next a ∈ xs := by
  have hmem : next a ∈ xs.map next := List.mem_map_of_mem ha
  rwa [h, List.mem_rotate] at hmem

theorem Loops.inj (h : Loops next xs) (hnodup : xs.Nodup) (ha : a ∈ xs) (hb : b ∈ xs) (heq : next a = next b) :
    a = b := by
  have hmap : (xs.map next).Nodup := by
    rw [h]
    exact List.nodup_rotate.mpr hnodup
  exact List.inj_on_of_nodup_map hmap ha hb heq

section Update
variable [DecidableEq ν]

theorem Loops.insert (h : Loops next (a :: xs)) (hb : b ∉ a :: xs) (ha : a ∉ xs) :
    Loops (Function.update (Function.update next b (next a)) a b) (a :: b :: xs) := by
  obtain ⟨hba, hbxs⟩ := List.ne_and_not_mem_of_not_mem_cons hb
  have hrest : xs.map (Function.update (Function.update next b (next a)) a b) = xs.map next := by
    refine List.map_congr_left fun x hx => ?_
    have hxa : x ≠ a := fun heq => ha (heq ▸ hx)
    have hxb : x ≠ b := fun heq => hbxs (heq ▸ hx)
    simp [hxa, hxb]
  rw [loops_cons] at h ⊢
  rw [List.map_cons, hrest, Function.update_self, Function.update_of_ne hba, Function.update_self, h]
  rfl

theorem Loops.remove (h : Loops next (a :: b :: xs)) (ha : a ∉ b :: xs) :
    Loops (Function.update next a (next b)) (a :: xs) := by
  have hrest : xs.map (Function.update next a (next b)) = xs.map next := by
    refine List.map_congr_left fun x hx => Function.update_of_ne ?_ ..
    rintro rfl
    exact ha (List.mem_cons_of_mem _ hx)
  rw [loops_cons] at h ⊢
  rw [Function.update_self, hrest]
  exact (List.cons.inj h).2

end Update

/-! ### Looking for a node -/

/-- Follow `next` from `a` to the first node with the property. -/
def seek (next : ν → ν) (p : ν → Bool) : Nat → ν → Option ν
  | 0, _ => none
  | fuel + 1, a => if p a then some a else seek next p fuel (next a)

/-- The steps from `a` lead by way of `xs` to `z`. -/
def Walk (next : ν → ν) : ν → List ν → ν → Prop
  | a, [], z => next a = z
  | a, x :: xs, z => next a = x ∧ Walk next x xs z

theorem walk_iff {z : ν} : Walk next a xs z ↔ next a :: xs.map next = xs ++ [z] := by
  induction xs generalizing a with
  | nil => simp [Walk]
  | cons x xs ih => simp [Walk, ih]

theorem loops_iff_walk : Loops next (a :: xs) ↔ Walk next a xs a := loops_cons.trans walk_iff.symm

theorem Walk.seek_eq {z : ν} (h : Walk next a xs z) {p : ν → Bool} (hfind : (a :: xs).find? p = some b) {fuel : Nat}
    (hfuel : xs.length < fuel) : seek next p fuel a = some b := by
  obtain ⟨fuel, rfl⟩ : ∃ k, fuel = k + 1 := ⟨fuel - 1, by omega⟩
  induction xs generalizing a fuel with
  | nil =>
    cases hp : p a with
    | true => simpa [seek, hp] using hfind
    | false => simp [hp] at hfind
  | cons x xs ih =>
    rw [List.find?_cons] at hfind
    cases hp : p a with
    | true => simpa [seek, hp] using hfind
    | false =>
      rw [hp] at hfind
      obtain ⟨fuel, rfl⟩ : ∃ k, fuel = k + 1 := ⟨fuel - 1, by simp at hfuel; omega⟩
      rw [seek, hp, h.1]
      exact ih h.2 hfind fuel (by simpa using hfuel)

end CompilingToAssembly.Library
