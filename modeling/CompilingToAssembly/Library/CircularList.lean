import Mathlib.Data.List.Basic
import Mathlib.Data.List.Nodup
import Mathlib.Logic.Function.Basic

/-! Doubly linked lists that close on a head of their own.

The links are two maps on the nodes. `Circular l head xs`: following `next` from the head
one visits the nodes `xs` and is back at the head, and following `prev` one visits them
the other way round. -/
namespace CompilingToAssembly.Library

structure Links (ν : Type) where
  next : ν → ν
  prev : ν → ν

namespace Links
variable {ν : Type}

/-- The links the other way round. -/
def flip (l : Links ν) : Links ν := ⟨l.prev, l.next⟩

/-- From `a` by way of `xs` to `b`. -/
def Seg (l : Links ν) : ν → List ν → ν → Prop
  | a, [], b => l.next a = b ∧ l.prev b = a
  | a, x :: xs, b => (l.next a = x ∧ l.prev x = a) ∧ Seg l x xs b

structure Circular (l : Links ν) (head : ν) (xs : List ν) : Prop where
  seg : l.Seg head xs head
  nodup : (head :: xs).Nodup

variable {l l' : Links ν} {a b c head : ν} {xs ys : List ν}

theorem seg_append : l.Seg a (xs ++ b :: ys) c ↔ l.Seg a xs b ∧ l.Seg b ys c := by
  induction xs generalizing a with
  | nil => exact Iff.rfl
  | cons x xs ih => simp only [List.cons_append, Seg, ih, and_assoc]

theorem Seg.congr (hnext : ∀ x ∈ a :: xs, l'.next x = l.next x) (hprev : ∀ x ∈ xs ++ [b], l'.prev x = l.prev x)
    (h : l.Seg a xs b) : l'.Seg a xs b := by
  induction xs generalizing a with
  | nil => exact ⟨(hnext a (by simp)).trans h.1, (hprev b (by simp)).trans h.2⟩
  | cons x xs ih =>
    refine ⟨⟨(hnext a (by simp)).trans h.1.1, (hprev x (by simp)).trans h.1.2⟩, ih ?_ ?_ h.2⟩
    · exact fun y hy => hnext y (List.mem_cons_of_mem _ hy)
    · exact fun y hy => hprev y (List.mem_cons_of_mem _ hy)

theorem Seg.flip (h : l.Seg a xs b) : l.flip.Seg b xs.reverse a := by
  induction xs generalizing a with
  | nil => exact ⟨h.2, h.1⟩
  | cons x xs ih =>
    rw [List.reverse_cons, seg_append]
    exact ⟨ih h.2, h.1.2, h.1.1⟩

theorem Seg.prev_end (h : l.Seg a xs b) : l.prev b = (a :: xs).getLast (List.cons_ne_nil a xs) := by
  induction xs generalizing a with
  | nil => exact h.2
  | cons x xs ih =>
    rw [List.getLast_cons (List.cons_ne_nil x xs)]
    exact ih h.2

theorem Circular.flip (h : l.Circular head xs) : l.flip.Circular head xs.reverse := by
  refine ⟨h.seg.flip, ?_⟩
  have hnodup := List.nodup_cons.mp h.nodup
  exact List.nodup_cons.mpr ⟨fun hmem => hnodup.1 (List.mem_reverse.mp hmem), List.nodup_reverse.mpr hnodup.2⟩

variable [DecidableEq ν]

/-! ### Looking for a node -/

/-- Follow `next` from `b` to the first node with the property, or to the head. -/
def find (l : Links ν) (head : ν) (p : ν → Bool) : Nat → ν → Option ν
  | 0, _ => none
  | fuel + 1, b => if b = head then none else if p b then some b else find l head p fuel (l.next b)

theorem Seg.find_eq (h : l.Seg a xs head) (hnot : head ∉ xs) (p : ν → Bool) {fuel : Nat}
    (hfuel : xs.length < fuel) : l.find head p fuel (l.next a) = xs.find? p := by
  induction xs generalizing a fuel with
  | nil =>
    obtain ⟨fuel, rfl⟩ := Nat.exists_eq_add_of_lt hfuel
    rw [h.1]
    simp [find]
  | cons x xs ih =>
    rw [List.mem_cons, not_or] at hnot
    obtain ⟨fuel, rfl⟩ : ∃ k, fuel = k + 1 := ⟨fuel - 1, by simp at hfuel; omega⟩
    rw [h.1.1, find, if_neg (Ne.symm hnot.1), List.find?_cons]
    cases p x with
    | true => rfl
    | false => exact ih h.2 hnot.2 (by simpa using hfuel)

theorem Circular.find_eq (h : l.Circular head xs) (p : ν → Bool) {fuel : Nat} (hfuel : xs.length < fuel) :
    l.find head p fuel (l.next head) = xs.find? p :=
  h.seg.find_eq (List.nodup_cons.mp h.nodup).1 p hfuel

/-! ### Taking a node out and putting one in front -/

/-- `b->next->prev = b->prev; b->prev->next = b->next`. -/
def unlink (l : Links ν) (b : ν) : Links ν :=
  let prev := Function.update l.prev (l.next b) (l.prev b)
  ⟨Function.update l.next (prev b) (l.next b), prev⟩

/-- `b->next = head.next; b->prev = &head; head.next->prev = b; head.next = b`. -/
def insertFront (l : Links ν) (head b : ν) : Links ν :=
  let next := Function.update l.next b (l.next head)
  let prev := Function.update l.prev b head
  ⟨Function.update next head b, Function.update prev (next head) b⟩

/-- The last node of a way is linked to another end. -/
theorem Seg.retarget (h : l.Seg a xs b) (hnodup : (a :: xs).Nodup) (hc : c ∉ xs) :
    Seg ⟨Function.update l.next ((a :: xs).getLast (List.cons_ne_nil a xs)) c,
      Function.update l.prev c ((a :: xs).getLast (List.cons_ne_nil a xs))⟩ a xs c := by
  induction xs generalizing a with
  | nil => exact ⟨Function.update_self .., Function.update_self ..⟩
  | cons x xs ih =>
    rw [List.mem_cons, not_or] at hc
    have hlast : (a :: x :: xs).getLast (List.cons_ne_nil a _) = (x :: xs).getLast (List.cons_ne_nil x xs) :=
      List.getLast_cons (List.cons_ne_nil x xs)
    have hne : a ≠ (x :: xs).getLast (List.cons_ne_nil x xs) := fun heq =>
      (List.nodup_cons.mp hnodup).1 (heq ▸ List.getLast_mem _)
    rw [hlast]
    refine ⟨⟨?_, ?_⟩, ih h.2 (List.nodup_cons.mp hnodup).2 hc.2⟩
    · exact (Function.update_of_ne hne ..).trans h.1.1
    · exact (Function.update_of_ne (Ne.symm hc.1) ..).trans h.1.2

theorem Circular.insertFront (h : l.Circular head xs) (hb : b ∉ head :: xs) :
    (l.insertFront head b).Circular head (b :: xs) := by
  obtain ⟨hne, hnot⟩ := List.ne_and_not_mem_of_not_mem_cons hb
  obtain ⟨hhead, hnodup⟩ := List.nodup_cons.mp h.nodup
  have hnext (y : ν) (hy : y ≠ head) (hyb : y ≠ b) : (l.insertFront head b).next y = l.next y := by
    simp [Links.insertFront, hy, hyb]
  have hprev (y : ν) (hy : y ≠ l.next head) (hyb : y ≠ b) : (l.insertFront head b).prev y = l.prev y := by
    simp [Links.insertFront, hne.symm, hy, hyb]
  have hhead_next : (l.insertFront head b).next head = b := Function.update_self ..
  have hb_next : (l.insertFront head b).next b = l.next head := by simp [Links.insertFront, hne]
  have hfirst_prev : (l.insertFront head b).prev (l.next head) = b := by simp [Links.insertFront, hne.symm]
  have hb_prev (hfirst : b ≠ l.next head) : (l.insertFront head b).prev b = head := by
    simp [Links.insertFront, hne.symm, hfirst]
  refine ⟨?_, List.nodup_cons.mpr ⟨?_, List.nodup_cons.mpr ⟨hnot, hnodup⟩⟩⟩
  · cases xs with
    | nil =>
      have hself : l.next head = head := h.seg.1
      rw [hself] at hb_next hfirst_prev hb_prev
      exact ⟨⟨hhead_next, hb_prev hne⟩, hb_next, hfirst_prev⟩
    | cons x xs =>
      have hx : l.next head = x := h.seg.1.1
      rw [hx] at hb_next hfirst_prev hb_prev hprev
      obtain ⟨hbx, hbxs⟩ := List.ne_and_not_mem_of_not_mem_cons hnot
      obtain ⟨hxs, hnodup⟩ := List.nodup_cons.mp hnodup
      refine ⟨⟨hhead_next, hb_prev hbx⟩, ⟨hb_next, hfirst_prev⟩, h.seg.2.congr ?_ ?_⟩
      · exact fun y hy => hnext y (fun heq => hhead (heq ▸ hy)) (fun heq => hnot (heq ▸ hy))
      · intro y hy
        rcases List.mem_append.mp hy with hy | hy
        · exact hprev y (fun heq => hxs (heq ▸ hy)) (fun heq => hbxs (heq ▸ hy))
        · obtain rfl := List.mem_singleton.mp hy
          exact hprev y (fun heq => hhead (heq ▸ List.mem_cons_self)) (Ne.symm hne)
  · intro hmem
    rcases List.mem_cons.mp hmem with heq | hmem
    · exact hne heq.symm
    · exact hhead hmem

theorem Circular.unlink (h : l.Circular head (xs ++ b :: ys)) : (l.unlink b).Circular head (xs ++ ys) := by
  obtain ⟨hleft, hright⟩ := seg_append.mp h.seg
  have hnodup := h.nodup
  rw [← List.cons_append] at hnodup
  obtain ⟨hnodupl, hnodupr, hdisjoint⟩ := List.nodup_append.mp hnodup
  have hbys := (List.nodup_cons.mp hnodupr).1
  have hlast := hleft.prev_end
  have hmem : (head :: xs).getLast (List.cons_ne_nil head xs) ∈ head :: xs := List.getLast_mem _
  -- the links of `b` itself do not change
  have hnb : b ≠ l.next b := by
    cases ys with
    | nil => rw [hright.1]; exact fun heq => hdisjoint head (by simp) b (by simp) heq.symm
    | cons y ys => rw [hright.1.1]; exact fun heq => hbys (heq ▸ List.mem_cons_self)
  have hunlink : l.unlink b = ⟨Function.update l.next ((head :: xs).getLast (List.cons_ne_nil head xs)) (l.next b),
      Function.update l.prev (l.next b) ((head :: xs).getLast (List.cons_ne_nil head xs))⟩ := by
    simp only [Links.unlink, Function.update_of_ne hnb, hlast]
  have hsub : (head :: (xs ++ ys)).Sublist (head :: xs ++ b :: ys) :=
    (List.Sublist.refl (head :: xs)).append (List.sublist_cons_self b ys)
  refine ⟨?_, hnodup.sublist hsub⟩
  rw [hunlink]
  cases ys with
  | nil =>
    rw [hright.1, List.append_nil]
    exact hleft.retarget hnodupl (List.nodup_cons.mp hnodupl).1
  | cons y ys =>
    have hy : l.next b = y := hright.1.1
    rw [hy, seg_append]
    obtain ⟨hyys, _⟩ := List.nodup_cons.mp (List.nodup_cons.mp hnodupr).2
    have hyhead : y ∉ head :: xs := fun hin => hdisjoint y hin y (by simp) rfl
    refine ⟨hleft.retarget hnodupl (fun hin => hyhead (List.mem_cons_of_mem _ hin)), hright.2.congr ?_ ?_⟩
    · intro z hz
      have hne : z ≠ (head :: xs).getLast (List.cons_ne_nil head xs) := fun heq =>
        hdisjoint z (heq ▸ hmem) z (List.mem_cons_of_mem _ hz) rfl
      exact Function.update_of_ne hne ..
    · intro z hz
      have hne : z ≠ y := by
        rintro rfl
        rcases List.mem_append.mp hz with hz | hz
        · exact hyys hz
        · exact hyhead (List.mem_singleton.mp hz ▸ List.mem_cons_self)
      exact Function.update_of_ne hne ..

end Links
end CompilingToAssembly.Library
