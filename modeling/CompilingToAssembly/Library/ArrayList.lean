import Mathlib.Data.List.Basic

/-! A growable list whose buffer moves.

An append to a full list allocates a larger buffer and copies the items over, so a
pointer to an item is good only for the buffer it was taken from. The buffers are
numbered: a list carries the `generation` of its current buffer, and a pointer is
the generation it was taken in together with the item's index. Items never change
once appended, so `deref` reads the item a pointer was handed out for; whether the
pointer may still be followed is `Current`. A program that follows pointers is read
in one of two ways (`Access`): as if a pointer always led to its item, or as the
contract of the list has it, by which one into a buffer given up leads nowhere. -/
namespace CompilingToAssembly.Library

structure ArrayList (α : Type) where
  items : List α
  capacity : Nat
  generation : Nat
  fits : items.length ≤ capacity

structure Pointer where
  generation : Nat
  index : Nat
deriving DecidableEq, Repr

namespace ArrayList
variable {α : Type}

def initCapacity (capacity : Nat) : ArrayList α := ⟨[], capacity, 0, Nat.zero_le _⟩

/-- The capacity a full list is given, half as much again and eight. -/
def growCapacity (current : Nat) : Nat := current + (current / 2 + 8)

def append (l : ArrayList α) (item : α) : ArrayList α :=
  if h : l.items.length < l.capacity then
    { l with items := l.items ++ [item], fits := by rw [List.length_append]; exact h }
  else
    { items := l.items ++ [item]
      capacity := growCapacity l.capacity
      generation := l.generation + 1
      fits := by
        have := l.fits
        simp only [List.length_append, List.length_cons, List.length_nil, growCapacity]
        omega }

/-- The address of the item appended last. -/
def lastPointer (l : ArrayList α) : Pointer := ⟨l.generation, l.items.length - 1⟩

def deref (l : ArrayList α) (p : Pointer) : Option α := l.items[p.index]?

/-- The buffer `p` points into is the one the list still uses. -/
def Current (l : ArrayList α) (p : Pointer) : Prop := p.generation = l.generation

instance (l : ArrayList α) (p : Pointer) : Decidable (l.Current p) :=
  inferInstanceAs (Decidable (p.generation = l.generation))

end ArrayList

/-- How pointers are followed: to the items they were handed out for, or only as long as
the buffer is in use. -/
inductive Access where
  | granted
  | checked
deriving DecidableEq, Repr

namespace ArrayList
variable {α : Type}

def follow (access : Access) (l : ArrayList α) (p : Pointer) : Option α :=
  match access with
  | .granted => l.deref p
  | .checked => if l.Current p then l.deref p else none

@[simp] theorem follow_granted (l : ArrayList α) (p : Pointer) : l.follow .granted p = l.deref p := rfl

theorem follow_of_current (access : Access) {l : ArrayList α} {p : Pointer} (h : l.Current p) :
    l.follow access p = l.deref p := by
  cases access with
  | granted => rfl
  | checked => exact if_pos h

theorem follow_checked_of_stale {l : ArrayList α} {p : Pointer} (h : ¬ l.Current p) : l.follow .checked p = none :=
  if_neg h

@[simp] theorem items_append (l : ArrayList α) (item : α) :
    (l.append item).items = l.items ++ [item] := by
  unfold append
  split <;> rfl

@[simp] theorem lastPointer_append_index (l : ArrayList α) (item : α) :
    (l.append item).lastPointer.index = l.items.length := by
  simp [lastPointer]

@[simp] theorem lastPointer_generation (l : ArrayList α) :
    l.lastPointer.generation = l.generation := rfl

theorem deref_lastPointer (l : ArrayList α) (item : α) :
    (l.append item).deref (l.append item).lastPointer = some item := by
  unfold deref
  rw [lastPointer_append_index, items_append]
  simp

/-! ### Later lists -/

/-- `l'` is `l` after some appends. -/
structure Grows (l l' : ArrayList α) : Prop where
  items : l.items <+: l'.items
  generation : l.generation ≤ l'.generation

namespace Grows

theorem refl (l : ArrayList α) : Grows l l := ⟨List.prefix_rfl, Nat.le_refl _⟩

theorem trans {l l' l'' : ArrayList α} (h : Grows l l') (h' : Grows l' l'') : Grows l l'' :=
  ⟨h.items.trans h'.items, Nat.le_trans h.generation h'.generation⟩

theorem append (l : ArrayList α) (item : α) : Grows l (l.append item) := by
  refine ⟨by simp, ?_⟩
  unfold ArrayList.append
  split
  · exact Nat.le_refl _
  · exact Nat.le_succ _

theorem deref {l l' : ArrayList α} (h : Grows l l') {p : Pointer} {item : α}
    (hp : l.deref p = some item) : l'.deref p = some item := by
  obtain ⟨more, hmore⟩ := h.items
  unfold ArrayList.deref at hp ⊢
  have hlt : p.index < l.items.length := (List.getElem?_eq_some_iff.mp hp).1
  rw [← hmore, List.getElem?_append_left hlt]
  exact hp

end Grows

/-! ### When the buffer moves -/

/-- A list that started with room for `capacity` items: either it still has its
first buffer, or it outgrew it. -/
def Started (capacity : Nat) (l : ArrayList α) : Prop :=
  (l.generation = 0 ∧ l.capacity = capacity) ∨ (0 < l.generation ∧ capacity < l.items.length)

theorem started_initCapacity (capacity : Nat) : Started capacity (initCapacity (α := α) capacity) :=
  .inl ⟨rfl, rfl⟩

theorem started_append {capacity : Nat} {l : ArrayList α} (h : Started capacity l) (item : α) :
    Started capacity (l.append item) := by
  unfold Started
  rw [items_append]
  rcases h with ⟨hg, hc⟩ | ⟨hg, hlen⟩
  · unfold append
    split
    · exact .inl ⟨hg, hc⟩
    · rename_i hfull
      refine .inr ⟨Nat.succ_pos _, ?_⟩
      simp only [List.length_append, List.length_cons, List.length_nil]
      omega
  · refine .inr ⟨Nat.lt_of_lt_of_le hg (Grows.append l item).generation, ?_⟩
    simp only [List.length_append, List.length_cons, List.length_nil]
    omega

/-- **The first buffer lasts exactly as long as its capacity.** -/
theorem generation_eq_zero_iff {capacity : Nat} {l : ArrayList α} (h : Started capacity l) :
    l.generation = 0 ↔ l.items.length ≤ capacity := by
  rcases h with ⟨hg, hc⟩ | ⟨hg, hlen⟩
  · have := l.fits
    simp only [hg, true_iff]
    omega
  · omega

end ArrayList

end CompilingToAssembly.Library
