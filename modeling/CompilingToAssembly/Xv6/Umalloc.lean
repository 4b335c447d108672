import CompilingToAssembly.Library.Circle
import CompilingToAssembly.Library.Extents
import CompilingToAssembly.Library.Machine

/-! `umalloc.c`: `malloc` and `free` of user programs.

The free blocks are in a circle of headers in the order of their addresses, with `base` below
them all. `free` puts a block in its place and joins it with its neighbours; `malloc` takes
the first block that is large enough from where the last search ended, and asks the kernel
for more memory if there is none.

Addresses and sizes are counted in headers of 8 bytes, and the memory of a process ends at a
header. A call that does not return is `none`, whether the fuel is used up or the process is
killed for a header that is in no page it has. -/
namespace CompilingToAssembly.Xv6.Umalloc
open Library

/-- The headers, `freep`, and the break, at which `sbrk` adds memory. -/
structure Heap where
  base : Nat
  ptr : Nat → Nat
  size : Nat → Nat
  freep : Option Nat
  brk : Nat

/-- The first address of the kernel, in bytes: the memory of a process stays below. -/
def kernbase : Nat := 2 ^ 31

/-- The units `malloc` needs for `nbytes`, and one for the header. The sum is a `uint`. -/
def nunits (nbytes : UInt32) : Nat := (nbytes + 7).toNat / 8 + 1

namespace Heap

/-! ### `free` -/

/-- The loop of `free` ends at `p`. -/
def stops (s : Heap) (bp p : Nat) : Bool :=
  (decide (bp > p) && decide (bp < s.ptr p)) ||
    (decide (p ≥ s.ptr p) && (decide (bp > p) || decide (bp < s.ptr p)))

/-- `bp` is joined to the block after `p`, or linked to it. -/
def joinNext (s : Heap) (bp p : Nat) : Heap :=
  if bp + s.size bp = s.ptr p then
    { s with
      size := Function.update s.size bp (s.size bp + s.size (s.ptr p))
      ptr := Function.update s.ptr bp (s.ptr (s.ptr p)) }
  else { s with ptr := Function.update s.ptr bp (s.ptr p) }

/-- `bp` is joined to `p`, or linked behind it. -/
def joinPrev (s : Heap) (bp p : Nat) : Heap :=
  if p + s.size p = bp then
    { s with
      size := Function.update s.size p (s.size p + s.size bp)
      ptr := Function.update s.ptr p (s.ptr bp) }
  else { s with ptr := Function.update s.ptr p bp }

def free (fuel : Nat) (s : Heap) (ap : Nat) : Option Heap :=
  let bp := ap - 1
  s.freep.bind fun f => (seek s.ptr (s.stops bp) fuel f).map fun p =>
    { (s.joinNext bp p).joinPrev bp p with freep := some p }

/-! ### `malloc` -/

def coreUnits (nu : Nat) : Nat := if nu < 4096 then 4096 else nu

/-- The bytes that `morecore` asks for: the product is a `uint`. -/
def coreBytes (nu : Nat) : Nat := coreUnits nu * 8 % 2 ^ 32

/-- `sbrk`, called with the 32 bits of `n`, and `growproc`. `core` says whether the kernel has
memory to give; `none` is -1. -/
def sbrk (s : Heap) (n : Nat) (core : Bool) : Option Heap :=
  let oldsz := 8 * s.brk
  if n = 0 then some s
  else if n < 2 ^ 31 then
    if kernbase ≤ oldsz + n ∨ core = false then none else some { s with brk := (oldsz + n) / 8 }
  else
    -- a negative `int`: `deallocuvm` gives memory back, unless the difference is below zero
    let newsz := (oldsz + n) % 2 ^ 32
    let sz := if oldsz ≤ newsz then oldsz else newsz
    if sz = 0 then none else some { s with brk := sz / 8 }

/-- The header `p` is in a page of the process. A page is 512 headers. -/
def mapped (s : Heap) (p : Nat) : Bool := p < (s.brk + 511) / 512 * 512

/-- The header of what `sbrk` gave. -/
def setSize (s : Heap) (hp nu : Nat) : Heap := { s with size := Function.update s.size hp nu }

/-- `some none` is 0. -/
def morecore (fuel : Nat) (s : Heap) (nu : Nat) (core : Bool) : Option (Option Heap) :=
  match s.sbrk (coreBytes nu) core with
  | none => some none
  | some t =>
    let hp := s.brk
    if t.mapped hp then ((t.setSize hp (coreUnits nu)).free fuel (hp + 1)).map some else none

/-- The block `p` is large enough: it is taken, or its end. -/
def take (s : Heap) (n prevp p : Nat) : Heap × Option Nat :=
  if s.size p = n then
    ({ s with ptr := Function.update s.ptr prevp (s.ptr p), freep := some prevp }, some (p + 1))
  else
    let size := Function.update s.size p (s.size p - n)
    let p := p + size p
    ({ s with size := Function.update size p n, freep := some prevp }, some (p + 1))

/-- The loop of `malloc`. -/
def mallocLoop (core : Bool) (n : Nat) : Nat → Heap → Nat → Nat → Option (Heap × Option Nat)
  | 0, _, _, _ => none
  | fuel + 1, s, prevp, p =>
    if n ≤ s.size p then some (s.take n prevp p)
    else if s.freep = some p then
      (s.morecore fuel n core).bind fun r =>
        r.elim (some (s, none)) fun s => s.freep.bind fun p => mallocLoop core n fuel s p (s.ptr p)
    else mallocLoop core n fuel s p (s.ptr p)

/-- The circle at the first call. -/
def start (s : Heap) : Heap :=
  { s with
    ptr := Function.update s.ptr s.base s.base
    size := Function.update s.size s.base 0
    freep := some s.base }

def malloc (fuel : Nat) (s : Heap) (nbytes : UInt32) (core : Bool) : Option (Heap × Option Nat) :=
  let s := if s.freep = none then s.start else s
  s.freep.bind fun prevp => mallocLoop core (nunits nbytes) fuel s prevp (s.ptr prevp)

end Heap

/-! ### A program and its heap -/

/-- `live` are the blocks that the program has, `regions` is what `sbrk` gave to `morecore`. -/
structure State where
  heap : Heap
  live : List (Nat × Nat)
  regions : List (Nat × Nat)

inductive Event where
  | malloc (nbytes : UInt32) (core : Bool)
  | free (ap : Nat)
  /-- The program itself asks the kernel for more memory, room for `n` headers. -/
  | sbrk (n : Nat)

/-- More turns than the loops of `malloc` and `free` can take. -/
def State.fuel (s : State) : Nat := 2 * units s.regions + 8

/-- What `sbrk` has given meanwhile. -/
def State.grown (s : State) (heap : Heap) : List (Nat × Nat) :=
  if s.heap.brk < heap.brk then (s.heap.brk, heap.brk - s.heap.brk) :: s.regions else s.regions

def step (s : State) : Event → Turn State
  | .malloc nbytes core =>
    match s.heap.malloc s.fuel nbytes core with
    | none => .waits
    | some (heap, none) => .next { s with heap := heap }
    | some (heap, some ap) => .next ⟨heap, (ap - 1, nunits nbytes) :: s.live, s.grown heap⟩
  | .free ap =>
    match s.heap.free s.fuel ap with
    | none => .waits
    | some heap => .next { s with heap := heap, live := s.live.filter fun b => b.1 ≠ ap - 1 }
  | .sbrk n => .next { s with heap := (s.heap.sbrk (8 * n) true).getD s.heap }

/-- A request that `morecore` passes on as a positive `int`: for less than half the address
space, or so large that the sum in `malloc` overflows and only a header is needed. -/
def Moderate (nbytes : UInt32) : Prop := nbytes.toNat ≤ 2 ^ 31 - 16 ∨ 2 ^ 32 - 8 < nbytes.toNat

/-- The program frees what it has, and asks neither `malloc` nor `sbrk` for half the address
space or more. -/
def Orderly (s : State) : Event → Prop
  | .malloc nbytes _ => Moderate nbytes
  | .free ap => ∃ n, (ap - 1, n) ∈ s.live
  | .sbrk n => 8 * n < 2 ^ 31

instance (nbytes : UInt32) : Decidable (Moderate nbytes) := inferInstanceAs (Decidable (_ ∨ _))

instance (s : State) (e : Event) : Decidable (Orderly s e) :=
  match e with
  | .malloc nbytes _ => inferInstanceAs (Decidable (Moderate nbytes))
  | .free ap => decidable_of_iff (s.live.any fun b => b.1 == ap - 1) (by simp [Orderly])
  | .sbrk n => inferInstanceAs (Decidable (8 * n < 2 ^ 31))

/-- Before the first call. -/
def initial (base brk : Nat) (ptr size : Nat → Nat) : State := ⟨⟨base, ptr, size, none, brk⟩, [], []⟩

end CompilingToAssembly.Xv6.Umalloc
