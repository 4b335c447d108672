import CompilingToAssembly.Library.Packed
import CompilingToAssembly.Xv6.Log
import Mathlib.Data.List.Dedup

/-! `fs.c`: the blocks of the disk, the inodes, and the contents of files.

A bit map says which blocks are in use. An inode has the numbers of the first 12 blocks of its
file, and of a block with the numbers of 128 more. The kernel works on a copy of the inode and
writes it back.

`BSIZE` is 512, so that a block has the bits of `BPB` = 4096 blocks, or `IPB` = 8 inodes of
64 bytes; `NDIRECT` is 12, `NINDIRECT` 128 and `MAXFILE` 140. -/
namespace CompilingToAssembly.Xv6.Fs
open Library

abbrev Block : Type := Nat → UInt8

/-- First come the log, the inodes and the bit map, then the blocks of files. -/
structure Superblock extends Log.Superblock where
  ninodes : Nat
  inodestart : Nat
  bmapstart : Nat
  log_below : logstart + nlog ≤ inodestart
  inodes_below : inodestart + ninodes / 8 < bmapstart
  bmap_fits : bmapstart + size / 4096 < size

/-- The first block that can be in a file. -/
def Superblock.nmeta (sb : Superblock) : Nat := sb.bmapstart + sb.size / 4096 + 1

/-- What `bread` finds in each block, with the log's `lh.block[0..n)` and `outstanding`. -/
structure Disk where
  block : Nat → Block
  logged : List Nat
  outstanding : Nat

section Blocks
variable (sb : Superblock)

/-- The buffer of block `b` is changed to `data` and passed to `log_write`. -/
def Disk.logWrite (d : Disk) (b : Nat) (data : Block) : Except String Disk :=
  (Log.logWrite sb.toSuperblock d.outstanding d.logged b).map fun lh =>
    { d with block := Function.update d.block b data, logged := lh }

/-! ### Blocks -/

/-- `BBLOCK`. -/
def bblock (b : Nat) : Nat := b / 4096 + sb.bmapstart

/-- The bit of block `b` in the map. -/
def used (d : Disk) (b : Nat) : Bool := readBit (d.block (bblock sb b)) (b % 4096)

def bzero (d : Disk) (b : Nat) : Except String Disk := d.logWrite sb b fun _ => 0

structure Allocated where
  disk : Disk
  block : Nat

/-- The two loops go through the bits of all blocks in turn. -/
def balloc (d : Disk) : Except String Allocated :=
  match (List.range sb.size).find? fun b => !used sb d b with
  | none => .error "balloc: out of blocks"
  | some b =>
    (d.logWrite sb (bblock sb b) (setBit (d.block (bblock sb b)) (b % 4096))).bind fun d =>
      (bzero sb d b).map fun d => ⟨d, b⟩

def bfree (d : Disk) (b : Nat) : Except String Disk :=
  if used sb d b then d.logWrite sb (bblock sb b) (clearBit (d.block (bblock sb b)) (b % 4096))
  else .error "freeing free block"

/-! ### Inodes -/

structure Inode where
  type : UInt16
  major : UInt16
  minor : UInt16
  nlink : UInt16
  size : Nat
  addrs : Fin 13 → Nat

/-- The inode with which a block of inodes has `i` before it. -/
def takeDinode (data : Block) (i : Nat) : Inode where
  type := .ofNat (readLe data (64 * i) 2)
  major := .ofNat (readLe data (64 * i + 2) 2)
  minor := .ofNat (readLe data (64 * i + 4) 2)
  nlink := .ofNat (readLe data (64 * i + 6) 2)
  size := readLe data (64 * i + 8) 4
  addrs k := readLe data (64 * i + 12 + 4 * k) 4

def putDinode (data : Block) (i : Nat) (ip : Inode) : Block :=
  let data := writeLe data (64 * i) 2 ip.type.toNat
  let data := writeLe data (64 * i + 2) 2 ip.major.toNat
  let data := writeLe data (64 * i + 4) 2 ip.minor.toNat
  let data := writeLe data (64 * i + 6) 2 ip.nlink.toNat
  let data := writeLe data (64 * i + 8) 4 ip.size
  writeLes data (64 * i + 12) 4 13 fun k => if h : k < 13 then ip.addrs ⟨k, h⟩ else 0

/-- `IBLOCK`. -/
def iblock (inum : Nat) : Nat := inum / 8 + sb.inodestart

def dinode (d : Disk) (inum : Nat) : Inode := takeDinode (d.block (iblock sb inum)) (inum % 8)

def iupdate (d : Disk) (inum : Nat) (ip : Inode) : Except String Disk :=
  d.logWrite sb (iblock sb inum) (putDinode (d.block (iblock sb inum)) (inum % 8) ip)

/-- What `memset` and the assignment of the type leave. -/
def Inode.fresh (type : UInt16) : Inode := ⟨type, 0, 0, 0, 0, fun _ => 0⟩

/-- The loop of `ialloc`. What it writes is an inode with the type and zeros. -/
def findInode (d : Disk) (type : UInt16) : Except String Allocated :=
  match (List.range sb.ninodes).find? fun inum => decide (1 ≤ inum) && (dinode sb d inum).type == 0 with
  | none => .error "ialloc: no inodes"
  | some inum => (iupdate sb d inum (.fresh type)).map fun d => ⟨d, inum⟩

/-! ### The blocks of a file -/

/-- What an operation leaves: the disk, the copy of the inode, and what it returns. -/
structure Done (α : Type) where
  disk : Disk
  ip : Inode
  value : α

/-- `ip->addrs[k]`, for which a block is allocated if it is 0. -/
def addr (d : Disk) (ip : Inode) (k : Fin 13) : Except String (Done Nat) :=
  if ip.addrs k = 0 then
    (balloc sb d).map fun r => ⟨r.disk, { ip with addrs := Function.update ip.addrs k r.block }, r.block⟩
  else .ok ⟨d, ip, ip.addrs k⟩

/-- Entry `bn` of the block `a` of numbers. -/
def entry (d : Disk) (ip : Inode) (a bn : Nat) : Except String (Done Nat) :=
  if readLe (d.block a) (4 * bn) 4 = 0 then
    (balloc sb d).bind fun r =>
      (r.disk.logWrite sb a (writeLe (r.disk.block a) (4 * bn) 4 r.block)).map fun d => ⟨d, ip, r.block⟩
  else .ok ⟨d, ip, readLe (d.block a) (4 * bn) 4⟩

def bmap (d : Disk) (ip : Inode) (bn : Nat) : Except String (Done Nat) :=
  if h : bn < 12 then addr sb d ip (Fin.castSucc ⟨bn, h⟩)
  else if bn - 12 < 128 then
    (addr sb d ip (Fin.last 12)).bind fun r => entry sb r.disk r.ip r.value (bn - 12)
  else .error "bmap: out of range"

/-- The first loop of `itrunc`. -/
def freeDirect : List (Fin 12) → Disk → Inode → Except String (Done Unit)
  | [], d, ip => .ok ⟨d, ip, ()⟩
  | i :: is, d, ip =>
    if ip.addrs i.castSucc = 0 then freeDirect is d ip
    else (bfree sb d (ip.addrs i.castSucc)).bind fun d =>
      freeDirect is d { ip with addrs := Function.update ip.addrs i.castSucc 0 }

/-- The second loop, over the entries of block `a`. -/
def freeEntries (a : Nat) : List Nat → Disk → Except String Disk
  | [], d => .ok d
  | j :: js, d =>
    if readLe (d.block a) (4 * j) 4 = 0 then freeEntries a js d
    else (bfree sb d (readLe (d.block a) (4 * j) 4)).bind (freeEntries a js)

/-- `if(ip->addrs[NDIRECT])`. -/
def freeIndirect (d : Disk) (ip : Inode) : Except String (Done Unit) :=
  if ip.addrs (Fin.last 12) = 0 then .ok ⟨d, ip, ()⟩
  else (freeEntries sb (ip.addrs (Fin.last 12)) (List.range 128) d).bind fun d =>
    (bfree sb d (ip.addrs (Fin.last 12))).map fun d =>
      ⟨d, { ip with addrs := Function.update ip.addrs (Fin.last 12) 0 }, ()⟩

def itrunc (d : Disk) (inum : Nat) (ip : Inode) : Except String (Done Unit) :=
  (freeDirect sb (List.finRange 12) d ip).bind fun r => (freeIndirect sb r.disk r.ip).bind fun r =>
    (iupdate sb r.disk inum { r.ip with size := 0 }).map fun d => ⟨d, { r.ip with size := 0 }, ()⟩

/-! ### Reading and writing -/

/-- The loop of `readi`, with `n` bytes to go from `off` on. It takes at most `n` turns. -/
def readLoop : Nat → Disk → Inode → Nat → Nat → Except String (Done (List UInt8))
  | 0, d, ip, _, _ => .ok ⟨d, ip, []⟩
  | fuel + 1, d, ip, off, n =>
    if n = 0 then .ok ⟨d, ip, []⟩
    else (bmap sb d ip (off / 512)).bind fun r =>
      let m := min n (512 - off % 512)
      let dst := (List.range m).map fun i => r.disk.block r.value (off % 512 + i)
      (readLoop fuel r.disk r.ip (off + m) (n - m)).map fun r => { r with value := dst ++ r.value }

/-- `memmove(data + a, src, m)`. -/
def memmove (data : Block) (a : Nat) (src : List UInt8) (m : Nat) : Block := fun i =>
  if a ≤ i ∧ i < a + m then src.getD (i - a) 0 else data i

/-- The loop of `writei`, with the bytes `src` to go from `off` on. -/
def writeLoop : Nat → Disk → Inode → Nat → List UInt8 → Except String (Done Nat)
  | 0, d, ip, off, _ => .ok ⟨d, ip, off⟩
  | fuel + 1, d, ip, off, src =>
    if src.length = 0 then .ok ⟨d, ip, off⟩
    else (bmap sb d ip (off / 512)).bind fun r =>
      let m := min src.length (512 - off % 512)
      (r.disk.logWrite sb r.value (memmove (r.disk.block r.value) (off % 512) src m)).bind fun d =>
        writeLoop fuel d r.ip (off + m) (src.drop m)

/-- `T_DEV`. -/
def tDev : UInt16 := 3

/-- `dev` is what the driver answers if the inode is a device. -/
def readi (dev : Option (List UInt8)) (d : Disk) (ip : Inode) (off n : UInt32) :
    Except String (Done (Option (List UInt8))) :=
  if ip.type = tDev then .ok ⟨d, ip, dev⟩
  else if off.toNat > ip.size ∨ off + n < off then .ok ⟨d, ip, none⟩
  else
    let n := if (off + n).toNat > ip.size then ip.size - off.toNat else n.toNat
    (readLoop sb n d ip off.toNat n).map fun r => { r with value := some r.value }

def writei (dev : Option Nat) (d : Disk) (inum : Nat) (ip : Inode) (src : List UInt8) (off : UInt32) :
    Except String (Done (Option Nat)) :=
  let n : UInt32 := .ofNat src.length
  if ip.type = tDev then .ok ⟨d, ip, dev⟩
  else if off.toNat > ip.size ∨ off + n < off then .ok ⟨d, ip, none⟩
  else if (off + n).toNat > 140 * 512 then .ok ⟨d, ip, none⟩
  else (writeLoop sb src.length d ip off.toNat src).bind fun r =>
    if 0 < src.length ∧ r.value > r.ip.size then
      (iupdate sb r.disk inum { r.ip with size := r.value }).map fun d =>
        ⟨d, { r.ip with size := r.value }, some src.length⟩
    else .ok { r with value := some src.length }

end Blocks

/-! ### The inodes in memory -/

/-- `NINODE`. -/
def ninode : Nat := 50

/-- `cache` has the copies of inodes that are valid, and `refs` the number of an inode as often as
`ref` says in its entry of `icache`. An entry to which nobody refers has no copy, since `iget` reads
it anew. -/
structure State where
  disk : Disk
  cache : Nat → Option Inode
  refs : List Nat

inductive Event where
  | ialloc (type : UInt16)
  /-- `iget`, or `idup` if the inode is in `icache`. -/
  | iget (inum : Nat)
  | ilock (inum : Nat)
  | readi (inum : Nat) (off n : UInt32) (dev : Option (List UInt8))
  | writei (inum : Nat) (src : List UInt8) (off : UInt32) (dev : Option Nat)
  /-- A system call changes the number of links and calls `iupdate`. -/
  | link (inum : Nat) (nlink : UInt16)
  /-- `iput` of the last reference to an inode whose copy is valid. -/
  | iput (inum : Nat)
  /-- `iput` of any other reference. -/
  | unref (inum : Nat)
  | beginOp
  | endOp

namespace State

def hold {α : Type} (s : State) (inum : Nat) (r : Done α) : State :=
  { s with disk := r.disk, cache := Function.update s.cache inum (some r.ip) }

def iget (s : State) (inum : Nat) : Except String State :=
  if inum ∈ s.refs then .ok { s with refs := inum :: s.refs }
  else if s.refs.dedup.length ≥ ninode then .error "iget: no inodes"
  else .ok { s with refs := inum :: s.refs, cache := Function.update s.cache inum none }

/-- `ip->ref--`. -/
def unref (s : State) (inum : Nat) : State :=
  { s with
    refs := s.refs.erase inum
    cache := if inum ∈ s.refs.erase inum then s.cache else Function.update s.cache inum none }

/-- There is one reference to the inode, and its copy is valid. -/
def Last (s : State) (inum : Nat) : Prop := (s.cache inum).isSome ∧ s.refs.count inum = 1

instance (s : State) (inum : Nat) : Decidable (s.Last inum) := inferInstanceAs (Decidable (_ ∧ _))

def beginOp (s : State) : Turn State :=
  if s.disk.logged.length + (s.disk.outstanding + 1) * Log.maxOpBlocks > Log.logSize then .waits
  else .next { s with disk := { s.disk with outstanding := s.disk.outstanding + 1 } }

/-- The last system call under way commits: its blocks are in their places, and the log is empty. -/
def endOp (s : State) : State :=
  if s.disk.outstanding - 1 = 0 then { s with disk := { s.disk with outstanding := s.disk.outstanding - 1, logged := [] } }
  else { s with disk := { s.disk with outstanding := s.disk.outstanding - 1 } }

/-- An operation on the copy of an inode that is locked. -/
def locked (s : State) (inum : Nat) (f : Inode → Except String State) : Turn State :=
  match s.cache inum with
  | none => .waits
  | some ip => .ofExcept (f ip)

end State

variable (sb : Superblock)

def ialloc (s : State) (type : UInt16) : Except String State :=
  (findInode sb s.disk type).bind fun r => State.iget { s with disk := r.disk } r.block

/-- The copy of the inode that `ilock` leaves. -/
def ilock (s : State) (inum : Nat) : Except String Inode :=
  if s.refs.count inum < 1 then .error "ilock"
  else
    match s.cache inum with
    | some ip => .ok ip
    | none => if (dinode sb s.disk inum).type = 0 then .error "ilock: no type" else .ok (dinode sb s.disk inum)

def iput (s : State) (inum : Nat) : Except String State :=
  match s.cache inum with
  | none => .ok (s.unref inum)
  | some ip =>
    if ip.nlink = 0 ∧ s.refs.count inum = 1 then
      (itrunc sb s.disk inum ip).bind fun r => (iupdate sb r.disk inum { r.ip with type := 0 }).map fun d =>
        State.unref { s with disk := d, cache := Function.update s.cache inum none } inum
    else .ok (s.unref inum)

def step (s : State) : Event → Turn State
  | .ialloc type => .ofExcept (ialloc sb s type)
  | .iget inum => .ofExcept (s.iget inum)
  | .ilock inum => .ofExcept ((ilock sb s inum).map fun ip => { s with cache := Function.update s.cache inum (some ip) })
  | .readi inum off n dev => s.locked inum fun ip => (readi sb dev s.disk ip off n).map (s.hold inum)
  | .writei inum src off dev => s.locked inum fun ip => (writei sb dev s.disk inum ip src off).map (s.hold inum)
  | .link inum nlink => s.locked inum fun ip => (iupdate sb s.disk inum { ip with nlink := nlink }).map fun d =>
      s.hold inum (⟨d, { ip with nlink := nlink }, ()⟩ : Done Unit)
  | .iput inum => if s.Last inum then .ofExcept (iput sb s inum) else .waits
  | .unref inum => if inum ∈ s.refs ∧ ¬ s.Last inum then .ofExcept (iput sb s inum) else .waits
  | .beginOp => s.beginOp
  | .endOp => .next s.endOp

/-- What the callers see to: a new inode has a type, only inodes that there are are used, no more
is written than a `uint` can count, and a system call that ends has begun. -/
def Orderly (s : State) : Event → Prop
  | .ialloc type => type ≠ 0
  | .ilock inum => inum < sb.ninodes
  | .writei _ src _ _ => src.length < 2 ^ 32
  | .endOp => 0 < s.disk.outstanding
  | _ => True

instance (s : State) (e : Event) : Decidable (Orderly sb s e) := by
  cases e <;> unfold Orderly <;> infer_instance

end CompilingToAssembly.Xv6.Fs
