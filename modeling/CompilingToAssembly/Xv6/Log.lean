import CompilingToAssembly.Library.Machine
import CompilingToAssembly.Library.Outcome

/-! `log.c`: the redo log of the file system, with the buffers it works on.

A system call brackets its updates with `begin_op` and `end_op`; `log_write` records a
changed buffer in the log's header in memory and pins it in the cache. When the last
system call under way ends, `commit` writes the pinned buffers to the log on the disk,
then the header, then the buffers to their home blocks, and erases the header.

The kernel's processes take turns in any order, and the power may fail between any two
writes of the disk. `todo` is what the process in `commit` or `recover_from_log` has
still to do; each `Action` is the body of one of their loops, or one statement, and does
at most one write. -/
namespace CompilingToAssembly.Xv6.Log
open Library

def maxOpBlocks : Nat := 10
def logSize : Nat := maxOpBlocks * 3

/-- The part of the super block that the log uses. There is a block for the header, the
log's blocks are on the disk, and a block's number fits a word. -/
structure Superblock where
  size : Nat
  nlog : Nat
  logstart : Nat
  nlog_pos : 0 < nlog
  log_fits : logstart + nlog ≤ size
  size_le : size ≤ 2 ^ 32

theorem logSize_pos : 0 < logSize := by decide
theorem log_fits_image : 2 + logSize ≤ 1000 := by decide
theorem image_le : 1000 ≤ 2 ^ 32 := by decide

/-- At so many blocks `log_write` refuses. -/
def Superblock.full (sb : Superblock) : Nat := min logSize (sb.nlog - 1)

/-- The super block that `mkfs` writes. -/
def mkfs : Superblock := ⟨1000, logSize, 2, logSize_pos, log_fits_image, image_le⟩

/-- A block that is not one of the log's own. -/
def Home (sb : Superblock) (b : Nat) : Prop :=
  b < sb.size ∧ (b < sb.logstart ∨ sb.logstart + sb.nlog ≤ b)

instance (sb : Superblock) (b : Nat) : Decidable (Home sb b) := inferInstanceAs (Decidable (_ ∧ _))

/-! ### Blocks and the header -/

/-- The 512 bytes of a block, as 128 words. -/
def Block : Type := Fin 128 → UInt32

def Block.word (data : Block) (i : Nat) : UInt32 := if h : i < 128 then data ⟨i, h⟩ else 0

def Block.setWord (data : Block) (i : Nat) (w : UInt32) : Block := fun j => if j.val = i then w else data j

/-- The loop that fills `hb->block[i]` and what follows it. -/
def putBlocks : Nat → List Nat → Block → Block
  | _, [], hb => hb
  | i, b :: bs, hb => putBlocks (i + 1) bs (hb.setWord (i + 1) (UInt32.ofNat b))

/-- The header `write_head` leaves in the buffer: `hb->n`, then `hb->block`. -/
def fillHead (lh : List Nat) (hb : Block) : Block :=
  putBlocks 0 lh (hb.setWord 0 (UInt32.ofNat lh.length))

/-- The header as `read_head` takes it from the buffer. -/
def takeHead (hb : Block) : List Nat :=
  (List.range (hb.word 0).toNat).map fun i => (hb.word (i + 1)).toNat

/-! ### The state -/

structure Buf where
  data : Block
  dirty : Bool

inductive Action where
  /-- The body of the loop of `write_log`. -/
  | copy (tail : Nat)
  /-- The body of the loop of `install_trans`. -/
  | install (tail : Nat)
  | readHead
  | writeHead
  /-- `log.lh.n = 0`. -/
  | clear
  /-- Back in `end_op` from `commit`, or from `initlog`. -/
  | done
  deriving DecidableEq

/-- `lh` holds `log.lh.block[0..n)`, and `ops p` the blocks that the system call of process
`p` has logged, each once. -/
structure State (P : Type) where
  disk : Nat → Block
  cache : Nat → Option Buf
  lh : List Nat
  outstanding : Nat
  committing : Bool
  recovering : Bool
  ops : P → Option (List Nat)
  todo : List Action

inductive Event (P : Type) where
  | beginOp (p : P)
  /-- Process `p` changes the buffer of block `b` to `data` and calls `log_write`. -/
  | logWrite (p : P) (b : Nat) (data : Block)
  | endOp (p : P)
  | bread (b : Nat)
  /-- `bget` takes the buffer of block `b` for another block. -/
  | recycle (b : Nat)
  /-- The process in `commit` or `recover_from_log` does the next thing. -/
  | proceed
  | crash

variable {P : Type}

namespace State

/-- What `bread` finds in block `b`. -/
def view (s : State P) (b : Nat) : Block := ((s.cache b).map Buf.data).getD (s.disk b)

def bread (s : State P) (b : Nat) : State P :=
  { s with cache := Function.update s.cache b (some ((s.cache b).getD ⟨s.disk b, false⟩)) }

/-- Change the buffer of block `b` to `data` and write it to the disk. -/
def bwrite (s : State P) (b : Nat) (data : Block) : State P :=
  { s with
    cache := Function.update s.cache b (some ⟨data, false⟩)
    disk := Function.update s.disk b data }

end State

/-! ### `commit` and `recover_from_log` -/

section Commit
variable (sb : Superblock)

/-- Block `log.start+tail+1`. -/
def slot (tail : Nat) : Nat := sb.logstart + tail + 1

def writeLog (n : Nat) : List Action := (List.range n).map .copy

def installTrans (n : Nat) : List Action := (List.range n).map .install

def commit (n : Nat) : List Action :=
  (if 0 < n then writeLog n ++ [.writeHead] ++ installTrans n ++ [.clear, .writeHead] else []) ++ [.done]

/-- What `recover_from_log` does once the header is read. -/
def recover (n : Nat) : List Action := installTrans n ++ [.clear, .writeHead] ++ [.done]

def perform (s : State P) : Action → State P
  | .copy tail =>
    let s := (s.bread (slot sb tail)).bread (s.lh.getD tail 0)
    s.bwrite (slot sb tail) (s.view (s.lh.getD tail 0))
  | .install tail =>
    let s := (s.bread (slot sb tail)).bread (s.lh.getD tail 0)
    s.bwrite (s.lh.getD tail 0) (s.view (slot sb tail))
  | .readHead =>
    let s := s.bread sb.logstart
    let lh := takeHead (s.view sb.logstart)
    { s with lh := lh, todo := recover lh.length }
  | .writeHead =>
    let s := s.bread sb.logstart
    s.bwrite sb.logstart (fillHead s.lh (s.view sb.logstart))
  | .clear => { s with lh := [] }
  | .done => { s with committing := false, recovering := false }

/-- Power comes back: memory is lost, and the first process starts `recover_from_log`. -/
def boot (disk : Nat → Block) : State P where
  disk := disk
  cache := fun _ => none
  lh := []
  outstanding := 0
  committing := false
  recovering := true
  ops := fun _ => none
  todo := [.readHead]

/-- The loop of `log_write`: the first entry that is `b` is taken again, else one is added. -/
def absorb (lh : List Nat) (b : Nat) : List Nat :=
  let i := lh.findIdx (· == b)
  if i = lh.length then lh ++ [b] else lh.set i b

/-- `log_write` of block `b`: what becomes of the blocks in the header, or why it stops the kernel. -/
def logWrite (outstanding : Nat) (lh : List Nat) (b : Nat) : Except String (List Nat) :=
  if lh.length ≥ logSize ∨ lh.length ≥ sb.nlog - 1 then .error "too big a transaction"
  else if outstanding < 1 then .error "log_write outside of trans"
  else .ok (absorb lh b)

variable [DecidableEq P]

def step (s : State P) : Event P → Turn (State P)
  | .beginOp p =>
    -- until `initlog` returns there is no process that could call `begin_op`
    if s.recovering then .waits
    else if s.committing then .waits
    else if s.lh.length + (s.outstanding + 1) * maxOpBlocks > logSize then .waits
    else .next { s with outstanding := s.outstanding + 1, ops := Function.update s.ops p (some []) }
  | .logWrite p b data => .ofExcept ((logWrite sb s.outstanding s.lh b).map fun lh => { s with
      cache := Function.update s.cache b (some ⟨data, true⟩)
      lh := lh
      ops := Function.update s.ops p ((s.ops p).map (absorb · b)) })
  | .endOp p =>
    if s.committing then .panics "log.committing"
    else if s.outstanding - 1 = 0 then .next { s with
      outstanding := s.outstanding - 1
      ops := Function.update s.ops p none
      committing := true
      todo := commit s.lh.length }
    else .next { s with outstanding := s.outstanding - 1, ops := Function.update s.ops p none }
  | .bread b => .next (s.bread b)
  | .recycle b =>
    match s.cache b with
    | some ⟨_, false⟩ => .next { s with cache := Function.update s.cache b none }
    | _ => .waits
  | .proceed =>
    match s.todo with
    | [] => .waits
    | a :: rest => .next (perform sb { s with todo := rest } a)
  | .crash => .next (boot s.disk)

end Commit

/-! ### What the file system keeps to -/

/-- A process calls `log_write` and `end_op` inside a system call, which is inside no
other, and changes none of the log's own blocks. -/
def Orderly (sb : Superblock) (s : State P) : Event P → Prop
  | .beginOp p => s.ops p = none
  | .logWrite p b _ => (s.ops p).isSome ∧ Home sb b
  | .endOp p => (s.ops p).isSome
  | _ => True

instance (sb : Superblock) (s : State P) (e : Event P) : Decidable (Orderly sb s e) :=
  match e with
  | .beginOp p => inferInstanceAs (Decidable (s.ops p = none))
  | .logWrite p b _ => inferInstanceAs (Decidable ((s.ops p).isSome ∧ Home sb b))
  | .endOp p => inferInstanceAs (Decidable (s.ops p).isSome)
  | .bread _ => .isTrue trivial
  | .recycle _ => .isTrue trivial
  | .proceed => .isTrue trivial
  | .crash => .isTrue trivial

/-- Besides, no system call logs more than `k` blocks. A block that it logs again counts
once. -/
def Frugal (k : Nat) (sb : Superblock) (s : State P) (e : Event P) : Prop :=
  Orderly sb s e ∧ ∀ p b data, e = .logWrite p b data → ∀ bs ∈ s.ops p, (absorb bs b).length ≤ k

/-! ### The header in its block -/

theorem word_setWord (hb : Block) (w : UInt32) {i j : Nat} (hj : j < 128) :
    (hb.setWord i w).word j = if j = i then w else hb.word j := by
  simp [Block.word, Block.setWord, hj]

theorem word_putBlocks (i : Nat) (bs : List Nat) (hb : Block) {j : Nat} (hj : j < 128) :
    (putBlocks i bs hb).word j =
      if i < j then (bs[j - (i + 1)]?.map UInt32.ofNat).getD (hb.word j) else hb.word j := by
  induction bs generalizing i hb with
  | nil => simp [putBlocks]
  | cons b bs ih =>
    rw [putBlocks, ih, word_setWord _ _ hj]
    by_cases hij : i < j
    · rw [if_pos hij]
      by_cases hnext : i + 1 < j
      · have hsub : j - (i + 1) = (j - (i + 1 + 1)) + 1 := by omega
        rw [if_pos hnext, if_neg (by omega), hsub, List.getElem?_cons_succ]
      · obtain rfl : j = i + 1 := by omega
        simp
    · rw [if_neg hij, if_neg (by omega), if_neg (by omega)]

/-- `read_head` finds what `write_head` wrote. -/
theorem takeHead_fillHead {lh : List Nat} (hb : Block) (hlen : lh.length ≤ logSize)
    (hsmall : ∀ b ∈ lh, b < 2 ^ 32) : takeHead (fillHead lh hb) = lh := by
  have hbound : lh.length < 128 := lt_of_le_of_lt hlen (by decide)
  have hn : ((fillHead lh hb).word 0).toNat = lh.length := by
    rw [fillHead, word_putBlocks 0 lh _ (by omega), if_neg (by omega), word_setWord _ _ (by omega), if_pos rfl]
    exact UInt32.toNat_ofNat_of_lt' (lt_trans hbound (by decide))
  apply List.ext_getElem
  · simp [takeHead, hn]
  · intro i hi hi'
    have hw : (fillHead lh hb).word (i + 1) = UInt32.ofNat lh[i] := by
      rw [fillHead, word_putBlocks 0 lh _ (by omega), if_pos (by omega)]
      simp [hi']
    simp only [takeHead, List.getElem_map, List.getElem_range, hw]
    exact UInt32.toNat_ofNat_of_lt' (hsmall _ (List.getElem_mem hi'))

theorem absorb_eq (lh : List Nat) (b : Nat) : absorb lh b = if b ∈ lh then lh else lh ++ [b] := by
  unfold absorb
  by_cases hb : b ∈ lh
  · have hlt : lh.findIdx (· == b) < lh.length := List.findIdx_lt_length_of_exists ⟨b, hb, beq_self_eq_true b⟩
    have hget : lh[lh.findIdx (· == b)] = b := by simpa using List.findIdx_getElem (w := hlt)
    have hset := List.set_getElem_self hlt
    rw [hget] at hset
    rw [if_pos hb, if_neg (by omega), hset]
  · have hnone : lh.findIdx (· == b) = lh.length := by
      apply List.findIdx_eq_length.mpr
      intro x hx
      simpa using fun h : x = b => hb (h ▸ hx)
    rw [if_neg hb, if_pos hnone]

theorem absorb_of_mem {lh : List Nat} {b : Nat} (h : b ∈ lh) : absorb lh b = lh := by
  rw [absorb_eq, if_pos h]

theorem absorb_of_notMem {lh : List Nat} {b : Nat} (h : b ∉ lh) : absorb lh b = lh ++ [b] := by
  rw [absorb_eq, if_neg h]

theorem mem_absorb {lh : List Nat} {b c : Nat} : c ∈ absorb lh b ↔ c ∈ lh ∨ c = b := by
  by_cases hb : b ∈ lh
  · rw [absorb_of_mem hb]
    exact ⟨.inl, fun h => h.elim id fun heq => heq ▸ hb⟩
  · rw [absorb_of_notMem hb, List.mem_append, List.mem_singleton]

/-! ### `log_write` -/

section LogWrite
variable {sb : Superblock} {lh : List Nat} {outstanding b : Nat}

theorem logWrite_of_room (b : Nat) (hroom : lh.length < sb.full) (hout : 0 < outstanding) :
    logWrite sb outstanding lh b = .ok (absorb lh b) := by
  unfold Superblock.full at hroom
  rw [logWrite, if_neg (by omega), if_neg (by omega)]

theorem logWrite_of_full (outstanding b : Nat) (hfull : sb.full ≤ lh.length) :
    logWrite sb outstanding lh b = .error "too big a transaction" := by
  unfold Superblock.full at hfull
  rw [logWrite, if_pos (by omega)]

theorem logWrite_outside (b : Nat) (hroom : lh.length < sb.full) :
    logWrite sb 0 lh b = .error "log_write outside of trans" := by
  unfold Superblock.full at hroom
  rw [logWrite, if_neg (by omega), if_pos Nat.one_pos]

/-- `log_write` returns only where the log has room and a system call is under way. -/
theorem logWrite_ends (sb : Superblock) (outstanding : Nat) (lh : List Nat) (b : Nat) :
    Ends (fun lh' => lh' = absorb lh b ∧ lh.length < sb.full ∧ 0 < outstanding)
      (fun m => (m = "too big a transaction" ∧ sb.full ≤ lh.length) ∨ (m = "log_write outside of trans" ∧ outstanding = 0))
      (logWrite sb outstanding lh b) := by
  by_cases hfull : sb.full ≤ lh.length
  · rw [logWrite_of_full outstanding b hfull]
    exact .error (.inl ⟨rfl, hfull⟩)
  · rcases Nat.eq_zero_or_pos outstanding with rfl | hout
    · rw [logWrite_outside b (by omega)]
      exact .error (.inr ⟨rfl, rfl⟩)
    · rw [logWrite_of_room b (by omega) hout]
      exact .ok ⟨rfl, by omega, hout⟩

variable {P : Type} [DecidableEq P] {s s' : State P} {p : P} {data : Block}

/-- What a `log_write` that returns has done. -/
theorem of_step_logWrite (h : step sb s (.logWrite p b data) = .next s') :
    s' = { s with
      cache := Function.update s.cache b (some ⟨data, true⟩)
      lh := absorb s.lh b
      ops := Function.update s.ops p ((s.ops p).map (absorb · b)) } ∧
    s.lh.length < sb.full ∧ 0 < s.outstanding := by
  obtain ⟨lh, hlh, rfl⟩ := map_ok (Turn.ofExcept_next h)
  obtain ⟨rfl, hroom, hout⟩ := (logWrite_ends sb s.outstanding s.lh b).of_ok hlh
  exact ⟨rfl, hroom, hout⟩

end LogWrite

end CompilingToAssembly.Xv6.Log
