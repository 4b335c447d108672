import CompilingToAssembly.Xv6.Logging

/-! Where on the disk the bit map, the inodes and the blocks of files are.

A `View` has the three apart from each other. The operations of `fs.c` that write one of them
leave the other two as they are. -/
namespace CompilingToAssembly.Xv6.Fs
open Library

/-! ### Inodes in a block -/

/-- The numbers of an inode fit their fields. -/
structure Inode.Fits (ip : Inode) : Prop where
  size : ip.size < 2 ^ 32
  addrs : ∀ k, ip.addrs k < 2 ^ 32

theorem ofNat_toNat_lt (c : UInt16) : c.toNat < 256 ^ 2 := c.toNat_lt

theorem takeDinode_putDinode (data : Block) (i : Nat) {ip : Inode} (h : ip.Fits) :
    takeDinode (putDinode data i ip) i = ip := by
  have hsize : ip.size < 256 ^ 4 := h.size
  have haddrs : ∀ k : Fin 13, readLe (putDinode data i ip) (64 * i + 12 + 4 * k) 4 = ip.addrs k := by
    intro k
    have hk := k.isLt
    rw [putDinode, readLe_writeLes hk (by rw [dif_pos hk]; exact h.addrs _), dif_pos hk]
  unfold takeDinode
  simp only [haddrs]
  simp only [putDinode]
  rw [readLe_writeLes_of_apart (by omega), readLe_writeLe_of_apart (by omega), readLe_writeLe_of_apart (by omega),
    readLe_writeLe_of_apart (by omega), readLe_writeLe_of_apart (by omega), readLe_writeLe (ofNat_toNat_lt _),
    readLe_writeLes_of_apart (by omega), readLe_writeLe_of_apart (by omega), readLe_writeLe_of_apart (by omega),
    readLe_writeLe_of_apart (by omega), readLe_writeLe (ofNat_toNat_lt _),
    readLe_writeLes_of_apart (by omega), readLe_writeLe_of_apart (by omega), readLe_writeLe_of_apart (by omega),
    readLe_writeLe (ofNat_toNat_lt _),
    readLe_writeLes_of_apart (by omega), readLe_writeLe_of_apart (by omega), readLe_writeLe (ofNat_toNat_lt _),
    readLe_writeLes_of_apart (by omega), readLe_writeLe hsize]
  simp only [UInt16.ofNat_toNat]

theorem putDinode_eq_of_apart (data : Block) {i j : Nat} (ip : Inode) (hj : j < 64 * i ∨ 64 * i + 64 ≤ j) :
    putDinode data i ip j = data j := by
  simp only [putDinode, writeLes, writeLe]
  rw [if_neg (by omega), if_neg (by omega), if_neg (by omega), if_neg (by omega), if_neg (by omega), if_neg (by omega)]

theorem takeDinode_congr {data data' : Block} {i : Nat} (h : ∀ j, 64 * i ≤ j → j < 64 * i + 64 → data' j = data j) :
    takeDinode data' i = takeDinode data i := by
  have hread : ∀ a k, 64 * i ≤ a → a + k ≤ 64 * i + 64 → readLe data' a k = readLe data a k := fun a k ha hk =>
    readLe_congr fun j hj hjk => h j (by omega) (by omega)
  unfold takeDinode
  rw [hread _ 2 (by omega) (by omega), hread _ 2 (by omega) (by omega), hread _ 2 (by omega) (by omega),
    hread _ 2 (by omega) (by omega), hread _ 4 (by omega) (by omega)]
  congr 1
  funext k
  exact hread _ 4 (by omega) (by omega)

theorem takeDinode_putDinode_of_ne (data : Block) {i j : Nat} (ip : Inode) (h : i ≠ j) :
    takeDinode (putDinode data i ip) j = takeDinode data j :=
  takeDinode_congr fun _ _ _ => putDinode_eq_of_apart data ip (by omega)

/-! ### Views -/

structure View where
  used : Nat → Bool
  inode : Nat → Inode
  block : Nat → Block

variable {sb : Superblock} {d : Disk} {v : View} {b i : Nat} {ip : Inode} {data : Block} {bs : List Nat}

structure Shows (sb : Superblock) (d : Disk) (v : View) : Prop where
  used : ∀ b < sb.size, Fs.used sb d b = v.used b
  inode : ∀ i < sb.ninodes, dinode sb d i = v.inode i
  block : ∀ b, sb.nmeta ≤ b → d.block b = v.block b

namespace View

def mark (v : View) (b : Nat) (u : Bool) : View := { v with used := Function.update v.used b u }

def put (v : View) (b : Nat) (data : Block) : View := { v with block := Function.update v.block b data }

def setInode (v : View) (i : Nat) (ip : Inode) : View := { v with inode := Function.update v.inode i ip }

@[simp] theorem mark_used (v : View) (b : Nat) (u : Bool) : (v.mark b u).used = Function.update v.used b u := rfl
@[simp] theorem mark_inode (v : View) (b : Nat) (u : Bool) : (v.mark b u).inode = v.inode := rfl
@[simp] theorem mark_block (v : View) (b : Nat) (u : Bool) : (v.mark b u).block = v.block := rfl
@[simp] theorem put_used (v : View) (b : Nat) (data : Block) : (v.put b data).used = v.used := rfl
@[simp] theorem put_inode (v : View) (b : Nat) (data : Block) : (v.put b data).inode = v.inode := rfl
@[simp] theorem put_block (v : View) (b : Nat) (data : Block) :
    (v.put b data).block = Function.update v.block b data := rfl
@[simp] theorem setInode_used (v : View) (i : Nat) (ip : Inode) : (v.setInode i ip).used = v.used := rfl
@[simp] theorem setInode_inode (v : View) (i : Nat) (ip : Inode) :
    (v.setInode i ip).inode = Function.update v.inode i ip := rfl
@[simp] theorem setInode_block (v : View) (i : Nat) (ip : Inode) : (v.setInode i ip).block = v.block := rfl

end View

theorem iblock_lt (hi : i < sb.ninodes) : iblock sb i < sb.bmapstart := by
  have := sb.inodes_below
  rw [iblock]
  omega

theorem bblock_ge (b : Nat) : sb.bmapstart ≤ bblock sb b := Nat.le_add_left ..

theorem bblock_lt (hb : b < sb.size) : bblock sb b < sb.nmeta := by
  rw [bblock, Superblock.nmeta]
  omega

theorem nmeta_le (sb : Superblock) : sb.nmeta ≤ sb.size := sb.bmap_fits

theorem bmapstart_lt (sb : Superblock) : sb.bmapstart < sb.nmeta := by
  rw [Superblock.nmeta]
  omega

theorem home_iblock (hi : i < sb.ninodes) : Log.Home sb.toSuperblock (iblock sb i) :=
  home_of_ge (Nat.le_add_left ..) ((iblock_lt hi).trans ((bmapstart_lt sb).trans_le (nmeta_le sb)))

theorem home_bblock (hb : b < sb.size) : Log.Home sb.toSuperblock (bblock sb b) := by
  have := sb.inodes_below
  exact home_of_ge ((by omega : sb.inodestart ≤ sb.bmapstart).trans (bblock_ge b)) ((bblock_lt hb).trans_le (nmeta_le sb))

theorem home_block (hge : sb.nmeta ≤ b) (hlt : b < sb.size) : Log.Home sb.toSuperblock b := by
  have := sb.inodes_below
  have := bmapstart_lt sb
  exact home_of_ge (by omega) hlt

theorem Disk.note_self (d : Disk) (b : Nat) (data : Block) : (d.note b data).block b = data :=
  Function.update_self ..

theorem Disk.note_of_ne {c : Nat} (h : c ≠ b) : (d.note b data).block c = d.block c :=
  Function.update_of_ne h ..

/-- A block of a file is written. -/
theorem Shows.put (h : Shows sb d v) (hb : sb.nmeta ≤ b) (data : Block) : Shows sb (d.note b data) (v.put b data) := by
  refine ⟨fun c hc => ?_, fun i hi => ?_, fun c hc => ?_⟩
  · have hne : bblock sb c ≠ b := ((bblock_lt hc).trans_le hb).ne
    rw [Fs.used, Disk.note_of_ne hne]
    exact h.used c hc
  · have hne : iblock sb i ≠ b := ((iblock_lt hi).trans ((bmapstart_lt sb).trans_le hb)).ne
    rw [dinode, Disk.note_of_ne hne]
    exact h.inode i hi
  · by_cases hcb : c = b
    · rw [hcb, Disk.note_self, View.put_block, Function.update_self]
    · rw [Disk.note_of_ne hcb, View.put_block, Function.update_of_ne hcb]
      exact h.block c hc

/-- A block of the bit map is written. -/
theorem Shows.bits (h : Shows sb d v) (hb : b < sb.size) {u : Bool}
    (hdata : ∀ c, readBit data c = if c = b % 4096 then u else readBit (d.block (bblock sb b)) c) :
    Shows sb (d.note (bblock sb b) data) (v.mark b u) := by
  refine ⟨fun c hc => ?_, fun i hi => ?_, fun c hc => ?_⟩
  · have hold := h.used c hc
    rw [Fs.used] at hold ⊢
    rw [View.mark_used]
    by_cases hblock : bblock sb c = bblock sb b
    · rw [hblock, Disk.note_self, hdata]
      by_cases hcb : c = b
      · rw [hcb, Function.update_self, if_pos rfl]
      · have hbit : c % 4096 ≠ b % 4096 := by
          simp only [bblock] at hblock
          omega
        rw [Function.update_of_ne hcb, if_neg hbit, ← hold, hblock]
    · have hcb : c ≠ b := fun heq => hblock (heq ▸ rfl)
      rw [Disk.note_of_ne hblock, Function.update_of_ne hcb]
      exact hold
  · have hne : iblock sb i ≠ bblock sb b := ((iblock_lt hi).trans_le (bblock_ge b)).ne
    rw [dinode, Disk.note_of_ne hne]
    exact h.inode i hi
  · have hne : c ≠ bblock sb b := ((bblock_lt hb).trans_le hc).ne'
    rw [Disk.note_of_ne hne]
    exact h.block c hc

/-- A block of inodes is written. -/
theorem Shows.dinode (h : Shows sb d v) (hi : i < sb.ninodes) (hip : ip.Fits) :
    Shows sb (d.note (iblock sb i) (putDinode (d.block (iblock sb i)) (i % 8) ip)) (v.setInode i ip) := by
  refine ⟨fun c hc => ?_, fun j hj => ?_, fun c hc => ?_⟩
  · have hne : bblock sb c ≠ iblock sb i := ((iblock_lt hi).trans_le (bblock_ge c)).ne'
    rw [Fs.used, Disk.note_of_ne hne]
    exact h.used c hc
  · have hold := h.inode j hj
    rw [Fs.dinode] at hold ⊢
    rw [View.setInode_inode]
    by_cases hblock : iblock sb j = iblock sb i
    · rw [hblock, Disk.note_self]
      by_cases hji : j = i
      · rw [hji, Function.update_self, takeDinode_putDinode _ _ hip]
      · have hplace : i % 8 ≠ j % 8 := by
          simp only [iblock] at hblock
          omega
        rw [Function.update_of_ne hji, takeDinode_putDinode_of_ne _ _ hplace, ← hold, hblock]
    · have hji : j ≠ i := fun heq => hblock (heq ▸ rfl)
      rw [Disk.note_of_ne hblock, Function.update_of_ne hji]
      exact hold
  · have hne : c ≠ iblock sb i := ((iblock_lt hi).trans ((bmapstart_lt sb).trans_le hc)).ne'
    rw [Disk.note_of_ne hne]
    exact h.block c hc

theorem Shows.iupdate (h : Shows sb d v) (hi : i < sb.ninodes) (hip : ip.Fits) (hbs : iblock sb i ∈ bs) :
    Ends (fun d' => Shows sb d' (v.setInode i ip) ∧ Logs sb bs d d') (Refuses sb bs d) (iupdate sb d i ip) := by
  refine (logWrite_logs d hbs (home_iblock hi) _).mono (fun d' hd' => ?_) fun _ hm => hm
  obtain ⟨rfl, hlogs⟩ := hd'
  exact ⟨h.dinode hi hip, hlogs⟩

/-! ### `balloc` and `bfree` -/

/-- Block `b` has been allocated. -/
def View.claim (v : View) (b : Nat) : View := (v.mark b true).put b fun _ => 0

theorem Shows.balloc (h : Shows sb d v) (hbelow : ∀ b < sb.nmeta, v.used b = true) :
    Ends
      (fun r => v.used r.block = false ∧ r.block < sb.size ∧ Shows sb r.disk (v.claim r.block) ∧
        Logs sb [bblock sb r.block, r.block] d r.disk)
      (fun m => (∃ b < sb.size, Refuses sb [bblock sb b, b] d m) ∨
        (m = "balloc: out of blocks" ∧ ∀ b < sb.size, v.used b = true))
      (balloc sb d) := by
  unfold Fs.balloc
  cases hfind : (List.range sb.size).find? fun b => !Fs.used sb d b with
  | none =>
    refine .error (.inr ⟨rfl, fun b hb => ?_⟩)
    have hused := List.find?_eq_none.mp hfind b (List.mem_range.mpr hb)
    rw [h.used b hb] at hused
    simpa using hused
  | some b =>
    have hb : b < sb.size := List.mem_range.mp (List.mem_of_find?_eq_some hfind)
    have hfree : v.used b = false := by
      have hfound := List.find?_some hfind
      rw [h.used b hb] at hfound
      simpa using hfound
    have hge : sb.nmeta ≤ b := by
      by_contra hlt
      rw [hbelow b (by omega)] at hfree
      cases hfree
    have hbit : bblock sb b ∈ [bblock sb b, b] := by simp
    have hself : b ∈ [bblock sb b, b] := by simp
    refine (logWrite_logs d hbit (home_bblock hb) _).bind
      (fun m hm => .inl ⟨b, hb, hm⟩) fun d₁ hd₁ => ?_
    obtain ⟨rfl, hlogs⟩ := hd₁
    refine (logWrite_logs _ hself (home_block hge hb) _).map
      (fun m hm => .inl ⟨b, hb, hm.after hlogs⟩) fun d₂ hd₂ => ?_
    obtain ⟨rfl, hlogs₂⟩ := hd₂
    refine ⟨hfree, hb, (h.bits hb fun c => ?_).put hge _, hlogs.trans hlogs₂⟩
    rw [readBit_setBit]
    by_cases hc : c = b % 4096
    · simp [hc]
    · simp [hc, Ne.symm hc]

theorem Shows.bfree (h : Shows sb d v) (hb : b < sb.size) (hused : v.used b = true) (hbs : bblock sb b ∈ bs) :
    Ends (fun d' => Shows sb d' (v.mark b false) ∧ Logs sb bs d d') (Refuses sb bs d) (bfree sb d b) := by
  rw [Fs.bfree, if_pos ((h.used b hb).trans hused)]
  refine (logWrite_logs d hbs (home_bblock hb) _).mono (fun d' hd' => ?_) fun _ hm => hm
  obtain ⟨rfl, hlogs⟩ := hd'
  refine ⟨h.bits hb fun c => ?_, hlogs⟩
  rw [readBit_clearBit]
  by_cases hc : c = b % 4096
  · simp [hc]
  · simp [hc, Ne.symm hc]

end CompilingToAssembly.Xv6.Fs
