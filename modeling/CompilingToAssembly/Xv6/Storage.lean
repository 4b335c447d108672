import CompilingToAssembly.Xv6.Files
import CompilingToAssembly.Library.Machine

/-! Runs of the file system, from a disk that `mkfs` has made.

Programs find in files what they wrote, whatever else is written, allocated and freed. Every
block in use has one place, and the kernel panics only where the disk, its inodes, `icache` or the
log are used up, or on a call that its callers do not make. -/
namespace CompilingToAssembly.Xv6.Fs
open Library

/-- What `mkfs` makes before it adds files. Its `balloc` marks the blocks below `nmeta`, whose
bits have to be in the first block of the map. -/
def formatted (sb : Superblock) : State :=
  ⟨⟨Function.update (fun _ _ => 0) sb.bmapstart ((List.range sb.nmeta).foldl setBit fun _ => 0), [], 0⟩, fun _ => none, []⟩

variable {sb : Superblock} {s s' : State} {e : Event} {es : List Event} {ip : Inode}

theorem readBit_foldl (ns : List Nat) (data : Block) (m : Nat) :
    readBit (ns.foldl setBit data) m = (decide (m ∈ ns) || readBit data m) := by
  induction ns generalizing data with
  | nil => simp
  | cons n ns ih =>
    rw [List.foldl_cons, ih, readBit_setBit]
    by_cases hn : m = n
    · simp [hn]
    · simp [hn, Ne.symm hn]

theorem formatted_used (h : sb.nmeta ≤ 4096) (b : Nat) : used sb (formatted sb).disk b = decide (b < sb.nmeta) := by
  rw [used, formatted, bblock]
  dsimp only
  by_cases hfirst : b < 4096
  · have hblock : b / 4096 + sb.bmapstart = sb.bmapstart := by omega
    rw [hblock, Function.update_self, readBit_foldl, Nat.mod_eq_of_lt hfirst]
    simp [readBit]
  · rw [Function.update_of_ne (by omega)]
    have hlt : ¬ b < sb.nmeta := by omega
    simp [readBit, hlt]

theorem takeDinode_zero (i : Nat) : takeDinode (fun _ => 0) i = .fresh 0 := by
  unfold takeDinode
  simp only [readLe_zero]
  rfl

theorem formatted_dinode (i : Fin sb.ninodes) : dinode sb (formatted sb).disk i = .fresh 0 := by
  have hne : iblock sb i ≠ sb.bmapstart := (iblock_lt i.isLt).ne
  rw [dinode, formatted]
  dsimp only
  rw [Function.update_of_ne hne]
  exact takeDinode_zero _

theorem formatted_valid (h : sb.nmeta ≤ 4096) : Valid sb (formatted sb) := by
  have hinode : ∀ i : Fin sb.ninodes, ((formatted sb).disk.view sb).inode i = .fresh 0 := formatted_dinode
  have hfull : ∀ i : Fin sb.ninodes, Full ((formatted sb).disk.view sb).block (((formatted sb).disk.view sb).inode i) 0 := by
    intro i
    rw [hinode i]
    exact full_empty fun _ => rfl
  have hheld : ∀ x, held sb ((formatted sb).disk.view sb) x = 0 := by
    intro x
    rw [held, hinode]
    by_cases hk : x.2 < 13
    · exact holds_addrs _ _ ⟨x.2, hk⟩
    · exact holds_of_empty _ _ (by omega) rfl
  have hused : ∀ b, ((formatted sb).disk.view sb).used b = decide (b < sb.nmeta) := formatted_used h
  refine ⟨⟨⟨fun b hb => ?_, fun x hx => ?_, fun x y hx _ => ?_, fun b hb _ hu => ?_⟩, fun i => ?_, fun i => ?_,
    fun i _ => ?_⟩, fun inum ip hcached => ?_, fun inum ip hcached => ?_, fun _ => rfl⟩
  · rw [hused]
    exact decide_eq_true hb
  · exact absurd (hheld x) hx
  · exact absurd (hheld x) hx
  · rw [hused, decide_eq_true_eq] at hu
    omega
  · have hsize : (((formatted sb).disk.view sb).inode i).size = 0 := by rw [hinode]; rfl
    rw [hsize]
    exact hfull i
  · rw [hinode]
    exact Nat.zero_le _
  · rw [hinode]
    rfl
  · cases hcached
  · cases hcached

theorem formatted_files : files sb (formatted sb).disk = fun _ => none := by
  funext j
  rw [files, View.files]
  by_cases hj : j < sb.ninodes
  · have hinode : ((formatted sb).disk.view sb).inode j = .fresh 0 := formatted_dinode ⟨j, hj⟩
    rw [if_pos hj, hinode]
    rfl
  · rw [if_neg hj]

/-- A disk with the log that `mkfs` makes, and six blocks for files. -/
def tiny : Superblock where
  size := 41
  nlog := 30
  logstart := 2
  ninodes := 8
  inodestart := 32
  bmapstart := 34
  nlog_pos := by decide
  log_fits := by decide
  size_le := by decide
  log_below := by decide
  inodes_below := by decide
  bmap_fits := by decide

/-! ### Files are as they were written -/

theorem Valid.run (h : Valid sb s) (hrun : Runs (step sb) (Orderly sb) s es s') :
    Valid sb s' ∧ files sb s'.disk = es.foldl (Store.step sb.ninodes) (files sb s.disk) := by
  induction hrun with
  | nil => exact ⟨h, rfl⟩
  | cons ha hn _ ih =>
    obtain ⟨hvalid, hfiles, _⟩ := h.next ha hn
    rw [List.foldl_cons, ← hfiles]
    exact ih hvalid

theorem valid_of_runs (h : sb.nmeta ≤ 4096) (hrun : Runs (step sb) (Orderly sb) (formatted sb) es s) : Valid sb s :=
  ((formatted_valid h).run hrun).1

/-- **Files are as they were written**, whichever blocks they have been given and whichever
inodes have been dropped from memory and read again: the files on the disk are those that the
operations make of an empty store, and `readi` returns what is in them, and writes nothing. -/
theorem files_as_written (h : sb.nmeta ≤ 4096) (hrun : Runs (step sb) (Orderly sb) (formatted sb) es s) :
    files sb s.disk = es.foldl (Store.step sb.ninodes) (fun _ => none) ∧
      ∀ inum ip, s.cache inum = some ip → ∃ f, files sb s.disk inum = some f ∧ ∀ off n dev,
        readi sb dev s.disk ip off n = .ok ⟨s.disk, ip, if f.type = tDev then dev else f.read off n⟩ := by
  obtain ⟨hvalid, hfiles⟩ := (formatted_valid h).run hrun
  rw [formatted_files] at hfiles
  exact ⟨hfiles, fun inum ip hcached => hvalid.readi hcached⟩

/-- A file is made, written and linked, and written once more when its inode is in memory anew. -/
def note : List Event :=
  [.beginOp, .ialloc 2, .ilock 1, .writei 1 [104, 101, 108, 108, 111] 0 none, .link 1 1, .iput 1, .endOp,
    .beginOp, .iget 1, .ilock 1, .writei 1 [112, 33] 3 none]

def noted : State := (Runs.go (step tiny) (Orderly tiny) (formatted tiny) note).getD (formatted tiny)

theorem noted_runs : Runs (step tiny) (Orderly tiny) (formatted tiny) note noted := Runs.of_go (by decide +kernel)

theorem files_as_written_noted :
    (files tiny noted.disk 1).map File.bytes = some [104, 101, 108, 112, 33] ∧
      ∀ inum ip, noted.cache inum = some ip → ∃ f, files tiny noted.disk inum = some f ∧ ∀ off n dev,
        readi tiny dev noted.disk ip off n = .ok ⟨noted.disk, ip, if f.type = tDev then dev else f.read off n⟩ := by
  obtain ⟨hfiles, hread⟩ := files_as_written (by decide) noted_runs
  refine ⟨?_, hread⟩
  rw [hfiles]
  decide +kernel

/-! ### Every block has one owner -/

/-- **A block is in use exactly if it is in one place of one inode**, or below the blocks of
files, and an inode has the blocks for its size, and no others. -/
theorem blocks_one_owner (h : sb.nmeta ≤ 4096) (hrun : Runs (step sb) (Orderly sb) (formatted sb) es s) :
    (∀ b < sb.size, used sb s.disk b = true ↔
      b < sb.nmeta ∨ ∃! x : Fin sb.ninodes × Nat, holds s.disk.block (dinode sb s.disk x.1) x.2 = b) ∧
    ∀ i : Fin sb.ninodes, ∀ k < 141, (holds s.disk.block (dinode sb s.disk i) k ≠ 0 →
        sb.nmeta ≤ holds s.disk.block (dinode sb s.disk i) k ∧ holds s.disk.block (dinode sb s.disk i) k < sb.size) ∧
      (holds s.disk.block (dinode sb s.disk i) k ≠ 0 ↔ start k < (dinode sb s.disk i).size) := by
  have hsound := (valid_of_runs h hrun).sound
  have hledger : Ledger sb.nmeta sb.size (used sb s.disk) (held sb (s.disk.view sb)) := hsound.accounted
  refine ⟨fun b hb => ⟨fun hu => ?_, fun howner => ?_⟩, fun i k hk => ⟨fun hne => ?_, hsound.full i k hk⟩⟩
  · by_cases hlow : b < sb.nmeta
    · exact .inl hlow
    · obtain ⟨x, hx⟩ := hledger.all b (by omega) hb hu
      have hpos := nmeta_pos sb
      refine .inr ⟨x, hx, fun y hy => hledger.inj y x ?_ (Eq.trans hy hx.symm)⟩
      change holds s.disk.block (dinode sb s.disk y.1) y.2 ≠ 0
      omega
  · rcases howner with hlow | ⟨x, hx, _⟩
    · exact hledger.below b hlow
    · by_cases hzero : b = 0
      · exact hledger.below b (hzero ▸ nmeta_pos sb)
      · have hne : held sb (s.disk.view sb) x ≠ 0 := fun heq => hzero (hx.symm.trans heq)
        exact hx ▸ (hledger.range x hne).2.2
  · obtain ⟨hlo, hhi, _⟩ := hledger.range (i, k) hne
    exact ⟨hlo, hhi⟩

theorem blocks_one_owner_noted :
    used tiny noted.disk 35 = true ∧ (35 < tiny.nmeta ∨
      ∃! x : Fin 8 × Nat, holds noted.disk.block (dinode tiny noted.disk x.1) x.2 = 35) :=
  have hused : used tiny noted.disk 35 = true := by decide +kernel
  ⟨hused, ((blocks_one_owner (by decide) noted_runs).1 35 (by decide)).mp hused⟩

/-! ### When the kernel panics -/

/-- A system call is under way, and `n` more blocks do not fill the log. -/
def Room (sb : Superblock) (d : Disk) (n : Nat) : Prop :=
  n = 0 ∨ (0 < d.outstanding ∧ d.logged.length + n < sb.full)

instance (sb : Superblock) (d : Disk) (n : Nat) : Decidable (Room sb d n) := inferInstanceAs (Decidable (_ ∨ _))

/-- With room for its blocks an operation is not stopped by `log_write`. -/
theorem Refuses.no_room {bs cs : List Nat} {m : String} {n : Nat} (h : Refuses sb bs s.disk m) (hsub : bs ⊆ cs)
    (hle : cs.length ≤ n) :
    ¬ Room sb s.disk n ∧ (m = "too big a transaction" ∨ m = "log_write outside of trans") := by
  have hpos : n ≠ 0 := by
    obtain ⟨_, b, _, _, hb, _⟩ := h
    have := List.length_pos_of_mem (hsub hb)
    omega
  rcases h.cause hsub with ⟨rfl, hfull⟩ | ⟨rfl, hout⟩
  · exact ⟨fun hroom => by have := hroom.resolve_left hpos; omega, .inl rfl⟩
  · exact ⟨fun hroom => by have := hroom.resolve_left hpos; omega, .inr rfl⟩

end CompilingToAssembly.Xv6.Fs
