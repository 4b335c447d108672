import CompilingToAssembly.Xv6.Contents
import Mathlib.Data.List.Find

/-! Files, as programs see them: a type, a number of links and a string of bytes.

`Store.step` says what each operation does to them. The inodes, the bit map and the blocks of
`fs.c` do the same, whichever copies of inodes are dropped from memory meanwhile. -/
namespace CompilingToAssembly.Xv6.Fs
open Library

/-! ### What the file system is for -/

structure File where
  type : UInt16
  nlink : UInt16
  bytes : List UInt8

abbrev Store : Type := Nat → Option File

/-- What `writei` makes of the bytes of a file. -/
def File.write (f : File) (src : List UInt8) (off : Nat) : File :=
  { f with bytes := f.bytes.take off ++ src ++ f.bytes.drop (off + src.length) }

/-- What `readi` returns. -/
def File.read (f : File) (off n : UInt32) : Option (List UInt8) :=
  if off.toNat > f.bytes.length ∨ off + n < off then none else some ((f.bytes.drop off.toNat).take n.toNat)

/-- `writei` returns -1. -/
def File.refuses (f : File) (n off : UInt32) : Prop :=
  off.toNat > f.bytes.length ∨ off + n < off ∨ (off + n).toNat > 140 * 512

instance (f : File) (n off : UInt32) : Decidable (f.refuses n off) := inferInstanceAs (Decidable (_ ∨ _))

/-- The first number that no file has. -/
def Store.vacant (ninodes : Nat) (fs : Store) : Option Nat :=
  (List.range ninodes).find? fun i => decide (1 ≤ i) && (fs i).isNone

def Store.step (ninodes : Nat) (fs : Store) : Event → Store
  | .ialloc type =>
    match fs.vacant ninodes with
    | none => fs
    | some i => Function.update fs i (some ⟨type, 0, []⟩)
  | .writei inum src off _ =>
    Function.update fs inum ((fs inum).map fun f =>
      if f.type = tDev ∨ f.refuses (.ofNat src.length) off then f else f.write src off.toNat)
  | .link inum nlink => Function.update fs inum ((fs inum).map fun f => { f with nlink := nlink })
  | .iput inum => Function.update fs inum ((fs inum).bind fun f => if f.nlink = 0 then none else some f)
  | _ => fs

/-- There is no entry in `icache` for another inode. -/
def entryStops (refs : List Nat) (inum : Nat) : Option String :=
  if inum ∉ refs ∧ ninode ≤ refs.dedup.length then some "iget: no inodes" else none

/-- Why an operation cannot be done, with `free` blocks left. -/
def Store.stops (ninodes free : Nat) (refs : List Nat) (fs : Store) : Event → Option String
  | .ialloc _ =>
    match fs.vacant ninodes with
    | none => some "ialloc: no inodes"
    | some i => entryStops refs i
  | .iget inum => entryStops refs inum
  | .ilock inum => if inum ∉ refs then some "ilock" else if (fs inum).isNone then some "ilock: no type" else none
  | .writei inum src off _ => (fs inum).bind fun f =>
    if f.type = tDev ∨ f.refuses (.ofNat src.length) off then none
    else if free < needed f.bytes.length (off.toNat + src.length) then some "balloc: out of blocks"
    else none
  | _ => none

/-- How many blocks an operation writes at most: for `writei` those of the bit map for new blocks,
one in each turn, the block of numbers and the inode, and for `iput` the bit map and the inode. -/
def Store.writes (sb : Superblock) (fs : Store) : Event → Nat
  | .ialloc _ => 1
  | .writei inum src off _ => (fs inum).elim 0 fun f =>
    if f.type = tDev ∨ f.refuses (.ofNat src.length) off then 0
    else needed f.bytes.length (off.toNat + src.length) + turns off.toNat src.length + 2
  | .link _ _ => 1
  | .iput _ => sb.size / 4096 + 2
  | _ => 0

/-! ### The files on a disk -/

def fileOf (block : Nat → Block) (ip : Inode) : Option File :=
  if ip.type = 0 then none else some ⟨ip.type, ip.nlink, (List.range ip.size).map (content block ip)⟩

def View.files (sb : Superblock) (v : View) : Store := fun i =>
  if i < sb.ninodes then fileOf v.block (v.inode i) else none

def Disk.view (sb : Superblock) (d : Disk) : View := ⟨used sb d, dinode sb d, d.block⟩

def files (sb : Superblock) (d : Disk) : Store := (d.view sb).files sb

/-- No block is in two places or in none, and files have the blocks they need. -/
structure Sound (sb : Superblock) (v : View) : Prop where
  accounted : Accounted sb v
  full : ∀ i : Fin sb.ninodes, Full v.block (v.inode i) (v.inode i).size
  size_le : ∀ i : Fin sb.ninodes, (v.inode i).size ≤ 140 * 512
  free : ∀ i : Fin sb.ninodes, (v.inode i).type = 0 → (v.inode i).size = 0

/-- The copies in memory are as on the disk, and somebody refers to them. The log is empty while
no system call is under way. -/
structure Valid (sb : Superblock) (s : State) : Prop where
  sound : Sound sb (s.disk.view sb)
  cached : ∀ inum ip, s.cache inum = some ip → inum < sb.ninodes ∧ ip = dinode sb s.disk inum ∧ ip.type ≠ 0
  referred : ∀ inum ip, s.cache inum = some ip → inum ∈ s.refs
  idle : s.disk.outstanding = 0 → s.disk.logged = []

variable {sb : Superblock} {d : Disk} {v v' : View} {i : Fin sb.ninodes} {ip ip' : Inode} {s s' : State} {bs : List Nat}

theorem shows_view (sb : Superblock) (d : Disk) : Shows sb d (d.view sb) := ⟨fun _ _ => rfl, fun _ _ => rfl, fun _ _ => rfl⟩

theorem setInode_eq_self (v : View) (i : Nat) : v.setInode i (v.inode i) = v := by
  rw [View.setInode, Function.update_eq_self]

theorem Accounted.self (h : Accounted sb v) (i : Fin sb.ninodes) : Accounted sb (v.setInode i (v.inode i)) := by
  rw [setInode_eq_self]
  exact h

/-- The places of an inode, on the disk and in a view of it. -/
theorem Shows.holds_eq (hd : Shows sb d v) (h : Accounted sb v) (i : Fin sb.ninodes) (k : Nat) :
    holds d.block (v.inode i) k = holds v.block (v.inode i) k :=
  holds_congr rfl (fun hne => hd.block _ ((h.self i).indirect_used hne).1) k

theorem Sound.of_shows (h : Sound sb v) (hd : Shows sb d v) : Sound sb (d.view sb) := by
  have hinode : ∀ i : Fin sb.ninodes, dinode sb d i = v.inode i := fun i => hd.inode i i.isLt
  refine ⟨?_, fun i => ?_, fun i => ?_, fun i => ?_⟩
  · refine Ledger.congr h.accounted (nmeta_le sb) hd.used fun x => ?_
    obtain ⟨i, k⟩ := x
    change holds d.block (dinode sb d i) k = holds v.block (v.inode i) k
    rw [hinode i, hd.holds_eq h.accounted]
  · intro k hk
    change holds d.block (dinode sb d i) k ≠ 0 ↔ start k < (dinode sb d i).size
    rw [hinode i, hd.holds_eq h.accounted]
    exact h.full i k hk
  · change (dinode sb d i).size ≤ _
    rw [hinode i]
    exact h.size_le i
  · change (dinode sb d i).type = 0 → (dinode sb d i).size = 0
    rw [hinode i]
    exact h.free i

theorem Sound.content_of_shows (h : Sound sb v) (hd : Shows sb d v) {x : Nat} (hx : x < (v.inode i).size) :
    content d.block (v.inode i) x = content v.block (v.inode i) x := by
  have hne := (h.full i).holds_ne hx (h.size_le i)
  rw [content, content, hd.holds_eq h.accounted, hd.block]
  exact (Ledger.range h.accounted (i, place (x / 512)) hne).1

theorem Sound.files_of_shows (h : Sound sb v) (hd : Shows sb d v) : files sb d = v.files sb := by
  funext j
  by_cases hj : j < sb.ninodes
  · have hinode : (d.view sb).inode j = v.inode j := hd.inode j hj
    rw [files, View.files, View.files, if_pos hj, if_pos hj, hinode, fileOf, fileOf]
    congr 3
    refine List.map_congr_left fun x hx => ?_
    exact h.content_of_shows (i := ⟨j, hj⟩) hd (List.mem_range.mp hx)
  · rw [files, View.files, View.files, if_neg hj, if_neg hj]

theorem Sound.fits (h : Sound sb v) (i : Fin sb.ninodes) : (v.inode i).Fits := by
  refine ⟨(h.size_le i).trans_lt (by decide), fun k => ?_⟩
  have hheld : held sb v (i, k) = (v.inode i).addrs k := holds_addrs ..
  by_cases hempty : (v.inode i).addrs k = 0
  · rw [hempty]
    exact Nat.two_pow_pos 32
  · have hlt := (Ledger.range h.accounted (i, k) (hheld ▸ hempty)).2.1
    exact hheld ▸ hlt.trans_le sb.size_le

/-! ### One inode changes -/

/-- All inodes but `i` have the blocks they had, with what is in them. -/
structure Spares (sb : Superblock) (v : View) (i : Fin sb.ninodes) (v' : View) : Prop where
  inode : ∀ j : Fin sb.ninodes, j ≠ i → v'.inode j = v.inode j
  holds : ∀ j : Fin sb.ninodes, j ≠ i → ∀ k, Fs.holds v'.block (v.inode j) k = Fs.holds v.block (v.inode j) k
  data : ∀ j : Fin sb.ninodes, j ≠ i → ∀ bn, Fs.holds v.block (v.inode j) (place bn) ≠ 0 →
    v'.block (Fs.holds v.block (v.inode j) (place bn)) = v.block (Fs.holds v.block (v.inode j) (place bn))

theorem Spares.setInode (h : Spares sb v i v') (ip : Inode) : Spares sb v i (v'.setInode i ip) := by
  refine ⟨fun j hj => ?_, h.holds, h.data⟩
  have hne : j.val ≠ i.val := fun heq => hj (Fin.ext heq)
  rw [View.setInode_inode, Function.update_of_ne hne]
  exact h.inode j hj

theorem Spares.of_same (hinode : v'.inode = v.inode) (hblock : v'.block = v.block) : Spares sb v i v' :=
  ⟨fun j _ => by rw [hinode], fun j _ k => by rw [hblock], fun j _ bn _ => by rw [hblock]⟩

theorem Spares.files_eq (h : Spares sb v i v') (hs : Sound sb v) :
    v'.files sb = Function.update (v.files sb) i (fileOf v'.block (v'.inode i)) := by
  funext j
  by_cases hji : j = i
  · rw [hji, Function.update_self, View.files, if_pos i.isLt]
  · rw [Function.update_of_ne hji, View.files, View.files]
    by_cases hj : j < sb.ninodes
    · have hne : (⟨j, hj⟩ : Fin sb.ninodes) ≠ i := fun heq => hji (congrArg Fin.val heq)
      have hinode : v'.inode j = v.inode j := h.inode ⟨j, hj⟩ hne
      rw [if_pos hj, if_pos hj, hinode, fileOf, fileOf]
      congr 3
      refine List.map_congr_left fun x hx => ?_
      have hfull := (hs.full ⟨j, hj⟩).holds_ne (List.mem_range.mp hx) (hs.size_le ⟨j, hj⟩)
      have hdata := h.data ⟨j, hj⟩ hne (x / 512) hfull
      have hholds := h.holds ⟨j, hj⟩ hne (place (x / 512))
      dsimp only at hdata hholds
      rw [content, content, hholds, hdata]
    · rw [if_neg hj, if_neg hj]

theorem Sound.change (hs : Sound sb v) (h : Spares sb v i v') (hacc : Accounted sb v')
    (hfull : Full v'.block (v'.inode i) (v'.inode i).size) (hsize : (v'.inode i).size ≤ 140 * 512)
    (hfree : (v'.inode i).type = 0 → (v'.inode i).size = 0) : Sound sb v' := by
  refine ⟨hacc, fun j => ?_, fun j => ?_, fun j => ?_⟩
  · by_cases hj : j = i
    · exact hj ▸ hfull
    · rw [h.inode j hj]
      intro k hk
      rw [h.holds j hj]
      exact hs.full j k hk
  · by_cases hj : j = i
    · exact hj ▸ hsize
    · rw [h.inode j hj]
      exact hs.size_le j
  · by_cases hj : j = i
    · exact hj ▸ hfree
    · rw [h.inode j hj]
      exact hs.free j

/-! ### `iupdate`, `ialloc` and `iput` -/

theorem accounted_setInode (h : Accounted sb (v.setInode i ip)) (haddrs : ip'.addrs = ip.addrs) :
    Accounted sb (v.setInode i ip') := by
  refine Ledger.congr h (nmeta_le sb) (fun _ _ => rfl) fun x => ?_
  obtain ⟨j, k⟩ := x
  by_cases hj : j = i
  · rw [hj, held_self, held_self]
    exact holds_congr haddrs (fun _ => rfl) k
  · rw [held_of_ne hj, held_of_ne hj]

theorem Full.of_addrs {block : Nat → Block} {len : Nat} (h : Full block ip len) (haddrs : ip'.addrs = ip.addrs) :
    Full block ip' len := by
  intro k hk
  rw [holds_congr haddrs (fun _ => rfl) k]
  exact h k hk

theorem setInode_self (v : View) (i : Fin sb.ninodes) (ip : Inode) : (v.setInode i ip).inode i = ip :=
  Function.update_self ..

/-- An inode that keeps its blocks and its size. -/
theorem Sound.setInode (hs : Sound sb v) (haddrs : ip.addrs = (v.inode i).addrs) (hsize : ip.size = (v.inode i).size)
    (hfree : ip.type = 0 → ip.size = 0) : Sound sb (v.setInode i ip) := by
  have hspares : Spares sb v i (v.setInode i ip) := (Spares.of_same rfl rfl : Spares sb v i v).setInode ip
  refine hs.change hspares (accounted_setInode (hs.accounted.self i) haddrs) ?_ ?_ ?_
  · rw [setInode_self, hsize]
    exact (hs.full i).of_addrs haddrs
  · rw [setInode_self, hsize]
    exact hs.size_le i
  · rw [setInode_self]
    exact hfree

/-- A state in which the inode `i` has changed, and with it what memory has of it. -/
theorem Valid.change (h : Valid sb s) (hd : Shows sb d v) (hlogs : Logs sb bs s.disk d) (hs : Sound sb v)
    (hspares : Spares sb (s.disk.view sb) i v) {c : Option Inode}
    (hc : ∀ ip, c = some ip → ip = v.inode i ∧ ip.type ≠ 0 ∧ i.val ∈ s.refs) :
    Valid sb { s with disk := d, cache := Function.update s.cache i c } ∧
      files sb d = Function.update (files sb s.disk) i (fileOf v.block (v.inode i)) := by
  refine ⟨⟨hs.of_shows hd, fun inum ip hcached => ?_, fun inum ip hcached => ?_, hlogs.idle h.idle⟩, ?_⟩
  · dsimp only at hcached ⊢
    by_cases hi : inum = i
    · subst hi
      rw [Function.update_self] at hcached
      obtain ⟨heq, htype, _⟩ := hc ip hcached
      exact ⟨i.isLt, heq.trans (hd.inode i i.isLt).symm, htype⟩
    · rw [Function.update_of_ne hi] at hcached
      obtain ⟨hlt, heq, htype⟩ := h.cached inum ip hcached
      have hne : (⟨inum, hlt⟩ : Fin sb.ninodes) ≠ i := fun heq => hi (congrArg Fin.val heq)
      refine ⟨hlt, ?_, htype⟩
      rw [hd.inode inum hlt, heq]
      exact (hspares.inode ⟨inum, hlt⟩ hne).symm
  · dsimp only at hcached ⊢
    by_cases hi : inum = i
    · subst hi
      rw [Function.update_self] at hcached
      exact (hc ip hcached).2.2
    · rw [Function.update_of_ne hi] at hcached
      exact h.referred inum ip hcached
  · rw [hs.files_of_shows hd, hspares.files_eq h.sound]
    rfl

theorem fileOf_eq (ip : Inode) (block : Nat → Block) (h : ip.type ≠ 0) :
    fileOf block ip = some ⟨ip.type, ip.nlink, (List.range ip.size).map (content block ip)⟩ := if_neg h

theorem content_of_addrs {block : Nat → Block} (haddrs : ip'.addrs = ip.addrs) (x : Nat) :
    content block ip' x = content block ip x := by
  rw [content, content, holds_congr haddrs (fun _ => rfl)]

theorem Valid.files_cached (h : Valid sb s) {inum : Nat} (hcached : s.cache inum = some ip) :
    files sb s.disk inum = some ⟨ip.type, ip.nlink, (List.range ip.size).map (content s.disk.block ip)⟩ := by
  obtain ⟨hlt, rfl, htype⟩ := h.cached inum ip hcached
  rw [files, View.files, if_pos hlt]
  exact fileOf_eq _ _ htype

theorem Valid.link (h : Valid sb s) {inum : Nat} (hcached : s.cache inum = some ip) (nlink : UInt16) :
    Ends
      (fun d => Valid sb (s.hold inum (⟨d, { ip with nlink := nlink }, ()⟩ : Done Unit)) ∧
        files sb d = (files sb s.disk).step sb.ninodes (.link inum nlink) ∧ Logs sb [iblock sb inum] s.disk d)
      (Refuses sb [iblock sb inum] s.disk) (iupdate sb s.disk inum { ip with nlink := nlink }) := by
  have hfile := h.files_cached hcached
  have hrefs := h.referred inum ip hcached
  obtain ⟨hlt, rfl, htype⟩ := h.cached inum ip hcached
  have hfits : Inode.Fits { dinode sb s.disk inum with nlink := nlink } := by
    obtain ⟨hsize, haddrs⟩ := h.sound.fits ⟨inum, hlt⟩
    exact ⟨hsize, haddrs⟩
  have hsound : Sound sb ((s.disk.view sb).setInode inum { dinode sb s.disk inum with nlink := nlink }) :=
    h.sound.setInode (i := ⟨inum, hlt⟩) rfl rfl fun hzero => absurd hzero htype
  have hspares : Spares sb (s.disk.view sb) ⟨inum, hlt⟩
      ((s.disk.view sb).setInode inum { dinode sb s.disk inum with nlink := nlink }) :=
    (Spares.of_same rfl rfl : Spares sb (s.disk.view sb) ⟨inum, hlt⟩ (s.disk.view sb)).setInode _
  have hself : ((s.disk.view sb).setInode inum { dinode sb s.disk inum with nlink := nlink }).inode inum =
      { dinode sb s.disk inum with nlink := nlink } := Function.update_self ..
  refine ((shows_view sb s.disk).iupdate hlt hfits (List.mem_singleton_self _)).mono (fun d hd => ?_) fun _ hm => hm
  obtain ⟨hshows, hlogs⟩ := hd
  obtain ⟨hvalid, hfiles⟩ := h.change hshows hlogs hsound hspares (c := some { dinode sb s.disk inum with nlink := nlink })
    fun ip hip => ⟨(Option.some.inj hip).symm.trans hself.symm, Option.some.inj hip ▸ htype, hrefs⟩
  refine ⟨hvalid, hfiles.trans ?_, hlogs⟩
  rw [Store.step, hfile, hself]
  exact congrArg (Function.update (files sb s.disk) inum) (if_neg htype)

/-! ### `writei` -/

theorem map_range_splice {f g : Nat → UInt8} {len len' off : Nat} {src : List UInt8} (hoff : off ≤ len)
    (hlen : len' = max len (off + src.length))
    (hg : ∀ x < len', g x = if off ≤ x ∧ x < off + src.length then src.getD (x - off) 0 else f x) :
    (List.range len').map g =
      ((List.range len).map f).take off ++ src ++ ((List.range len).map f).drop (off + src.length) := by
  have htake : (((List.range len).map f).take off).length = off := by simp [hoff]
  rw [List.append_assoc]
  refine List.ext_getElem ?_ fun x hx _ => ?_
  · simp only [List.length_map, List.length_range, List.length_append, List.length_take, List.length_drop]
    omega
  · rw [List.length_map, List.length_range] at hx
    rw [List.getElem_map, List.getElem_range, hg x hx]
    by_cases hbefore : x < off
    · rw [if_neg (by omega), List.getElem_append_left (by rw [htake]; exact hbefore)]
      simp
    · rw [List.getElem_append_right (by rw [htake]; omega)]
      simp only [htake]
      by_cases hin : x < off + src.length
      · rw [if_pos ⟨by omega, hin⟩, List.getElem_append_left (by omega), List.getD_eq_getElem _ _ (by omega)]
      · rw [if_neg (by omega), List.getElem_append_right (by omega)]
        simp only [List.getElem_drop, List.getElem_map, List.getElem_range]
        congr 1
        omega

/-- The blocks of a file do not change while it does not grow. -/
theorem Wrote.addrs_eq {len off : Nat} {src : List UInt8} (h : Wrote sb v i ip len off src v' ip') (hfull : Full v.block ip len)
    (hle : off + src.length ≤ len) : ip' = ip := by
  have haddrs : ip'.addrs = ip.addrs := by
    funext k
    have hk : k.val < 141 := k.isLt.trans (by decide)
    have hnow := h.full k hk
    rw [Nat.max_eq_left hle, ← hfull k hk] at hnow
    rw [← holds_addrs v'.block ip' k, ← holds_addrs v.block ip k]
    by_cases hne : holds v.block ip k = 0
    · rw [hne]
      by_contra hnew
      exact hnow.mp hnew hne
    · exact h.keeps k hne
  rw [h.same, haddrs]

theorem Wrote.spares {len off : Nat} {src : List UInt8} (h : Wrote sb v i ip len off src v' ip') : Spares sb v i v' :=
  ⟨fun j _ => by rw [h.inode], h.others, h.data⟩

/-- The inode with its new size, after the loop of `writei`. -/
theorem Wrote.sound {off : Nat} {src : List UInt8} (h : Wrote sb v i (v.inode i) (v.inode i).size off src v' ip) (hs : Sound sb v)
    (htype : (v.inode i).type ≠ 0) (hend : off + src.length ≤ 140 * 512)
    (hip : ip' = { ip with size := max (v.inode i).size (off + src.length) }) : Sound sb (v'.setInode i ip') := by
  have haddrs : ip'.addrs = ip.addrs := by rw [hip]
  have hsize : ip'.size = max (v.inode i).size (off + src.length) := by rw [hip]
  have hsame : ip'.type = (v.inode i).type := by rw [hip, h.same]
  refine hs.change (h.spares.setInode ip') (accounted_setInode h.accounted haddrs) ?_ ?_ ?_
  · rw [setInode_self, hsize]
    exact h.full.of_addrs haddrs
  · rw [setInode_self, hsize]
    exact max_le (hs.size_le i) hend
  · rw [setInode_self, hsame]
    exact fun hzero => absurd hzero htype

theorem Wrote.bytes {off : Nat} {src : List UInt8} (h : Wrote sb v i (v.inode i) (v.inode i).size off src v' ip)
    (hoff : off ≤ (v.inode i).size) (hip : ip' = { ip with size := max (v.inode i).size (off + src.length) }) :
    (List.range ip'.size).map (content v'.block ip') =
      ((List.range (v.inode i).size).map (content v.block (v.inode i))).take off ++ src ++
        ((List.range (v.inode i).size).map (content v.block (v.inode i))).drop (off + src.length) := by
  have haddrs : ip'.addrs = ip.addrs := by rw [hip]
  have hsize : ip'.size = max (v.inode i).size (off + src.length) := by rw [hip]
  exact map_range_splice hoff hsize fun x hx => (content_of_addrs haddrs x).trans (h.contents x (hsize ▸ hx))

theorem toNat_add_ofNat {off : UInt32} {n : Nat} (h : off.toNat + n < 2 ^ 32) : (off + UInt32.ofNat n).toNat = off.toNat + n := by
  rw [UInt32.toNat_add, UInt32.toNat_ofNat']
  omega

/-- `writei` within the bounds: the bytes are in the file, or there were not enough free blocks, or
the log was full. -/
theorem Sound.writei (hs : Sound sb v) (hd : Shows sb d v) (dev : Option Nat) {src : List UInt8} {off : UInt32}
    (htype : (v.inode i).type ≠ 0) (hdev : (v.inode i).type ≠ tDev) (hoff : off.toNat ≤ (v.inode i).size)
    (hend : off.toNat + src.length ≤ 140 * 512) :
    Ends
      (fun r => ∃ v' ip' as bs, Shows sb r.disk (v'.setInode i r.ip) ∧
        Wrote sb v i (v.inode i) (v.inode i).size off.toNat src v' ip' ∧
        r.ip = { ip' with size := max (v.inode i).size (off.toNat + src.length) } ∧ r.value = some src.length ∧
        as.length ≤ 1 ∧ Span sb (needed (v.inode i).size (off.toNat + src.length)) (turns off.toNat src.length) as bs ∧
        Logs sb (bs ++ [iblock sb i]) d r.disk)
      (fun msg => (∃ as bs, as.length ≤ 1 ∧
          Span sb (needed (v.inode i).size (off.toNat + src.length)) (turns off.toNat src.length) as bs ∧
          Refuses sb (bs ++ [iblock sb i]) d msg) ∨
        (msg = "balloc: out of blocks" ∧ freeBlocks sb v < needed (v.inode i).size (off.toNat + src.length)))
      (writei sb dev d i (v.inode i) src off) := by
  have hsum : (off + UInt32.ofNat src.length).toNat = off.toNat + src.length := toNat_add_ofNat (by omega)
  have hover : ¬ off + .ofNat src.length < off := by
    rw [UInt32.lt_iff_toNat_lt, hsum]
    omega
  unfold Fs.writei
  dsimp only
  rw [if_neg hdev, if_neg (by rw [not_or]; exact ⟨by omega, hover⟩), if_neg (by rw [hsum]; omega)]
  refine (hd.writeLoop (hs.accounted.self i) (hs.full i) (hs.size_le i) hoff hend le_rfl).bind (fun msg hmsg => ?_)
    fun r hr => ?_
  · rcases hmsg with ⟨as, bs, _, hone, hspan, hrefuses⟩ | hfree
    · exact .inl ⟨as, bs, hone, hspan, hrefuses.mono (List.subset_append_left ..)⟩
    · exact .inr hfree
  · obtain ⟨v₁, bs, hshows, hwrote, hvalue, hspan, hlogs⟩ := hr
    replace hlogs := hlogs.mono (List.subset_append_left bs [iblock sb i])
    have hone := length_indirect_le r.ip
    have hsame := hwrote.same
    have hsize : r.ip.size = (v.inode i).size := by rw [hsame]
    by_cases hgrows : 0 < src.length ∧ r.value > r.ip.size
    · -- the file has grown, and the inode is written back
      rw [if_pos hgrows]
      have hmax : r.value = max (v.inode i).size (off.toNat + src.length) := by omega
      have hfits := (hwrote.sound hs htype hend rfl).fits i
      rw [setInode_self, ← hmax] at hfits
      refine (hshows.iupdate i.isLt hfits (by simp : iblock sb i ∈ bs ++ [iblock sb i])).map (fun msg hmsg => ?_)
        fun d' hd' => ?_
      · exact .inl ⟨_, bs, hone, hspan, hmsg.after hlogs⟩
      · obtain ⟨hshows', hlogs'⟩ := hd'
        exact ⟨v₁, r.ip, _, bs, hshows', hwrote, by rw [← hmax], rfl, hone, hspan, hlogs.trans hlogs'⟩
    · -- the file has its old size, and so its old blocks
      rw [if_neg hgrows]
      have hle : off.toNat + src.length ≤ (v.inode i).size := by omega
      have hip : r.ip = v₁.inode i := by rw [hwrote.inode, hwrote.addrs_eq (hs.full i) hle]
      refine .ok ⟨v₁, r.ip, _, bs, ?_, hwrote, ?_, rfl, hone, hspan, hlogs⟩
      · dsimp only
        rw [hip, setInode_eq_self]
        exact hshows
      · rw [max_eq_left hle, ← hsize]

theorem File.bounds {f : File} {off : UInt32} {n : Nat} (hn : n < 2 ^ 32) (h : ¬ f.refuses (.ofNat n) off) :
    off.toNat ≤ f.bytes.length ∧ off.toNat + n ≤ 140 * 512 := by
  simp only [File.refuses, not_or, not_lt] at h
  obtain ⟨hoff, hover, hend⟩ := h
  have hno : off.toNat + n < 2 ^ 32 := by
    rw [UInt32.lt_iff_toNat_lt, UInt32.toNat_add, UInt32.toNat_ofNat'] at hover
    have hlt := off.toNat_lt
    omega
  rw [toNat_add_ofNat hno] at hend
  exact ⟨hoff, hend⟩

theorem writei_of_refused (sb : Superblock) (dev : Option Nat) (d : Disk) (inum : Nat) {src : List UInt8} {off : UInt32}
    (h : ip.type = tDev ∨ off.toNat > ip.size ∨ off + .ofNat src.length < off ∨
      (off + .ofNat src.length).toNat > 140 * 512) :
    writei sb dev d inum ip src off = .ok ⟨d, ip, if ip.type = tDev then dev else none⟩ := by
  unfold Fs.writei
  dsimp only
  split_ifs with hdev hout hlong
  · rfl
  · rfl
  · rfl
  · rw [not_or] at hout
    rcases h with h | h | h | h
    · exact absurd h hdev
    · exact absurd h hout.1
    · exact absurd h hout.2
    · exact absurd h hlong

/-- The operation writes at most `n` blocks besides those of the bit map for `need` new blocks. -/
def Writes (sb : Superblock) (need n : Nat) (bs : List Nat) : Prop :=
  ∃ as cs inum, as.length ≤ 1 ∧ Span sb need n as cs ∧ bs = cs ++ [iblock sb inum]

/-- `writei` refuses, or writes `src`, or the blocks or the log do not suffice. -/
theorem Valid.writei_cases (h : Valid sb s) {inum : Nat} (hcached : s.cache inum = some ip) {f : File}
    (hf : files sb s.disk inum = some f) {src : List UInt8} (hsrc : src.length < 2 ^ 32) (off : UInt32) (dev : Option Nat) :
    ((f.type = tDev ∨ f.refuses (.ofNat src.length) off) ∧
      Fs.writei sb dev s.disk inum ip src off = .ok ⟨s.disk, ip, if f.type = tDev then dev else none⟩) ∨
    (¬ (f.type = tDev ∨ f.refuses (.ofNat src.length) off) ∧
      Ends
        (fun r => Valid sb (s.hold inum r) ∧
          files sb r.disk = Function.update (files sb s.disk) inum (some (f.write src off.toNat)) ∧
          needed f.bytes.length (off.toNat + src.length) ≤ freeBlocks sb (s.disk.view sb) ∧ r.value = some src.length ∧
          ∃ bs, Writes sb (needed f.bytes.length (off.toNat + src.length)) (turns off.toNat src.length) bs ∧
            Logs sb bs s.disk r.disk)
        (fun msg => (∃ bs, Writes sb (needed f.bytes.length (off.toNat + src.length)) (turns off.toNat src.length) bs ∧
            Refuses sb bs s.disk msg) ∨
          (msg = "balloc: out of blocks" ∧
            freeBlocks sb (s.disk.view sb) < needed f.bytes.length (off.toNat + src.length)))
        (Fs.writei sb dev s.disk inum ip src off)) := by
  rw [h.files_cached hcached, Option.some.injEq] at hf
  subst hf
  have hrefs := h.referred inum ip hcached
  obtain ⟨hlt, hip, htype⟩ := h.cached inum ip hcached
  by_cases hrefused : ip.type = tDev ∨
      (⟨ip.type, ip.nlink, (List.range ip.size).map (content s.disk.block ip)⟩ : File).refuses (.ofNat src.length) off
  · refine .inl ⟨hrefused, writei_of_refused sb dev s.disk inum ?_⟩
    rw [File.refuses, List.length_map, List.length_range] at hrefused
    exact hrefused
  · refine .inr ⟨hrefused, ?_⟩
    rw [not_or] at hrefused
    obtain ⟨hdev, haccepts⟩ := hrefused
    obtain ⟨hoff, hend⟩ := File.bounds hsrc haccepts
    rw [List.length_map, List.length_range] at hoff ⊢
    subst hip
    refine (h.sound.writei (i := ⟨inum, hlt⟩) (shows_view sb s.disk) dev htype hdev hoff hend).mono (fun r hr => ?_)
      fun msg hmsg => ?_
    · obtain ⟨v', ip', as, bs, hshows, hwrote, hnew, hvalue, hone, hspan, hlogs⟩ := hr
      have hsameType : r.ip.type = (dinode sb s.disk inum).type := by
        rw [hnew, hwrote.same]
        rfl
      have hsameNlink : r.ip.nlink = (dinode sb s.disk inum).nlink := by
        rw [hnew, hwrote.same]
        rfl
      have hself : (v'.setInode inum r.ip).inode inum = r.ip := Function.update_self ..
      have hroom : _ + needed (dinode sb s.disk inum).size (off.toNat + src.length) = freeBlocks sb (s.disk.view sb) :=
        hwrote.free
      obtain ⟨hvalid, hfiles⟩ := h.change hshows hlogs (hwrote.sound h.sound htype hend hnew)
        (hwrote.spares.setInode r.ip) (c := some r.ip) fun ip hip =>
          ⟨(Option.some.inj hip).symm.trans hself.symm, Option.some.inj hip ▸ hsameType ▸ htype, hrefs⟩
      refine ⟨hvalid, hfiles.trans ?_, by omega, hvalue, _, ⟨as, bs, inum, hone, hspan, rfl⟩, hlogs⟩
      change Function.update (files sb s.disk) inum (fileOf v'.block ((v'.setInode inum r.ip).inode inum)) = _
      rw [hself, fileOf_eq _ _ (hsameType ▸ htype), hsameType, hsameNlink, hwrote.bytes hoff hnew]
      rfl
    · rcases hmsg with ⟨as, bs, hone, hspan, hrefuses⟩ | hfree
      · exact .inl ⟨_, ⟨as, bs, inum, hone, hspan, rfl⟩, hrefuses⟩
      · exact .inr hfree

/-! ### `readi` -/

theorem map_range_slice {f : Nat → UInt8} {len off n m : Nat} (hm : m = min n (len - off)) :
    ((List.range m).map fun k => f (off + k)) = (((List.range len).map f).drop off).take n := by
  refine List.ext_getElem ?_ fun x hx _ => ?_
  · simp [hm]
  · simp

/-- `readi` returns what is in the file and changes nothing. -/
theorem Valid.readi (h : Valid sb s) {inum : Nat} (hcached : s.cache inum = some ip) :
    ∃ f, files sb s.disk inum = some f ∧ ∀ off n dev, readi sb dev s.disk ip off n =
      .ok ⟨s.disk, ip, if f.type = tDev then dev else f.read off n⟩ := by
  refine ⟨_, h.files_cached hcached, fun off n dev => ?_⟩
  obtain ⟨hlt, hip, _⟩ := h.cached inum ip hcached
  unfold Fs.readi File.read
  dsimp only
  rw [List.length_map, List.length_range]
  by_cases hdev : ip.type = tDev
  · rw [if_pos hdev, if_pos hdev]
  · rw [if_neg hdev, if_neg hdev]
    by_cases hout : off.toNat > ip.size ∨ off + n < off
    · rw [if_pos hout, if_pos hout]
    · rw [if_neg hout, if_neg hout]
      rw [not_or, not_lt, UInt32.lt_iff_toNat_lt, UInt32.toNat_add] at hout
      have hm : (if (off + n).toNat > ip.size then ip.size - off.toNat else n.toNat) = min n.toNat (ip.size - off.toNat) := by
        have hoff := off.toNat_lt
        have hn := n.toNat_lt
        rw [UInt32.toNat_add]
        split_ifs <;> omega
      rw [hm]
      subst hip
      have hle : off.toNat + min n.toNat ((dinode sb s.disk inum).size - off.toNat) ≤ (dinode sb s.disk inum).size := by omega
      have hloop := (shows_view sb s.disk).readLoop (h.sound.accounted.self ⟨inum, hlt⟩) (h.sound.full ⟨inum, hlt⟩)
        (h.sound.size_le ⟨inum, hlt⟩) hle le_rfl
      rw [← map_range_slice rfl]
      exact congrArg (Except.map _) hloop

/-! ### `ialloc` and `iput` -/

theorem full_empty {block : Nat → Block} (h : ∀ k, ip.addrs k = 0) : Full block ip 0 := by
  intro k _
  have hempty : holds block ip k = 0 := by
    by_cases hk : k < 13
    · exact (holds_addrs block ip ⟨k, hk⟩).trans (h _)
    · exact holds_of_empty block ip (by omega) (h _)
  simp [hempty]

theorem Full.addrs_eq_zero {block : Nat → Block} (h : Full block ip 0) (k : Fin 13) : ip.addrs k = 0 := by
  rw [← holds_addrs block ip k]
  by_contra hne
  exact absurd ((h k (k.isLt.trans (by decide))).mp hne) (Nat.not_lt_zero _)

/-- A free inode is a file that is not there. -/
theorem files_isNone {inum : Nat} (hlt : inum < sb.ninodes) :
    (files sb d inum).isNone = ((dinode sb d inum).type == 0) := by
  rw [files, View.files, if_pos hlt, fileOf]
  change (if (dinode sb d inum).type = 0 then none else some _ : Option File).isNone = _
  by_cases htype : (dinode sb d inum).type = 0
  · rw [if_pos htype]
    simp [htype]
  · rw [if_neg htype]
    simp [htype]

theorem vacant_eq (sb : Superblock) (d : Disk) : (files sb d).vacant sb.ninodes =
    (List.range sb.ninodes).find? fun j => decide (1 ≤ j) && (dinode sb d j).type == 0 :=
  List.find?_congr fun j hj => by rw [files_isNone (List.mem_range.mp hj)]

theorem Valid.findInode (h : Valid sb s) {type : UInt16} (htype : type ≠ 0) {inum : Nat}
    (hvacant : (files sb s.disk).vacant sb.ninodes = some inum) :
    Ends
      (fun r => r.block = inum ∧ Valid sb { s with disk := r.disk } ∧
        files sb r.disk = Function.update (files sb s.disk) inum (some ⟨type, 0, []⟩) ∧
        Logs sb [iblock sb inum] s.disk r.disk)
      (Refuses sb [iblock sb inum] s.disk) (findInode sb s.disk type) := by
  rw [vacant_eq] at hvacant
  unfold Fs.findInode
  rw [hvacant]
  have hlt := List.mem_range.mp (List.mem_of_find?_eq_some hvacant)
  have hunused : (dinode sb s.disk inum).type = 0 := by
    have hand := List.find?_some hvacant
    rw [Bool.and_eq_true, beq_iff_eq] at hand
    exact hand.2
  -- it has no bytes, and so no blocks
  have hsize := h.sound.free ⟨inum, hlt⟩ hunused
  have hfull := h.sound.full ⟨inum, hlt⟩
  rw [hsize] at hfull
  have hsound : Sound sb ((s.disk.view sb).setInode inum (.fresh type)) :=
    h.sound.setInode (i := ⟨inum, hlt⟩) (funext fun k => (hfull.addrs_eq_zero k).symm) hsize.symm fun _ => rfl
  have hspares : Spares sb (s.disk.view sb) ⟨inum, hlt⟩ ((s.disk.view sb).setInode inum (.fresh type)) :=
    (Spares.of_same rfl rfl : Spares sb (s.disk.view sb) ⟨inum, hlt⟩ (s.disk.view sb)).setInode _
  have hfits : (Inode.fresh type).Fits := ⟨Nat.two_pow_pos 32, fun _ => Nat.two_pow_pos 32⟩
  have hself : ((s.disk.view sb).setInode inum (.fresh type)).inode inum = .fresh type := Function.update_self ..
  have huncached : s.cache inum = none := by
    cases hcached : s.cache inum with
    | none => rfl
    | some ip =>
      obtain ⟨_, rfl, hne⟩ := h.cached inum ip hcached
      exact absurd hunused hne
  refine ((shows_view sb s.disk).iupdate hlt hfits (List.mem_singleton_self _)).map (fun _ hm => hm) fun d hd => ?_
  obtain ⟨hshows, hlogs⟩ := hd
  obtain ⟨hvalid, hfiles⟩ := h.change hshows hlogs hsound hspares (c := none) fun ip hip => by cases hip
  dsimp only at hvalid hfiles
  rw [← huncached, Function.update_eq_self] at hvalid
  refine ⟨rfl, hvalid, hfiles.trans ?_, hlogs⟩
  rw [hself, fileOf_eq _ _ htype]
  rfl

/-- What `iput` does to an inode without links. -/
theorem Valid.itrunc (h : Valid sb s) {inum : Nat} (hcached : s.cache inum = some ip) :
    Ends
      (fun d => Valid sb { s with disk := d, cache := Function.update s.cache inum none } ∧
        files sb d = Function.update (files sb s.disk) inum none ∧ Logs sb (truncated sb inum) s.disk d)
      (Refuses sb (truncated sb inum) s.disk)
      ((Fs.itrunc sb s.disk inum ip).bind fun r => iupdate sb r.disk inum { r.ip with type := 0 }) := by
  obtain ⟨hlt, rfl, _⟩ := h.cached inum ip hcached
  refine ((shows_view sb s.disk).itrunc (h.sound.accounted.self ⟨inum, hlt⟩)).bind (fun _ hm => hm) fun r hr => ?_
  obtain ⟨v, hshows, hmarks, hacc, hip, hlogs⟩ := hr
  have hsize : r.ip.size = 0 := by rw [hip]
  have haddrs : ∀ k, r.ip.addrs k = 0 := fun k => by rw [hip]
  have hself : ((v.setInode inum r.ip).setInode inum { r.ip with type := 0 }).inode inum = { r.ip with type := 0 } :=
    Function.update_self ..
  have hspares : Spares sb (s.disk.view sb) ⟨inum, hlt⟩
      ((v.setInode inum r.ip).setInode inum { r.ip with type := 0 }) :=
    ((Spares.of_same hmarks.inode hmarks.block : Spares sb (s.disk.view sb) ⟨inum, hlt⟩ v).setInode r.ip).setInode _
  have hsound : Sound sb ((v.setInode inum r.ip).setInode inum { r.ip with type := 0 }) := by
    refine h.sound.change hspares (accounted_setInode (i := ⟨inum, hlt⟩) (hacc.self ⟨inum, hlt⟩) ?_) ?_ ?_ fun _ => ?_
    · rw [setInode_self]
    · dsimp only
      rw [hself]
      dsimp only
      rw [hsize]
      exact full_empty haddrs
    · dsimp only
      rw [hself]
      dsimp only
      omega
    · dsimp only
      rw [hself]
      exact hsize
  have hfits := hsound.fits ⟨inum, hlt⟩
  rw [hself] at hfits
  have hlast := hshows.iupdate hlt hfits (by simp [truncated] : iblock sb inum ∈ truncated sb inum)
  refine hlast.mono (fun d hd => ?_) fun _ hm => hm.after hlogs
  obtain ⟨hshows', hlogs'⟩ := hd
  obtain ⟨hvalid, hfiles⟩ := h.change hshows' (hlogs.trans hlogs') hsound hspares (c := none) fun ip hip => by cases hip
  refine ⟨hvalid, hfiles.trans ?_, hlogs.trans hlogs'⟩
  rw [hself]
  rfl

/-! ### References -/

/-- Memory comes to have, or loses, a copy of an inode. -/
theorem Valid.setCache (h : Valid sb s) {inum : Nat} {c : Option Inode}
    (hc : ∀ ip, c = some ip → inum < sb.ninodes ∧ ip = dinode sb s.disk inum ∧ ip.type ≠ 0)
    (hrefs : c.isSome → inum ∈ s.refs) : Valid sb { s with cache := Function.update s.cache inum c } := by
  refine ⟨h.sound, fun j ip hcached => ?_, fun j ip hcached => ?_, h.idle⟩
  all_goals
    dsimp only at hcached ⊢
    by_cases hj : j = inum
  · subst hj
    rw [Function.update_self] at hcached
    exact hc ip hcached
  · rw [Function.update_of_ne hj] at hcached
    exact h.cached j ip hcached
  · subst hj
    rw [Function.update_self] at hcached
    exact hrefs (hcached ▸ rfl)
  · rw [Function.update_of_ne hj] at hcached
    exact h.referred j ip hcached

theorem Valid.iget (h : Valid sb s) (inum : Nat) :
    Ends (fun s' => Valid sb s' ∧ s'.disk = s.disk ∧ entryStops s.refs inum = none)
      (fun m => entryStops s.refs inum = some m) (s.iget inum) := by
  unfold State.iget entryStops
  by_cases hin : inum ∈ s.refs
  · rw [if_pos hin, if_neg fun hand => hand.1 hin]
    exact .ok ⟨⟨h.sound, h.cached, fun j ip hcached => List.mem_cons_of_mem _ (h.referred j ip hcached), h.idle⟩, rfl, rfl⟩
  · rw [if_neg hin]
    by_cases hfull : s.refs.dedup.length ≥ ninode
    · rw [if_pos hfull, if_pos ⟨hin, hfull⟩]
      exact .error rfl
    · rw [if_neg hfull, if_neg fun hand => hfull hand.2]
      have hdrop : Valid sb { s with cache := Function.update s.cache inum none } :=
        h.setCache (fun ip hip => by cases hip) fun hsome => by cases hsome
      exact .ok ⟨⟨hdrop.sound, hdrop.cached, fun j ip hcached => List.mem_cons_of_mem _ (hdrop.referred j ip hcached), h.idle⟩,
        rfl, rfl⟩

theorem Valid.unref (h : Valid sb s) (inum : Nat) : Valid sb (s.unref inum) := by
  have hcache : ∀ j ip, (s.unref inum).cache j = some ip → s.cache j = some ip ∧ j ∈ s.refs.erase inum := by
    intro j ip hcached
    simp only [State.unref] at hcached
    by_cases hin : inum ∈ s.refs.erase inum
    · rw [if_pos hin] at hcached
      refine ⟨hcached, ?_⟩
      by_cases hj : j = inum
      · exact hj ▸ hin
      · exact (List.mem_erase_of_ne hj).mpr (h.referred j ip hcached)
    · rw [if_neg hin] at hcached
      by_cases hj : j = inum
      · rw [hj, Function.update_self] at hcached
        cases hcached
      · rw [Function.update_of_ne hj] at hcached
        exact ⟨hcached, (List.mem_erase_of_ne hj).mpr (h.referred j ip hcached)⟩
  exact ⟨h.sound, fun j ip hcached => h.cached j ip (hcache j ip hcached).1,
    fun j ip hcached => (hcache j ip hcached).2, h.idle⟩

/-! ### All operations -/

/-- The disk changes by `log_write`, but where a system call begins or ends. -/
def Moves (sb : Superblock) (d : Disk) (e : Event) (d' : Disk) : Prop :=
  e = .beginOp ∨ e = .endOp ∨ ∃ bs, Logs sb bs d d'

theorem Moves.logs (h : Logs sb bs d d') (e : Event) : Moves sb d e d' := .inr (.inr ⟨bs, h⟩)

theorem Moves.same (h : d' = d) (e : Event) : Moves sb d e d' := by
  subst h
  exact .logs (.refl sb [] _) e

/-- The operation `e` does to the files what it is for, or stops the kernel for the reason that
`Store.stops` gives, or because the log has no room for the blocks that it writes. -/
def Serves (sb : Superblock) (s : State) (e : Event) (x : Except String State) : Prop :=
  Ends
    (fun s' => Valid sb s' ∧ files sb s'.disk = (files sb s.disk).step sb.ninodes e ∧
      (files sb s.disk).stops sb.ninodes (freeBlocks sb (s.disk.view sb)) s.refs e = none ∧ Moves sb s.disk e s'.disk)
    (fun m => (files sb s.disk).stops sb.ninodes (freeBlocks sb (s.disk.view sb)) s.refs e = some m ∨
      ∃ bs cs, bs ⊆ cs ∧ cs.length ≤ (files sb s.disk).writes sb e ∧ Refuses sb bs s.disk m)
    x

theorem Valid.serves_ialloc (h : Valid sb s) {type : UInt16} (htype : type ≠ 0) :
    Serves sb s (.ialloc type) (ialloc sb s type) := by
  unfold Serves Store.step Store.stops ialloc
  cases hvacant : (files sb s.disk).vacant sb.ninodes with
  | none =>
    rw [vacant_eq] at hvacant
    have hfind : Fs.findInode sb s.disk type = .error "ialloc: no inodes" := by
      unfold Fs.findInode
      rw [hvacant]
    rw [hfind]
    exact .error (.inl rfl)
  | some inum =>
    refine (h.findInode htype hvacant).bind (fun m hm => ?_) fun r hr => ?_
    · exact .inr ⟨_, _, List.Subset.refl _, le_rfl, hm⟩
    · obtain ⟨rfl, hvalid, hfiles, hlogs⟩ := hr
      refine (hvalid.iget r.block).mono (fun s' hs' => ?_) fun m hm => .inl hm
      obtain ⟨hvalid', hdisk, hentry⟩ := hs'
      refine ⟨hvalid', (congrArg (files sb) hdisk).trans hfiles, hentry, ?_⟩
      rw [hdisk]
      exact .logs hlogs _

theorem Valid.serves_ilock (h : Valid sb s) {inum : Nat} (hlt : inum < sb.ninodes) :
    Serves sb s (.ilock inum)
      ((ilock sb s inum).map fun ip => { s with cache := Function.update s.cache inum (some ip) }) := by
  unfold Serves Store.step Store.stops ilock
  dsimp only
  rw [files_isNone hlt]
  by_cases hin : inum ∈ s.refs
  · have hcount : ¬ s.refs.count inum < 1 := not_lt.mpr (List.count_pos_iff.mpr hin)
    rw [if_neg (not_not.mpr hin), if_neg hcount]
    cases hcached : s.cache inum with
    | some ip =>
      obtain ⟨_, rfl, htype⟩ := h.cached inum ip hcached
      refine .ok ⟨?_, rfl, if_neg (by simpa using htype), .same rfl _⟩
      dsimp only
      rw [← hcached, Function.update_eq_self]
      exact h
    | none =>
      dsimp only
      by_cases htype : (dinode sb s.disk inum).type = 0
      · rw [if_pos htype]
        exact .error (.inl (if_pos (by simpa using htype)))
      · rw [if_neg htype]
        refine .ok ⟨h.setCache (fun ip hip => ?_) fun _ => hin, rfl, if_neg (by simpa using htype), .same rfl _⟩
        obtain rfl := Option.some.inj hip
        exact ⟨hlt, rfl, htype⟩
  · have hcount : s.refs.count inum < 1 := by
      rw [List.count_eq_zero.mpr hin]
      exact Nat.one_pos
    rw [if_pos hin, if_pos hcount]
    exact .error (.inl rfl)

theorem Writes.exists_length_le {need n : Nat} (h : Writes sb need n bs) : ∃ cs, bs ⊆ cs ∧ cs.length ≤ need + n + 2 := by
  obtain ⟨as, cs, inum, hone, hspan, rfl⟩ := h
  obtain ⟨all, hsub, hle⟩ := hspan.exists_length_le
  refine ⟨all ++ [iblock sb inum], List.append_subset.mpr ⟨fun c hc => ?_, List.subset_append_right ..⟩, ?_⟩
  · exact List.mem_append_left _ (hsub hc)
  · rw [List.length_append, List.length_singleton]
    omega

theorem Valid.serves_writei (h : Valid sb s) {inum : Nat} (hcached : s.cache inum = some ip) {src : List UInt8}
    (hsrc : src.length < 2 ^ 32) (off : UInt32) (dev : Option Nat) :
    Serves sb s (.writei inum src off dev) ((Fs.writei sb dev s.disk inum ip src off).map (s.hold inum)) := by
  have hf := h.files_cached hcached
  unfold Serves Store.step Store.stops Store.writes
  dsimp only
  rw [hf, Option.map_some, Option.bind_some, Option.elim_some]
  rcases h.writei_cases hcached hf hsrc off dev with ⟨hrefused, hr⟩ | ⟨haccepts, hends⟩
  · rw [hr, if_pos hrefused, if_pos hrefused, ← hf, Function.update_eq_self]
    refine .ok ⟨?_, rfl, rfl, .same rfl _⟩
    rw [State.hold, ← hcached, Function.update_eq_self]
    exact h
  · rw [if_neg haccepts, if_neg haccepts, if_neg haccepts]
    refine hends.map (fun msg hmsg => ?_) fun r hr => ?_
    · rcases hmsg with ⟨bs, hwrites, hrefuses⟩ | ⟨rfl, hfree⟩
      · obtain ⟨cs, hsub, hle⟩ := hwrites.exists_length_le
        exact .inr ⟨bs, cs, hsub, hle, hrefuses⟩
      · exact .inl (if_pos hfree)
    · obtain ⟨hvalid, hfiles, hroom, _, _, _, hlogs⟩ := hr
      exact ⟨hvalid, hfiles, if_neg (not_lt.mpr hroom), .logs hlogs _⟩

theorem Valid.serves_link (h : Valid sb s) {inum : Nat} (hcached : s.cache inum = some ip) (nlink : UInt16) :
    Serves sb s (.link inum nlink) ((iupdate sb s.disk inum { ip with nlink := nlink }).map fun d =>
      s.hold inum (⟨d, { ip with nlink := nlink }, ()⟩ : Done Unit)) := by
  refine (h.link hcached nlink).map (fun m hm => ?_) fun d hd => ⟨hd.1, hd.2.1, rfl, .logs hd.2.2 _⟩
  exact .inr ⟨_, _, List.Subset.refl _, le_rfl, hm⟩

theorem Valid.serves_iput (h : Valid sb s) {inum : Nat} (hlast : s.Last inum) :
    Serves sb s (.iput inum) (iput sb s inum) := by
  obtain ⟨hsome, hcount⟩ := hlast
  obtain ⟨ip, hcached⟩ := Option.isSome_iff_exists.mp hsome
  have hf := h.files_cached hcached
  unfold Serves Store.step iput
  dsimp only
  rw [hcached, hf, Option.bind_some]
  dsimp only
  by_cases hnlink : ip.nlink = 0
  · rw [if_pos hnlink, if_pos ⟨hnlink, hcount⟩]
    have hends := (h.itrunc hcached).map (Q := fun s' : State => Valid sb s' ∧
        files sb s'.disk = Function.update (files sb s.disk) inum none ∧ Logs sb (truncated sb inum) s.disk s'.disk)
      (f := fun d => State.unref { s with disk := d, cache := Function.update s.cache inum none } inum)
      (fun _ hm => hm) fun d hd => ⟨hd.1.unref inum, hd.2⟩
    have hassoc : ((Fs.itrunc sb s.disk inum ip).bind fun r => (iupdate sb r.disk inum { r.ip with type := 0 }).map fun d =>
        State.unref { s with disk := d, cache := Function.update s.cache inum none } inum) =
        ((Fs.itrunc sb s.disk inum ip).bind fun r => iupdate sb r.disk inum { r.ip with type := 0 }).map fun d =>
          State.unref { s with disk := d, cache := Function.update s.cache inum none } inum := by
      cases Fs.itrunc sb s.disk inum ip <;> rfl
    rw [hassoc]
    refine hends.mono (fun s' hs' => ⟨hs'.1, hs'.2.1, rfl, .logs hs'.2.2 _⟩) fun m hm => .inr ⟨_, _, List.Subset.refl _, ?_, hm⟩
    rw [truncated, List.length_append, length_bitmap]
    exact le_rfl
  · rw [if_neg hnlink, if_neg fun hand => hnlink hand.1, ← hf, Function.update_eq_self]
    exact .ok ⟨h.unref inum, rfl, rfl, .same rfl _⟩

theorem iput_of_not_last {inum : Nat} (h : ¬ s.Last inum) : iput sb s inum = .ok (s.unref inum) := by
  unfold iput
  cases hcached : s.cache inum with
  | none => rfl
  | some ip =>
    refine if_neg fun hand => h ⟨?_, hand.2⟩
    rw [hcached]
    rfl

theorem Valid.readi_hold (h : Valid sb s) {inum : Nat} (hcached : s.cache inum = some ip) (off n : UInt32)
    (dev : Option (List UInt8)) : (Fs.readi sb dev s.disk ip off n).map (s.hold inum) = .ok s := by
  obtain ⟨f, _, hread⟩ := h.readi hcached
  rw [hread]
  change Except.ok { s with disk := s.disk, cache := Function.update s.cache inum (some ip) } = _
  rw [← hcached, Function.update_eq_self]

theorem Valid.endOp (h : Valid sb s) : Valid sb s.endOp := by
  unfold State.endOp
  split
  · exact ⟨h.sound, h.cached, h.referred, fun _ => rfl⟩
  · next hmore => exact ⟨h.sound, h.cached, h.referred, fun hout => absurd hout hmore⟩

theorem endOp_files (sb : Superblock) (s : State) : files sb s.endOp.disk = files sb s.disk := by
  unfold State.endOp
  split <;> rfl

theorem Valid.beginOp (h : Valid sb s) (hnext : s.beginOp = .next s') :
    Valid sb s' ∧ files sb s'.disk = files sb s.disk := by
  unfold State.beginOp at hnext
  split_ifs at hnext
  cases hnext
  exact ⟨⟨h.sound, h.cached, h.referred, fun hout => absurd hout (Nat.succ_ne_zero _)⟩, rfl⟩

/-- An operation on a locked inode waits, or there is a copy of the inode. -/
theorem locked_cases (s : State) (inum : Nat) (f : Inode → Except String State) :
    s.locked inum f = .waits ∨ ∃ ip, s.cache inum = some ip ∧ s.locked inum f = .ofExcept (f ip) := by
  unfold State.locked
  cases hcached : s.cache inum with
  | none => exact .inl rfl
  | some ip => exact .inr ⟨ip, rfl, rfl⟩

/-- Each operation waits, or does what it is for or stops for a reason. -/
theorem Valid.serves (h : Valid sb s) {e : Event} (ha : Orderly sb s e) :
    step sb s e = .waits ∨ ∃ x, step sb s e = .ofExcept x ∧ Serves sb s e x := by
  cases e with
  | ialloc type => exact .inr ⟨_, rfl, h.serves_ialloc ha⟩
  | iget inum =>
    refine .inr ⟨_, rfl, (h.iget inum).mono (fun s' hs' => ?_) fun m hm => .inl hm⟩
    exact ⟨hs'.1, congrArg (files sb) hs'.2.1, hs'.2.2, .same hs'.2.1 _⟩
  | ilock inum => exact .inr ⟨_, rfl, h.serves_ilock ha⟩
  | readi inum off n dev =>
    refine (locked_cases s inum _).imp_right fun hlocked => ?_
    obtain ⟨ip, hcached, hstep⟩ := hlocked
    refine ⟨_, hstep, ?_⟩
    rw [h.readi_hold hcached]
    exact .ok ⟨h, rfl, rfl, .same rfl _⟩
  | writei inum src off dev =>
    refine (locked_cases s inum _).imp_right fun hlocked => ?_
    obtain ⟨ip, hcached, hstep⟩ := hlocked
    exact ⟨_, hstep, h.serves_writei hcached ha off dev⟩
  | link inum nlink =>
    refine (locked_cases s inum _).imp_right fun hlocked => ?_
    obtain ⟨ip, hcached, hstep⟩ := hlocked
    exact ⟨_, hstep, h.serves_link hcached nlink⟩
  | iput inum =>
    by_cases hlast : s.Last inum
    · exact .inr ⟨_, if_pos hlast, h.serves_iput hlast⟩
    · exact .inl (if_neg hlast)
  | unref inum =>
    by_cases hand : inum ∈ s.refs ∧ ¬ s.Last inum
    · refine .inr ⟨_, if_pos hand, ?_⟩
      rw [iput_of_not_last hand.2]
      exact .ok ⟨h.unref inum, rfl, rfl, .same rfl _⟩
    · exact .inl (if_neg hand)
  | beginOp =>
    rw [step]
    cases hstep : s.beginOp with
    | waits => exact .inl rfl
    | next s' =>
      obtain ⟨hvalid, hfiles⟩ := h.beginOp hstep
      exact .inr ⟨.ok s', rfl, .ok ⟨hvalid, hfiles, rfl, .inl rfl⟩⟩
    | panics m =>
      unfold State.beginOp at hstep
      split_ifs at hstep
  | endOp => exact .inr ⟨.ok s.endOp, rfl, .ok ⟨h.endOp, endOp_files sb s, rfl, .inr (.inl rfl)⟩⟩

/-- Each operation does to the files what it is for, by `log_write`. -/
theorem Valid.next (h : Valid sb s) {e : Event} (ha : Orderly sb s e) (hn : step sb s e = .next s') :
    Valid sb s' ∧ files sb s'.disk = (files sb s.disk).step sb.ninodes e ∧ Moves sb s.disk e s'.disk := by
  rcases h.serves ha with hwaits | ⟨x, hx, hserves⟩
  · rw [hwaits] at hn
    cases hn
  · obtain ⟨hvalid, hfiles, _, hmoves⟩ := hserves.of_ok (Turn.ofExcept_next (hx.symm.trans hn))
    exact ⟨hvalid, hfiles, hmoves⟩

end CompilingToAssembly.Xv6.Fs
