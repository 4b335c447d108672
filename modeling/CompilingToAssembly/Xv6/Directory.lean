import CompilingToAssembly.Xv6.Filewrite

/-! Directories: files of entries of 16 bytes, with the number of an inode and a name of at most
14 bytes. An entry with number 0 is free. -/
namespace CompilingToAssembly.Xv6.Fs
open Library

structure Dirent where
  inum : UInt16
  name : List UInt8

/-- Entry `j` of what a directory has in it. -/
def slot (bytes : List UInt8) (j : Nat) : Dirent where
  inum := .ofNat ((bytes.getD (16 * j) 0).toNat + 256 * (bytes.getD (16 * j + 1) 0).toNat)
  name := (List.range 14).map fun t => bytes.getD (16 * j + 2 + t) 0

/-- `strncmp` returns 0. -/
def strncmp : Nat → List UInt8 → List UInt8 → Bool
  | 0, _, _ => true
  | n + 1, p, q =>
    if p.headD 0 ≠ 0 ∧ p.headD 0 = q.headD 0 then strncmp n p.tail q.tail else p.headD 0 == q.headD 0

/-- What `strncpy` leaves in `n` bytes. -/
def strncpy : Nat → List UInt8 → List UInt8
  | 0, _ => []
  | n + 1, t => if t.headD 0 ≠ 0 then t.headD 0 :: strncpy n t.tail else List.replicate (n + 1) 0

def namecmp (s t : List UInt8) : Bool := strncmp 14 s t

/-- The entry for `name`. The number is an `ushort` on the disk. -/
def putDirent (inum : Nat) (name : List UInt8) : List UInt8 :=
  [.ofNat inum, .ofNat (inum / 256)] ++ strncpy 14 name

/-- `T_DIR`. -/
def tDir : UInt16 := 1

section Source
variable (sb : Superblock)

/-- The loops of `dirlookup` and `dirlink`, from `off` to the first entry with `p`. -/
def scan (message : String) (p : Dirent → Bool) : Nat → Disk → Inode → Nat → Except String (Done (Nat × Option Dirent))
  | 0, d, ip, off => .ok ⟨d, ip, (off, none)⟩
  | fuel + 1, d, ip, off =>
    if off < ip.size then
      (readi sb none d ip (.ofNat off) 16).bind fun r =>
        match r.value with
        | none => .error message
        | some data =>
          if data.length ≠ 16 then .error message
          else if p (slot data 0) then .ok ⟨r.disk, r.ip, (off, some (slot data 0))⟩
          else scan message p fuel r.disk r.ip (off + 16)
    else .ok ⟨d, ip, (off, none)⟩

/-- The loop of `dirlookup`, which finds the place of an entry and its number. -/
def dirfind (d : Disk) (dp : Inode) (name : List UInt8) : Except String (Done (Option (Nat × UInt16))) :=
  if dp.type ≠ tDir then .error "dirlookup not DIR"
  else (scan sb "dirlookup read" (fun de => de.inum != 0 && namecmp name de.name) (dp.size / 16 + 1) d dp 0).map fun r =>
    ⟨r.disk, r.ip, r.value.2.map fun de => (r.value.1, de.inum)⟩

/-- What `dirlookup` leaves, with a reference to the inode of the entry, if there is one. -/
structure Looked where
  state : State
  dp : Inode
  entry : Option (Nat × UInt16)

def dirlookup (s : State) (dinum : Nat) (dp : Inode) (name : List UInt8) : Except String Looked :=
  (dirfind sb s.disk dp name).bind fun r =>
    match r.value with
    | none => .ok ⟨s.hold dinum r, r.ip, none⟩
    | some e => ((s.hold dinum r).iget e.2.toNat).map fun s => ⟨s, r.ip, some e⟩

/-- What `dirlink` leaves, with `added` if it does not return -1. -/
structure Linked where
  state : State
  added : Bool

/-- The end of `dirlink`, for a name that is not there: an empty entry is looked for and written. -/
def addEntry (s : State) (dinum : Nat) (dp : Inode) (name : List UInt8) (inum : Nat) : Except String Linked :=
  (scan sb "dirlink read" (fun de => de.inum == 0) (dp.size / 16 + 1) s.disk dp 0).bind fun r =>
    (writei sb none r.disk dinum r.ip (putDirent inum name) (.ofNat r.value.1)).bind fun w =>
      if w.value ≠ some 16 then .error "dirlink" else .ok ⟨s.hold dinum w, true⟩

/-- The caller has locked the directory `dinum`, and nobody has locked another inode. -/
def dirlink (s : State) (dinum : Nat) (dp : Inode) (name : List UInt8) (inum : Nat) : Turn Linked :=
  (Turn.ofExcept (dirlookup sb s dinum dp name)).bind fun l =>
    match l.entry with
    | some e =>
      -- `iput` takes the lock of the inode
      if e.2.toNat = dinum then .waits
      else .ofExcept ((iput sb l.state e.2.toNat).map fun s => ⟨s, false⟩)
    | none => .ofExcept (addEntry sb l.state dinum l.dp name inum)

end Source

/-! ### Names -/

theorem strncmp_strncpy (n : Nat) (p q : List UInt8) : strncmp n p (strncpy n q) = strncmp n p q := by
  induction n generalizing p q with
  | zero => rfl
  | succ n ih =>
    rw [strncpy]
    by_cases hq : q.headD 0 ≠ 0
    · rw [if_pos hq, strncmp, strncmp, List.headD_cons, List.tail_cons, ih]
    · have hzero : q.headD 0 = 0 := not_not.mp hq
      rw [if_neg hq, strncmp, strncmp, List.replicate_succ, List.headD_cons, hzero,
        if_neg fun hand => hand.1 hand.2, if_neg fun hand => hand.1 hand.2]

theorem strncmp_trans {n : Nat} {p q t : List UInt8} (hq : strncmp n p q = true) (ht : strncmp n p t = true) :
    strncmp n q t = true := by
  induction n generalizing p q t with
  | zero => rfl
  | succ n ih =>
    rw [strncmp] at hq ht ⊢
    by_cases hzero : p.headD 0 = 0
    · rw [if_neg fun hand => hand.1 hzero, beq_iff_eq] at hq ht
      rw [if_neg fun hand => hand.1 (hq.symm.trans hzero), beq_iff_eq, ← hq, ← ht]
    · by_cases hsame : p.headD 0 = q.headD 0
      · by_cases hsame' : p.headD 0 = t.headD 0
        · rw [if_pos ⟨hzero, hsame⟩] at hq
          rw [if_pos ⟨hzero, hsame'⟩] at ht
          rw [if_pos ⟨hsame ▸ hzero, hsame.symm.trans hsame'⟩]
          exact ih hq ht
        · rw [if_neg fun hand => hsame' hand.2, beq_iff_eq] at ht
          exact absurd ht hsame'
      · rw [if_neg fun hand => hsame hand.2, beq_iff_eq] at hq
        exact absurd hq hsame

theorem length_strncpy (n : Nat) (q : List UInt8) : (strncpy n q).length = n := by
  induction n generalizing q with
  | zero => rfl
  | succ n ih =>
    rw [strncpy]
    split_ifs
    · rw [List.length_cons, ih]
    · exact List.length_replicate

theorem length_putDirent (inum : Nat) (name : List UInt8) : (putDirent inum name).length = 16 := by
  rw [putDirent, List.length_append, length_strncpy]
  rfl

theorem slot_putDirent (inum : Nat) (name : List UInt8) :
    slot (putDirent inum name) 0 = ⟨.ofNat inum, strncpy 14 name⟩ := by
  unfold slot putDirent
  congr 1
  · rw [← UInt16.toNat_inj]
    simp only [Nat.mul_zero, Nat.zero_add, List.cons_append, List.getD_cons_zero, List.getD_cons_succ,
      UInt8.toNat_ofNat', UInt16.toNat_ofNat']
    omega
  · refine List.ext_getElem (by simp [length_strncpy]) fun x hx hx' => ?_
    rw [List.getElem_map, List.getElem_range]
    have hshift : 16 * 0 + 2 + x = x + 1 + 1 := by omega
    rw [hshift, List.cons_append, List.cons_append, List.nil_append, List.getD_cons_succ, List.getD_cons_succ,
      List.getD_eq_getElem _ _ hx']

/-! ### Entries -/

theorem getD_slice (bytes : List UInt8) (a : Nat) {n x : Nat} (hx : x < n) :
    ((bytes.drop a).take n).getD x 0 = bytes.getD (a + x) 0 := by
  rw [List.getD_eq_getElem?_getD, List.getD_eq_getElem?_getD, List.getElem?_take_of_lt hx, List.getElem?_drop]

theorem slot_congr {bytes bytes' : List UInt8} {j j' : Nat} (h : ∀ x < 16, bytes'.getD (16 * j' + x) 0 = bytes.getD (16 * j + x) 0) :
    slot bytes' j' = slot bytes j := by
  unfold slot
  have hzero := h 0 (by decide)
  rw [Nat.add_zero, Nat.add_zero] at hzero
  rw [hzero, h 1 (by decide)]
  congr 1
  refine List.map_congr_left fun t ht => ?_
  rw [Nat.add_assoc, Nat.add_assoc]
  exact h (2 + t) (by rw [List.mem_range] at ht; omega)

theorem slot_slice (bytes : List UInt8) (j : Nat) : slot ((bytes.drop (16 * j)).take 16) 0 = slot bytes j :=
  slot_congr fun x hx => by rw [Nat.mul_zero, Nat.zero_add, getD_slice bytes _ hx]

/-- What `writei` of an entry does to the others. -/
theorem slot_write {f : File} {i : Nat} {src : List UInt8} (hsrc : src.length = 16) (hi : 16 * i ≤ f.bytes.length) (j : Nat) :
    slot (f.write src (16 * i)).bytes j = if j = i then slot src 0 else slot f.bytes j := by
  have htake : (f.bytes.take (16 * i)).length = 16 * i := List.length_take_of_le hi
  rw [File.write, List.append_assoc]
  dsimp only
  by_cases hji : j = i
  · rw [if_pos hji, hji]
    refine slot_congr fun x hx => ?_
    rw [List.getD_append_right _ _ _ _ (by omega), htake, List.getD_append _ _ _ _ (by omega)]
    congr 1
    omega
  · rw [if_neg hji]
    refine slot_congr fun x hx => ?_
    by_cases hbefore : j < i
    · rw [List.getD_append _ _ _ _ (by omega), List.getD_eq_getElem?_getD, List.getD_eq_getElem?_getD,
        List.getElem?_take_of_lt (by omega)]
    · rw [List.getD_append_right _ _ _ _ (by omega), List.getD_append_right _ _ _ _ (by omega), htake, hsrc,
        List.getD_eq_getElem?_getD, List.getD_eq_getElem?_getD, List.getElem?_drop]
      congr 2
      omega

/-- The first entry with `p`. -/
def first (p : Dirent → Bool) (bytes : List UInt8) : Option Nat :=
  (List.range (bytes.length / 16)).find? fun j => p (slot bytes j)

variable {sb : Superblock} {d : Disk} {ip : Inode} {f : File} {s : State} {p : Dirent → Bool}

/-- The loops find the first entry, or end at the size of the directory. -/
theorem scan_eq (hread : ∀ off n, readi sb none d ip off n = .ok ⟨d, ip, f.read off n⟩) (hsize : f.bytes.length = ip.size)
    {k : Nat} (hk : ip.size = 16 * k) (hmax : ip.size ≤ 140 * 512) (message : String) {fuel j : Nat} (hj : j ≤ k)
    (hfuel : k - j < fuel) :
    scan sb message p fuel d ip (16 * j) = .ok ⟨d, ip,
      match (List.range' j (k - j)).find? fun j => p (slot f.bytes j) with
      | some i => (16 * i, some (slot f.bytes i))
      | none => (16 * k, none)⟩ := by
  induction fuel generalizing j with
  | zero => omega
  | succ fuel ih =>
    rw [scan]
    by_cases hend : j = k
    · rw [if_neg (by omega), hend, Nat.sub_self]
      rfl
    · have hoff : (UInt32.ofNat (16 * j)).toNat = 16 * j := by
        rw [UInt32.toNat_ofNat']
        omega
      have hsum : (UInt32.ofNat (16 * j) + 16).toNat = 16 * j + 16 := by
        rw [UInt32.toNat_add, hoff]
        have h16 : (16 : UInt32).toNat = 16 := rfl
        omega
      have hdata : f.read (.ofNat (16 * j)) 16 = some ((f.bytes.drop (16 * j)).take 16) := by
        rw [File.read, if_neg, hoff]
        · rfl
        · rw [UInt32.lt_iff_toNat_lt, hsum, hoff]
          omega
      have hrange : List.range' j (k - j) = j :: List.range' (j + 1) (k - (j + 1)) := by
        have hsucc : k - j = k - (j + 1) + 1 := by omega
        rw [hsucc, List.range'_succ]
      rw [if_pos (by omega), hread, hdata]
      dsimp only [Except.bind]
      have hlength : ((f.bytes.drop (16 * j)).take 16).length = 16 := by
        rw [List.length_take, List.length_drop]
        omega
      rw [if_neg (not_not.mpr hlength), slot_slice, hrange, List.find?_cons]
      by_cases hp : p (slot f.bytes j) = true
      · rw [if_pos hp, hp]
      · rw [if_neg hp, Bool.not_eq_true _ |>.mp hp]
        exact ih (by omega : j + 1 ≤ k) (by omega)

/-! ### `dirlookup` and `dirlink` -/

/-- The entry is for `name`. -/
def hit (name : List UInt8) (de : Dirent) : Bool := de.inum != 0 && namecmp name de.name

def lookup (bytes name : List UInt8) : Option (Nat × UInt16) :=
  (first (hit name) bytes).map fun j => (16 * j, (slot bytes j).inum)

/-- The first free entry, or the end. -/
def freeSlot (bytes : List UInt8) : Nat := (first (fun de => de.inum == 0) bytes).getD (bytes.length / 16)

/-- A directory that is in memory. -/
structure Directory (sb : Superblock) (s : State) (dinum : Nat) (ip : Inode) (f : File) : Prop where
  valid : Valid sb s
  cached : s.cache dinum = some ip
  file : files sb s.disk dinum = some f
  type : f.type = tDir
  whole : 16 ∣ f.bytes.length

variable {dinum : Nat}

theorem Directory.same (h : Directory sb s dinum ip f) : ip.type = tDir ∧ f.bytes.length = ip.size := by
  have hf := h.file
  have htype := h.type
  rw [h.valid.files_cached h.cached, Option.some.injEq] at hf
  subst hf
  exact ⟨htype, by rw [List.length_map, List.length_range]⟩

theorem Directory.readi (h : Directory sb s dinum ip f) (off n : UInt32) :
    Fs.readi sb none s.disk ip off n = .ok ⟨s.disk, ip, f.read off n⟩ := by
  obtain ⟨f', hf', hread⟩ := h.valid.readi h.cached
  obtain rfl : f' = f := Option.some.inj (hf'.symm.trans h.file)
  rw [hread, if_neg (by rw [h.type]; decide)]

theorem Directory.scan (h : Directory sb s dinum ip f) (message : String) (p : Dirent → Bool) :
    Fs.scan sb message p (ip.size / 16 + 1) s.disk ip 0 = .ok ⟨s.disk, ip,
      match first p f.bytes with
      | some i => (16 * i, some (slot f.bytes i))
      | none => (f.bytes.length, none)⟩ := by
  obtain ⟨_, hsize⟩ := h.same
  obtain ⟨k, hk⟩ := h.whole
  have hcount : f.bytes.length / 16 = k := by omega
  have hfuel : k - 0 < ip.size / 16 + 1 := by omega
  have hscan := scan_eq (p := p) h.readi hsize (hsize ▸ hk) (hsize ▸ h.valid.length_le h.file) message (Nat.zero_le k) hfuel
  rw [Nat.mul_zero, Nat.sub_zero, ← List.range_eq_range'] at hscan
  rw [hscan, first, hcount, hk]

theorem Directory.dirfind (h : Directory sb s dinum ip f) (name : List UInt8) :
    Fs.dirfind sb s.disk ip name = .ok ⟨s.disk, ip, lookup f.bytes name⟩ := by
  have hscan := h.scan "dirlookup read" (hit name)
  rw [Fs.dirfind, if_neg (not_not.mpr h.same.1)]
  change (Fs.scan sb "dirlookup read" (hit name) (ip.size / 16 + 1) s.disk ip 0).map _ = _
  rw [hscan, lookup]
  cases first (hit name) f.bytes with
  | none => rfl
  | some i => rfl

theorem freeSlot_cases (bytes : List UInt8) :
    (freeSlot bytes < bytes.length / 16 ∧ (slot bytes (freeSlot bytes)).inum = 0) ∨ freeSlot bytes = bytes.length / 16 := by
  unfold freeSlot
  cases hfirst : first (fun de => de.inum == 0) bytes with
  | none => exact .inr rfl
  | some i =>
    have hfree := List.find?_some hfirst
    exact .inl ⟨List.mem_range.mp (List.mem_of_find?_eq_some hfirst), beq_iff_eq.mp hfree⟩

theorem freeSlot_le (bytes : List UInt8) : 16 * freeSlot bytes ≤ bytes.length := by
  rcases freeSlot_cases bytes with h | h <;> omega

theorem length_write_entry (f : File) {i : Nat} (hi : 16 * i ≤ f.bytes.length) {src : List UInt8} (hsrc : src.length = 16) :
    (f.write src (16 * i)).bytes.length = max f.bytes.length (16 * i + 16) := by
  rw [File.write]
  simp only [List.length_append, List.length_take, List.length_drop, hsrc]
  omega

theorem find?_range_unique {p : Nat → Bool} {n i : Nat} (hi : i < n) (hp : p i = true) (honly : ∀ j < n, p j = true → j = i) :
    (List.range n).find? p = some i := by
  cases hfind : (List.range n).find? p with
  | none => exact absurd hp (List.find?_eq_none.mp hfind i (List.mem_range.mpr hi))
  | some j => exact congrArg some (honly j (List.mem_range.mp (List.mem_of_find?_eq_some hfind)) (List.find?_some hfind))

theorem find?_range_extend {p q : Nat → Bool} {m n : Nat} (hm : m = n ∨ (m = n + 1 ∧ q n = false))
    (hsame : ∀ j < n, q j = p j) : (List.range m).find? q = (List.range n).find? p := by
  have hrange : (List.range n).find? q = (List.range n).find? p :=
    List.find?_congr fun j hj => hsame j (List.mem_range.mp hj)
  rcases hm with rfl | ⟨rfl, hlast⟩
  · exact hrange
  · rw [List.range_succ, List.find?_append, hrange, List.find?_singleton, hlast]
    simp

section Link
variable {name : List UInt8} {inum : Nat}

/-- The entries of a directory with a new one. -/
theorem hit_write (f : File) (name : List UInt8) (inum : Nat) (name' : List UInt8) (j : Nat) :
    hit name' (slot (f.write (putDirent inum name) (16 * freeSlot f.bytes)).bytes j) =
      if j = freeSlot f.bytes then UInt16.ofNat inum != 0 && namecmp name' name else hit name' (slot f.bytes j) := by
  rw [slot_write (length_putDirent inum name) (freeSlot_le f.bytes)]
  by_cases hj : j = freeSlot f.bytes
  · rw [if_pos hj, if_pos hj, slot_putDirent, hit, namecmp, strncmp_strncpy]
    rfl
  · rw [if_neg hj, if_neg hj]

theorem lookup_write_hit (hwhole : 16 ∣ f.bytes.length) (hnone : lookup f.bytes name = none)
    (hnum : UInt16.ofNat inum ≠ 0) {name' : List UInt8} (hname : namecmp name' name = true) :
    lookup (f.write (putDirent inum name) (16 * freeSlot f.bytes)).bytes name' =
      some (16 * freeSlot f.bytes, .ofNat inum) := by
  have hlength := length_write_entry f (freeSlot_le f.bytes) (length_putDirent inum name)
  have hslot := slot_write (length_putDirent inum name) (freeSlot_le f.bytes)
  have hhit := hit_write f name inum name'
  have hcases := freeSlot_cases f.bytes
  rw [lookup, Option.map_eq_none_iff, first, List.find?_eq_none] at hnone
  rw [lookup, first, hlength]
  generalize freeSlot f.bytes = i at *
  generalize f.write (putDirent inum name) (16 * i) = f' at *
  have hself : hit name' (slot f'.bytes i) = true := by
    rw [hhit, if_pos rfl, hname, bne_iff_ne.mpr hnum]
    rfl
  -- an older entry that is found under `name'` would have been found under `name`
  have honly : ∀ j < max f.bytes.length (16 * i + 16) / 16, hit name' (slot f'.bytes j) = true → j = i := by
    intro j hlt hj
    by_contra hji
    rw [hhit, if_neg hji, hit, Bool.and_eq_true] at hj
    refine hnone j (List.mem_range.mpr (by omega)) ?_
    rw [hit, hj.1, Bool.true_and]
    exact strncmp_trans hname hj.2
  have hfound := find?_range_unique (by omega : i < max f.bytes.length (16 * i + 16) / 16) hself honly
  rw [hfound, Option.map_some, hslot, if_pos rfl, slot_putDirent]

theorem lookup_write_miss (hwhole : 16 ∣ f.bytes.length) {name' : List UInt8}
    (hmiss : (UInt16.ofNat inum != 0 && namecmp name' name) = false) :
    lookup (f.write (putDirent inum name) (16 * freeSlot f.bytes)).bytes name' = lookup f.bytes name' := by
  have hlength := length_write_entry f (freeSlot_le f.bytes) (length_putDirent inum name)
  have hslot := slot_write (length_putDirent inum name) (freeSlot_le f.bytes)
  have hhit := hit_write f name inum name'
  have hcases := freeSlot_cases f.bytes
  rw [lookup, lookup, first, hlength]
  generalize freeSlot f.bytes = i at *
  generalize f.write (putDirent inum name) (16 * i) = f' at *
  have hnew : hit name' (slot f'.bytes i) = false := by rw [hhit, if_pos rfl, hmiss]
  have hold : ∀ j < f.bytes.length / 16, hit name' (slot f'.bytes j) = hit name' (slot f.bytes j) := by
    intro j hj
    by_cases hji : j = i
    · rcases hcases with ⟨_, hfree⟩ | hend
      · rw [hji, hnew, hit, hfree]
        rfl
      · omega
    · rw [hhit, if_neg hji]
  have hsame : ((List.range (max f.bytes.length (16 * i + 16) / 16)).find? fun j => hit name' (slot f'.bytes j)) =
      first (hit name') f.bytes := by
    refine find?_range_extend ?_ hold
    rcases hcases with ⟨hlt, _⟩ | hend
    · exact .inl (by omega)
    · exact .inr ⟨by omega, hend ▸ hnew⟩
  rw [hsame]
  cases hfirst : first (hit name') f.bytes with
  | none => rfl
  | some j =>
    have hji : j ≠ i := by
      rintro rfl
      have hj := List.find?_some hfirst
      rw [← hold j (List.mem_range.mp (List.mem_of_find?_eq_some hfirst)), hnew] at hj
      cases hj
    rw [Option.map_some, Option.map_some, hslot, if_neg hji]

/-- The new entry is found, unless its number is stored as 0, and all other names as before. -/
theorem lookup_write (hwhole : 16 ∣ f.bytes.length) (hnone : lookup f.bytes name = none) (inum : Nat) (name' : List UInt8) :
    lookup (f.write (putDirent inum name) (16 * freeSlot f.bytes)).bytes name' =
      if UInt16.ofNat inum ≠ 0 ∧ namecmp name' name then some (16 * freeSlot f.bytes, .ofNat inum)
      else lookup f.bytes name' := by
  split_ifs with hnamed
  · exact lookup_write_hit hwhole hnone hnamed.1 hnamed.2
  · refine lookup_write_miss hwhole ?_
    rw [← Bool.not_eq_true, Bool.and_eq_true, bne_iff_ne]
    exact hnamed

/-- What `readi` leaves of a directory is what there was. -/
theorem Directory.hold_self (h : Directory sb s dinum ip f) {α : Type} (x : α) : s.hold dinum ⟨s.disk, ip, x⟩ = s := by
  change { s with disk := s.disk, cache := Function.update s.cache dinum (some ip) } = s
  rw [← h.cached, Function.update_eq_self]

/-- `iput` of the reference that `iget` has just made. -/
theorem Valid.iput_iget {s' : State} (h : Valid sb s) {num : Nat} (hget : s.iget num = .ok s') : iput sb s' num = .ok s := by
  unfold State.iget at hget
  by_cases hin : num ∈ s.refs
  · rw [if_pos hin] at hget
    obtain rfl := Except.ok.inj hget
    have hcount := List.count_pos_iff.mpr hin
    rw [iput_of_not_last fun hlast => ?_]
    · rw [State.unref]
      dsimp only
      rw [List.erase_cons_head, if_pos hin]
    · have hone := hlast.2
      rw [List.count_cons_self] at hone
      omega
  · rw [if_neg hin] at hget
    split_ifs at hget
    obtain rfl := Except.ok.inj hget
    have huncached : s.cache num = none := by
      cases hcached : s.cache num with
      | none => rfl
      | some ip => exact absurd (h.referred num ip hcached) hin
    rw [iput_of_not_last fun hlast => ?_]
    · rw [State.unref]
      dsimp only
      rw [List.erase_cons_head, if_neg hin, Function.update_idem, ← huncached, Function.update_eq_self]
    · have hsome : (Function.update s.cache num none num).isSome = true := hlast.1
      rw [Function.update_self] at hsome
      cases hsome

/-- A name that is there: `dirlink` drops the reference it has got, for which it waits if the inode
is the directory itself. -/
theorem Directory.dirlink_found (h : Directory sb s dinum ip f) (inum : Nat) {e : Nat × UInt16}
    (hfound : lookup f.bytes name = some e) :
    dirlink sb s dinum ip name inum =
      if e.2.toNat ∉ s.refs ∧ ninode ≤ s.refs.dedup.length then .panics "iget: no inodes"
      else if e.2.toNat = dinum then .waits else .next ⟨s, false⟩ := by
  have hstops : entryStops s.refs e.2.toNat =
      if e.2.toNat ∉ s.refs ∧ ninode ≤ s.refs.dedup.length then some "iget: no inodes" else none := rfl
  rw [dirlink, dirlookup, h.dirfind, hfound]
  dsimp only [Except.bind]
  rw [h.hold_self]
  rcases (h.valid.iget e.2.toNat).exists_or with ⟨s', hget, _, _, hnone⟩ | ⟨m, hget, hsome⟩
  · rw [hstops] at hnone
    split_ifs at hnone with hfull
    rw [hget, if_neg hfull]
    change (if e.2.toNat = dinum then Turn.waits
      else Turn.ofExcept ((iput sb s' e.2.toNat).map fun s => (⟨s, false⟩ : Linked))) = _
    rw [h.valid.iput_iget hget]
    rfl
  · rw [hstops] at hsome
    split_ifs at hsome with hfull
    obtain rfl := Option.some.inj hsome
    rw [hget, if_pos hfull]
    rfl

theorem Directory.dirlink_new (h : Directory sb s dinum ip f) (inum : Nat) (hnone : lookup f.bytes name = none) :
    dirlink sb s dinum ip name inum = .ofExcept (addEntry sb s dinum ip name inum) := by
  rw [dirlink, dirlookup, h.dirfind, hnone]
  dsimp only [Except.bind]
  rw [h.hold_self]
  rfl

/-- Where the scan for an empty entry stops. -/
theorem Directory.addEntry_eq (h : Directory sb s dinum ip f) (name : List UInt8) (inum : Nat) :
    addEntry sb s dinum ip name inum =
      (writei sb none s.disk dinum ip (putDirent inum name) (.ofNat (16 * freeSlot f.bytes))).bind fun w =>
        if w.value ≠ some 16 then .error "dirlink" else .ok ⟨s.hold dinum w, true⟩ := by
  rw [addEntry, h.scan]
  obtain ⟨k, hk⟩ := h.whole
  unfold freeSlot
  cases first (fun de => de.inum == 0) f.bytes with
  | none =>
    have hend : 16 * (f.bytes.length / 16) = f.bytes.length := by omega
    rw [Option.getD_none, hend]
    rfl
  | some i => rfl

/-- A new entry: the directory has it, or is full, or there is no block for it, or the log is full. -/
theorem Directory.addEntry (h : Directory sb s dinum ip f) (name : List UInt8) (inum : Nat) :
    Ends
      (fun l : Linked => l.added = true ∧ l.state.refs = s.refs ∧
        (∀ j, j ≠ dinum → files sb l.state.disk j = files sb s.disk j) ∧
        ∃ ip', Directory sb l.state dinum ip' (f.write (putDirent inum name) (16 * freeSlot f.bytes)))
      (fun m => (m = "dirlink" ∧ ip.size = 140 * 512) ∨
        (m = "balloc: out of blocks" ∧ freeBlocks sb (s.disk.view sb) < needed ip.size (ip.size + 16)) ∨
        (¬ Room sb s.disk Log.maxOpBlocks ∧ (m = "too big a transaction" ∨ m = "log_write outside of trans")))
      (Fs.addEntry sb s dinum ip name inum) := by
  obtain ⟨k, hk⟩ := h.whole
  obtain ⟨htype, hsize⟩ := h.same
  have hmax := h.valid.length_le h.file
  have hle := freeSlot_le f.bytes
  have hsrc := length_putDirent inum name
  have hoff : (UInt32.ofNat (16 * freeSlot f.bytes)).toNat = 16 * freeSlot f.bytes := by
    rw [UInt32.toNat_ofNat']
    omega
  have hdev : f.type ≠ tDev := by
    rw [h.type]
    decide
  rw [h.addEntry_eq]
  rcases h.valid.writei_cases h.cached h.file (by omega : (putDirent inum name).length < 2 ^ 32)
    (.ofNat (16 * freeSlot f.bytes)) none with ⟨hrefused, hr⟩ | ⟨haccepts, hends⟩
  · rw [hr, if_neg hdev]
    have hrefuses := hrefused.resolve_left hdev
    rw [File.refuses, UInt32.lt_iff_toNat_lt, toNat_add_ofNat (by omega), hoff, hsrc] at hrefuses
    exact .error (.inl ⟨rfl, by omega⟩)
  · refine hends.bind (fun m hm => .inr ?_) fun w hw => ?_
    · rcases hm with ⟨bs, hwrites, hrefuses⟩ | ⟨rfl, hfree⟩
      · obtain ⟨cs, hsub, hten⟩ := hwrites.few (hoff.trans_le hle) (hsrc.trans_le (by decide))
        exact .inr (hrefuses.no_room hsub hten)
      · rw [hoff, hsrc] at hfree
        refine .inl ⟨rfl, ?_⟩
        rcases freeSlot_cases f.bytes with ⟨hlt, _⟩ | hend
        · rw [needed_of_ge (by omega)] at hfree
          omega
        · have heq : 16 * freeSlot f.bytes = ip.size := by omega
          rw [heq, hsize] at hfree
          exact hfree
    · obtain ⟨hvalid, hfiles, _, hvalue, _⟩ := hw
      rw [hoff] at hfiles
      rw [hvalue, hsrc, if_neg (not_not.mpr rfl)]
      refine .ok ⟨rfl, rfl, fun j hj => ?_, w.ip, hvalid, Function.update_self .., ?_, h.type, ?_⟩
      · change files sb w.disk j = _
        rw [hfiles, Function.update_of_ne hj]
      · change files sb w.disk dinum = _
        rw [hfiles, Function.update_self]
      · rw [length_write_entry f hle hsrc]
        omega

/-- What is added is added by one `writei`. -/
theorem Directory.step_addEntry (h : Directory sb s dinum ip f) {inum : Nat} {l : Linked}
    (hl : Fs.addEntry sb s dinum ip name inum = .ok l) :
    step sb s (.writei dinum (putDirent inum name) (.ofNat (16 * freeSlot f.bytes)) none) = .next l.state := by
  rw [h.addEntry_eq] at hl
  obtain ⟨w, hw, hl⟩ := bind_ok hl
  split_ifs at hl
  obtain rfl := Except.ok.inj hl
  rw [step, State.locked, h.cached]
  dsimp only
  rw [hw]
  rfl

/-- **A directory is a map from names to numbers**: `dirlink` refuses a name that is there and
changes nothing, unless it waits for ever for the directory's own lock, and otherwise `dirlookup`
finds the new entry under every name that agrees in its first 14 bytes, and under all other names
what it found before. (The entry has the number as a `ushort`, and is an empty one if that is 0.) -/
theorem dirlink_adds {es : List Event} (h : sb.nmeta ≤ 4096) (hrun : Runs (step sb) (Orderly sb) (formatted sb) es s)
    (hcached : s.cache dinum = some ip) (htype : ip.type = tDir) (hsize : 16 ∣ ip.size) (name : List UInt8) (inum : Nat) :
    ∃ found, dirfind sb s.disk ip name = .ok ⟨s.disk, ip, found⟩ ∧
    (∀ off num, found = some (off, num) → dirlink sb s dinum ip name inum =
      if num.toNat ∉ s.refs ∧ ninode ≤ s.refs.dedup.length then .panics "iget: no inodes"
      else if num.toNat = dinum then .waits else .next ⟨s, false⟩) ∧
    (found = none →
      (dirlink sb s dinum ip name inum = .panics "dirlink" ∧ ip.size = 140 * 512) ∨
      (dirlink sb s dinum ip name inum = .panics "balloc: out of blocks" ∧
        freeBlocks sb (s.disk.view sb) < needed ip.size (ip.size + 16)) ∨
      (¬ Room sb s.disk Log.maxOpBlocks ∧ (dirlink sb s dinum ip name inum = .panics "too big a transaction" ∨
        dirlink sb s dinum ip name inum = .panics "log_write outside of trans")) ∨
      ∃ s' ip' off, dirlink sb s dinum ip name inum = .next ⟨s', true⟩ ∧ s'.cache dinum = some ip' ∧ ip'.type = tDir ∧
        16 ∣ ip'.size ∧ s'.refs = s.refs ∧
        Runs (step sb) (Orderly sb) (formatted sb) (es ++ [.writei dinum (putDirent inum name) (.ofNat off) none]) s' ∧
        (∀ j, j ≠ dinum → files sb s'.disk j = files sb s.disk j) ∧
        ∀ name', (dirfind sb s'.disk ip' name').map (·.value) =
          if UInt16.ofNat inum ≠ 0 ∧ namecmp name' name then .ok (some (off, .ofNat inum))
          else (dirfind sb s.disk ip name').map (·.value)) := by
  have hvalid := valid_of_runs h hrun
  obtain ⟨f, hdir⟩ : ∃ f, Directory sb s dinum ip f :=
    ⟨_, hvalid, hcached, hvalid.files_cached hcached, htype, by rw [List.length_map, List.length_range]; exact hsize⟩
  refine ⟨lookup f.bytes name, hdir.dirfind name, fun off num hfound => hdir.dirlink_found inum hfound, fun hnone => ?_⟩
  rw [hdir.dirlink_new inum hnone]
  rcases (hdir.addEntry name inum).exists_or with ⟨l, hl, hadded, hrefs, hothers, ip', hnew⟩ | ⟨m, hm, hcause⟩
  · have horderly : (putDirent inum name).length < 2 ^ 32 := by
      rw [length_putDirent]
      decide
    refine .inr (.inr (.inr ⟨l.state, ip', 16 * freeSlot f.bytes, ?_, hnew.cached, hnew.same.1, ?_, hrefs,
      hrun.append (.one horderly (hdir.step_addEntry hl)), hothers, fun name' => ?_⟩))
    · rw [hl, ← hadded]
      rfl
    · rw [← hnew.same.2]
      exact hnew.whole
    · rw [hnew.dirfind, hdir.dirfind]
      change Except.ok (lookup _ name') = _
      rw [lookup_write hdir.whole hnone]
      split_ifs <;> rfl
  · rw [hm]
    rcases hcause with ⟨rfl, hfull⟩ | ⟨rfl, hfree⟩ | ⟨hroom, rfl | rfl⟩
    · exact .inl ⟨rfl, hfull⟩
    · exact .inr (.inl ⟨rfl, hfree⟩)
    · exact .inr (.inr (.inl ⟨hroom, .inl rfl⟩))
    · exact .inr (.inr (.inl ⟨hroom, .inr rfl⟩))

end Link

/-- A directory is made that has an entry for itself, a free one, and one for `a`. -/
def shelf : List Event :=
  [.beginOp, .ialloc 1, .ilock 1, .writei 1 (putDirent 1 [46] ++ putDirent 0 [] ++ putDirent 2 [97]) 0 none]

def shelved : State := (Runs.go (step tiny) (Orderly tiny) (formatted tiny) shelf).getD (formatted tiny)

theorem shelved_runs : Runs (step tiny) (Orderly tiny) (formatted tiny) shelf shelved := Runs.of_go (by decide +kernel)

/-- The name `a` is refused, `.` waits, and `b` is added beside `a`. -/
theorem dirlink_adds_shelved :
    ∃ ip, shelved.cache 1 = some ip ∧ dirlink tiny shelved 1 ip [97] 3 = .next ⟨shelved, false⟩ ∧
      dirlink tiny shelved 1 ip [46] 3 = .waits ∧
      ∃ s' ip' off, dirlink tiny shelved 1 ip [98] 3 = .next ⟨s', true⟩ ∧ s'.cache 1 = some ip' ∧
        (dirfind tiny s'.disk ip' [98]).map (·.value) = .ok (some (off, 3)) ∧
        (dirfind tiny s'.disk ip' [97]).map (·.value) = .ok (some (32, 2)) := by
  have hdir : (shelved.cache 1).map (fun ip => (ip.type, ip.size, (dirlink tiny shelved 1 ip [98] 3).isNext)) =
      some (tDir, 48, true) := by
    decide +kernel
  have hnames : (shelved.cache 1).map (fun ip =>
      [[97], [46], [98]].map fun name => ((dirfind tiny shelved.disk ip name).map (·.value)).toOption) =
      some [some (some (32, 2)), some (some (0, 1)), some none] := by
    decide +kernel
  obtain ⟨ip, hip, heq⟩ := Option.map_eq_some_iff.mp hdir
  rw [hip] at hnames
  simp only [Prod.mk.injEq, Option.map_some, Option.some.injEq, List.map_cons, List.map_nil, List.cons.injEq] at heq hnames
  obtain ⟨htype, hsize, hnext⟩ := heq
  obtain ⟨ha, hdot, hb, _⟩ := hnames
  have hwhole : 16 ∣ ip.size := by
    rw [hsize]
    decide
  obtain ⟨founda, heqa, hrefuses, _⟩ := dirlink_adds (by decide) shelved_runs hip htype hwhole [97] 3
  obtain ⟨founddot, heqdot, hwaits, _⟩ := dirlink_adds (by decide) shelved_runs hip htype hwhole [46] 3
  obtain ⟨foundb, heqb, _, hadds⟩ := dirlink_adds (by decide) shelved_runs hip htype hwhole [98] 3
  rw [heqa] at ha
  rw [heqdot] at hdot
  rw [heqb] at hb
  refine ⟨ip, hip, ?_, ?_, ?_⟩
  · rw [hrefuses 32 2 (Option.some.inj ha), if_neg (by decide +kernel), if_neg (by decide)]
  · rw [hwaits 0 1 (Option.some.inj hdot), if_neg (by decide +kernel), if_pos (by decide)]
  · rcases hadds (Option.some.inj hb) with ⟨h, _⟩ | ⟨h, _⟩ | ⟨_, h | h⟩ |
      ⟨s', ip', off, h, hcached, _, _, _, _, _, hfinds⟩
    · rw [h] at hnext
      cases hnext
    · rw [h] at hnext
      cases hnext
    · rw [h] at hnext
      cases hnext
    · rw [h] at hnext
      cases hnext
    · refine ⟨s', ip', off, h, hcached, ?_, ?_⟩
      · rw [hfinds, if_pos (by decide)]
        rfl
      · rw [hfinds, if_neg (by decide), heqa]
        exact congrArg Except.ok (Option.some.inj ha)

end CompilingToAssembly.Xv6.Fs
