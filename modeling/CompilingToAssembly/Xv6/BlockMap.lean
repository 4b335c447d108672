import CompilingToAssembly.Xv6.Layout
import CompilingToAssembly.Library.Ledger

/-! The blocks that inodes have, and how `bmap` adds to them.

An inode has 141 places for blocks: the 12 of its first blocks, one for the block of numbers and
the 128 numbers in it. -/
namespace CompilingToAssembly.Xv6.Fs
open Library

/-- The block in place `k`. -/
def holds (block : Nat → Block) (ip : Inode) (k : Nat) : Nat :=
  if h : k < 13 then ip.addrs ⟨k, h⟩
  else if k < 141 ∧ ip.addrs (Fin.last 12) ≠ 0 then readLe (block (ip.addrs (Fin.last 12))) (4 * (k - 13)) 4
  else 0

def held (sb : Superblock) (v : View) (x : Fin sb.ninodes × Nat) : Nat := holds v.block (v.inode x.1) x.2

def Accounted (sb : Superblock) (v : View) : Prop := Ledger sb.nmeta sb.size v.used (held sb v)

def freeBlocks (sb : Superblock) (v : View) : Nat := vacant sb.size v.used

variable {sb : Superblock} {d : Disk} {v v' v'' : View} {i : Fin sb.ninodes} {ip ip' ip'' : Inode} {block : Nat → Block}
  {b k : Nat}

theorem holds_addrs (block : Nat → Block) (ip : Inode) (k : Fin 13) : holds block ip k = ip.addrs k := dif_pos k.isLt

theorem holds_entry (block : Nat → Block) (ip : Inode) {j : Nat} (hj : j < 128) (h : ip.addrs (Fin.last 12) ≠ 0) :
    holds block ip (13 + j) = readLe (block (ip.addrs (Fin.last 12))) (4 * j) 4 := by
  rw [holds, dif_neg (by omega), if_pos ⟨by omega, h⟩, Nat.add_sub_cancel_left]

theorem holds_of_empty (block : Nat → Block) (ip : Inode) (hk : 13 ≤ k) (h : ip.addrs (Fin.last 12) = 0) :
    holds block ip k = 0 := by
  rw [holds, dif_neg (by omega), if_neg fun hand => hand.2 h]

theorem holds_congr_at {block' : Nat → Block} (hk : ∀ h : k < 13, ip'.addrs ⟨k, h⟩ = ip.addrs ⟨k, h⟩)
    (hlast : 13 ≤ k → ip'.addrs (Fin.last 12) = ip.addrs (Fin.last 12))
    (hblock : ip.addrs (Fin.last 12) ≠ 0 → block' (ip.addrs (Fin.last 12)) = block (ip.addrs (Fin.last 12))) :
    holds block' ip' k = holds block ip k := by
  by_cases h : k < 13
  · rw [holds, holds, dif_pos h, dif_pos h, hk h]
  · rw [holds, holds, dif_neg h, dif_neg h, hlast (by omega)]
    by_cases hempty : ip.addrs (Fin.last 12) = 0
    · rw [if_neg fun hand => hand.2 hempty, if_neg fun hand => hand.2 hempty]
    · rw [hblock hempty]

theorem holds_congr {block' : Nat → Block} (haddrs : ip'.addrs = ip.addrs)
    (hblock : ip.addrs (Fin.last 12) ≠ 0 → block' (ip.addrs (Fin.last 12)) = block (ip.addrs (Fin.last 12))) (k : Nat) :
    holds block' ip' k = holds block ip k :=
  holds_congr_at (fun _ => by rw [haddrs]) (fun _ => by rw [haddrs]) hblock

theorem nmeta_pos (sb : Superblock) : 0 < sb.nmeta := Nat.succ_pos _

/-! ### Filling a place -/

/-- The inode `i` has got blocks, and nothing else has changed. -/
structure Extends (sb : Superblock) (v : View) (i : Fin sb.ninodes) (ip : Inode) (v' : View) (ip' : Inode) : Prop where
  accounted : Accounted sb (v'.setInode i ip')
  inode : v'.inode = v.inode
  same : ip' = { ip with addrs := ip'.addrs }
  keeps : ∀ x, held sb (v.setInode i ip) x ≠ 0 → held sb (v'.setInode i ip') x = held sb (v.setInode i ip) x
  others : ∀ j, j ≠ i → ∀ k, held sb (v'.setInode i ip') (j, k) = held sb (v.setInode i ip) (j, k)
  data : ∀ x, x.2 ≠ 12 → held sb (v.setInode i ip) x ≠ 0 →
    v'.block (held sb (v.setInode i ip) x) = v.block (held sb (v.setInode i ip) x)

theorem Extends.refl (h : Accounted sb (v.setInode i ip)) : Extends sb v i ip v ip :=
  ⟨h, rfl, rfl, fun _ _ => rfl, fun _ _ _ => rfl, fun _ _ _ => rfl⟩

theorem Extends.trans (h : Extends sb v i ip v' ip') (h' : Extends sb v' i ip' v'' ip'') : Extends sb v i ip v'' ip'' := by
  refine ⟨h'.accounted, h'.inode.trans h.inode, ?_, fun x hx => ?_, fun j hj k => ?_, fun x hx hne => ?_⟩
  · rw [h'.same, h.same]
  · have hkept := h.keeps x hx
    rw [h'.keeps x (hkept ▸ hx), hkept]
  · rw [h'.others j hj k, h.others j hj k]
  · have hkept := h.keeps x hne
    have hdata := h'.data x hx (hkept ▸ hne)
    rw [hkept] at hdata
    rw [hdata, h.data x hx hne]

/-- Place `k` of the inode `i` has a block, a new one if it had none. -/
structure Fills (sb : Superblock) (v : View) (i : Fin sb.ninodes) (ip : Inode) (k : Nat) (v' : View) (ip' : Inode) : Prop
    extends Extends sb v i ip v' ip' where
  here : holds v'.block ip' k ≠ 0
  rest : ∀ l, l ≠ k → holds v'.block ip' l = holds v.block ip l
  free : freeBlocks sb v' + (if holds v.block ip k = 0 then 1 else 0) = freeBlocks sb v

theorem held_self (v : View) (i : Fin sb.ninodes) (ip : Inode) (k : Nat) :
    held sb (v.setInode i ip) (i, k) = holds v.block ip k := by
  simp [held]

theorem held_of_ne {j : Fin sb.ninodes} (h : j ≠ i) (k : Nat) :
    held sb (v.setInode i ip) (j, k) = holds v.block (v.inode j) k := by
  have hne : j.val ≠ i.val := fun heq => h (Fin.ext heq)
  simp [held, hne]

theorem Fills.refl (h : Accounted sb (v.setInode i ip)) (hk : holds v.block ip k ≠ 0) : Fills sb v i ip k v ip :=
  ⟨.refl h, hk, fun _ _ => rfl, by rw [if_neg hk, Nat.add_zero]⟩

/-- A free block comes to the empty place `k`. -/
theorem Fills.of_claim (h : Accounted sb (v.setInode i ip)) (hk : holds v.block ip k = 0) (hb : v.used b = false)
    (hlt : b < sb.size) (hused : v'.used = Function.update v.used b true) (hinode : v'.inode = v.inode)
    (hsame : ip' = { ip with addrs := ip'.addrs }) (hhere : holds v'.block ip' k = b)
    (hrest : ∀ l, l ≠ k → holds v'.block ip' l = holds v.block ip l)
    (hblock : ∀ c, c ≠ b → c ≠ ip.addrs (Fin.last 12) → v'.block c = v.block c) : Fills sb v i ip k v' ip' := by
  obtain ⟨hge, hfree⟩ := h.free hb
  have hpos : b ≠ 0 := ((nmeta_pos sb).trans_le hge).ne'
  have hindirect : ∀ x, x ≠ (i, 12) → held sb (v.setInode i ip) x ≠ 0 →
      held sb (v.setInode i ip) x ≠ ip.addrs (Fin.last 12) := by
    intro x hx hne heq
    refine hx (h.inj x (i, 12) hne ?_)
    rw [heq, held_self]
    exact (holds_addrs v.block ip (Fin.last 12)).symm
  have hothers : ∀ j, j ≠ i → ∀ k, held sb (v'.setInode i ip') (j, k) = held sb (v.setInode i ip) (j, k) := by
    intro j hj k
    have hj12 : held sb (v.setInode i ip) (j, 12) = (v.inode j).addrs (Fin.last 12) := by
      rw [held_of_ne hj]
      exact holds_addrs v.block (v.inode j) (Fin.last 12)
    rw [held_of_ne hj, held_of_ne hj, hinode]
    refine holds_congr rfl (fun hne => hblock _ ?_ ?_) k
    · exact hj12 ▸ hfree (j, 12) (hj12 ▸ hne)
    · exact hj12 ▸ hindirect (j, 12) (fun heq => hj (Prod.ext_iff.mp heq).1) (hj12 ▸ hne)
  have hheld : ∀ x, held sb (v'.setInode i ip') x = if x = (i, k) then b else held sb (v.setInode i ip) x := by
    intro x
    obtain ⟨j, l⟩ := x
    by_cases hj : j = i
    · subst hj
      rw [held_self, held_self]
      by_cases hl : l = k
      · rw [hl, if_pos rfl, hhere]
      · rw [if_neg fun heq => hl (Prod.ext_iff.mp heq).2, hrest l hl]
    · rw [if_neg fun heq => hj (Prod.ext_iff.mp heq).1, hothers j hj l]
  have hempty : held sb (v.setInode i ip) (i, k) = 0 := (held_self v i ip k).trans hk
  refine ⟨⟨?_, hinode, hsame, fun x hx => ?_, hothers, fun x hx hne => ?_⟩, hhere ▸ hpos, hrest, ?_⟩
  · refine Ledger.claim h (nmeta_pos sb) hb hlt hempty (fun c _ => ?_) hheld
    rw [View.setInode_used, View.setInode_used, hused]
    by_cases hc : c = b
    · simp [hc]
    · simp [hc, Ne.symm hc]
  · have hne : x ≠ (i, k) := fun heq => hx (heq ▸ hempty)
    rw [hheld x, if_neg hne]
  · exact hblock _ (hfree x hne) (hindirect x (fun heq => hx (heq ▸ rfl)) hne)
  · rw [if_pos hk, freeBlocks, freeBlocks, hused]
    exact vacant_claim hb hlt

theorem Accounted.indirect_used (h : Accounted sb (v.setInode i ip)) (hne : ip.addrs (Fin.last 12) ≠ 0) :
    sb.nmeta ≤ ip.addrs (Fin.last 12) ∧ ip.addrs (Fin.last 12) < sb.size ∧ v.used (ip.addrs (Fin.last 12)) = true := by
  have heq : held sb (v.setInode i ip) (i, 12) = ip.addrs (Fin.last 12) :=
    (held_self v i ip 12).trans (holds_addrs v.block ip (Fin.last 12))
  have hrange := Ledger.range h (i, 12) (heq ▸ hne)
  rw [heq] at hrange
  exact hrange

theorem Accounted.indirect_ne (h : Accounted sb (v.setInode i ip)) (hb : v.used b = false)
    (hne : ip.addrs (Fin.last 12) ≠ 0) : ip.addrs (Fin.last 12) ≠ b := by
  intro heq
  rw [heq] at hne
  have hused := (h.indirect_used (heq ▸ hne)).2.2
  rw [heq, hb] at hused
  cases hused

/-- The other places of an inode that gets the block `b`. -/
theorem holds_set_addr (h : Accounted sb (v.setInode i ip)) (hb : v.used b = false) {k : Fin 13} (hk : ip.addrs k = 0)
    {l : Nat} (hl : l ≠ k) :
    holds (v.claim b).block { ip with addrs := Function.update ip.addrs k b } l = holds v.block ip l := by
  have hother : ∀ m : Fin 13, m ≠ k → Function.update ip.addrs k b m = ip.addrs m := fun m hm =>
    Function.update_of_ne hm ..
  by_cases hlast : k = Fin.last 12
  · subst hlast
    by_cases h13 : l < 13
    · rw [holds, holds, dif_pos h13, dif_pos h13]
      exact hother _ fun heq => hl (congrArg Fin.val heq)
    · -- the block of numbers is new, and all of them are 0
      rw [holds_of_empty v.block ip (by omega) hk, holds, dif_neg h13]
      simp only [Function.update_self]
      split
      · rw [View.claim, View.put_block, Function.update_self, readLe_zero]
      · rfl
  · refine holds_congr_at (fun hl13 => ?_) (fun _ => ?_) fun hne => ?_
    · exact hother _ fun heq => hl (congrArg Fin.val heq)
    · exact hother _ (Ne.symm hlast)
    · exact Function.update_of_ne (h.indirect_ne hb hne) ..

theorem Shows.addr (hd : Shows sb d v) (h : Accounted sb (v.setInode i ip)) (k : Fin 13) :
    Ends
      (fun r => ∃ v' bits, Shows sb r.disk v' ∧ Fills sb v i ip k v' r.ip ∧ r.value = holds v'.block r.ip k ∧
        Bits sb (if holds v.block ip k = 0 then 1 else 0) bits ∧ Logs sb (bits ++ [r.value]) d r.disk)
      (fun m => holds v.block ip k = 0 ∧ ((∃ bits b, Bits sb 1 bits ∧ Refuses sb (bits ++ [b]) d m) ∨
        (m = "balloc: out of blocks" ∧ freeBlocks sb v = 0)))
      (addr sb d ip k) := by
  have hholds := holds_addrs v.block ip k
  unfold Fs.addr
  by_cases hempty : ip.addrs k = 0
  · rw [if_pos hempty]
    have hk : holds v.block ip k = 0 := hholds.trans hempty
    rw [if_pos hk]
    refine (hd.balloc h.below).map (fun m hm => ⟨hk, ?_⟩) fun r hr => ?_
    · rcases hm with ⟨b, hb, hrefuses⟩ | ⟨rfl, hfull⟩
      · exact .inl ⟨_, b, .one hb, hrefuses⟩
      · exact .inr ⟨rfl, vacant_eq_zero hfull⟩
    · obtain ⟨hfree, hlt, hshows, hlogs⟩ := hr
      refine ⟨_, _, hshows, ?_, ?_, .one hlt, hlogs⟩
      · refine Fills.of_claim h hk hfree hlt rfl rfl rfl ?_ (fun l hl => ?_) fun c hc _ => ?_
        · exact (holds_addrs ..).trans (Function.update_self ..)
        · exact holds_set_addr h hfree hempty hl
        · exact Function.update_of_ne hc ..
      · exact ((holds_addrs ..).trans (Function.update_self ..)).symm
  · rw [if_neg hempty]
    exact .ok ⟨v, [], hd, .refl h (hholds ▸ hempty), hholds.symm, .nil sb _, .refl sb _ d⟩

/-- The entries of the block of numbers after the one for `b` is written. -/
theorem holds_set_entry (v : View) (b j : Nat) (hne : ip.addrs (Fin.last 12) ≠ 0) {l : Nat} (hl : l < 128) :
    holds ((v.claim b).put (ip.addrs (Fin.last 12)) (writeLe (v.block (ip.addrs (Fin.last 12))) (4 * j) 4 b)).block ip (13 + l) =
      readLe (writeLe (v.block (ip.addrs (Fin.last 12))) (4 * j) 4 b) (4 * l) 4 := by
  rw [holds_entry _ ip hl hne, View.put_block, Function.update_self]

theorem Shows.entry (hd : Shows sb d v) (h : Accounted sb (v.setInode i ip)) (hne : ip.addrs (Fin.last 12) ≠ 0) {j : Nat}
    (hj : j < 128) :
    Ends
      (fun r => ∃ v' bits, Shows sb r.disk v' ∧ Fills sb v i ip (13 + j) v' r.ip ∧ r.value = holds v'.block r.ip (13 + j) ∧
        Bits sb (if holds v.block ip (13 + j) = 0 then 1 else 0) bits ∧
        Logs sb (bits ++ [r.value, ip.addrs (Fin.last 12)]) d r.disk ∧ r.ip = ip)
      (fun m => holds v.block ip (13 + j) = 0 ∧
        ((∃ bits b, Bits sb 1 bits ∧ Refuses sb (bits ++ [b, ip.addrs (Fin.last 12)]) d m) ∨
          (m = "balloc: out of blocks" ∧ freeBlocks sb v = 0)))
      (entry sb d ip (ip.addrs (Fin.last 12)) j) := by
  obtain ⟨hge, hsize, _⟩ := h.indirect_used hne
  have hholds : holds v.block ip (13 + j) = readLe (d.block (ip.addrs (Fin.last 12))) (4 * j) 4 := by
    rw [holds_entry v.block ip hj hne, hd.block _ hge]
  unfold Fs.entry
  by_cases hempty : readLe (d.block (ip.addrs (Fin.last 12))) (4 * j) 4 = 0
  · rw [if_pos hempty]
    have hk := hholds.trans hempty
    rw [if_pos hk]
    refine (hd.balloc h.below).bind (fun m hm => ⟨hk, ?_⟩) fun r hr => ?_
    · rcases hm with ⟨b, hb, hrefuses⟩ | ⟨rfl, hfull⟩
      · exact .inl ⟨_, b, .one hb, hrefuses.mono (by simp)⟩
      · exact .inr ⟨rfl, vacant_eq_zero hfull⟩
    · obtain ⟨hfree, hlt, hshows, hlogs⟩ := hr
      have hlogs' : Logs sb ([bblock sb r.block] ++ [r.block, ip.addrs (Fin.last 12)]) d r.disk := hlogs.mono (by simp)
      have hwrite := logWrite_logs r.disk (by simp : _ ∈ [bblock sb r.block] ++ [r.block, ip.addrs (Fin.last 12)])
        (home_block hge hsize) (writeLe (r.disk.block (ip.addrs (Fin.last 12))) (4 * j) 4 r.block)
      refine hwrite.map (fun m hm => ⟨hk, .inl ⟨_, r.block, .one hlt, hm.after hlogs'⟩⟩) fun d' hd' => ?_
      obtain ⟨rfl, hlogs''⟩ := hd'
      have ha := h.indirect_ne hfree hne
      have hblock : r.disk.block (ip.addrs (Fin.last 12)) = v.block (ip.addrs (Fin.last 12)) := by
        rw [hshows.block _ hge, View.claim, View.put_block, Function.update_of_ne ha, View.mark_block]
      have hfits : r.block < 256 ^ 4 := hlt.trans_le sb.size_le
      have hput := hshows.put hge (writeLe (r.disk.block (ip.addrs (Fin.last 12))) (4 * j) 4 r.block)
      rw [hblock] at hput hlogs'' ⊢
      refine ⟨_, _, hput, ?_, ?_, .one hlt, hlogs'.trans hlogs'', rfl⟩
      · refine Fills.of_claim h hk hfree hlt rfl rfl rfl ?_ (fun l hl => ?_) fun c hc hca => ?_
        · rw [holds_set_entry v r.block j hne hj, readLe_writeLe hfits]
        · by_cases h13 : l < 13
          · rw [holds, holds, dif_pos h13, dif_pos h13]
          · by_cases h141 : l < 141
            · obtain ⟨m, rfl⟩ := Nat.exists_eq_add_of_le (Nat.le_of_not_lt h13)
              rw [holds_set_entry v r.block j hne (by omega), holds_entry v.block ip (by omega) hne,
                readLe_writeLe_of_apart (by omega)]
            · rw [holds, holds, dif_neg h13, dif_neg h13, if_neg fun hand => h141 hand.1, if_neg fun hand => h141 hand.1]
        · rw [View.put_block, Function.update_of_ne hca, View.claim, View.put_block, Function.update_of_ne hc,
            View.mark_block]
      · exact (holds_set_entry v r.block j hne hj).symm ▸ (readLe_writeLe hfits).symm
  · rw [if_neg hempty]
    exact .ok ⟨v, [], hd, .refl h (hholds ▸ hempty), hholds.symm, .nil sb _, .refl sb _ d, rfl⟩

/-! ### Files without holes -/

/-- Where in the file the first byte is for which place `k` is needed. -/
def start (k : Nat) : Nat := if k ≤ 12 then 512 * k else 512 * (k - 1)

/-- The inode has the blocks for `len` bytes, and no others. -/
def Full (block : Nat → Block) (ip : Inode) (len : Nat) : Prop := ∀ k < 141, (holds block ip k ≠ 0 ↔ start k < len)

/-- The place of block `bn` of the file. -/
def place (bn : Nat) : Nat := if bn < 12 then bn else bn + 1

/-- How many blocks a file gets that grows from `a` to `b` bytes. -/
def needed (a b : Nat) : Nat := (List.range 141).countP fun k => decide (a ≤ start k) && decide (start k < b)

theorem needed_block {bn : Nat} (hbn : bn < 140) : needed (512 * bn) (512 * bn + 1) = if bn = 12 then 2 else 1 := by
  by_cases h12 : bn = 12
  · rw [if_pos h12, h12]
    decide +kernel
  · have hcount : needed (512 * bn) (512 * bn + 1) = (List.range 141).count (place bn) := by
      refine List.countP_congr fun k _ => ?_
      rw [Bool.and_eq_true, decide_eq_true_eq, decide_eq_true_eq, beq_iff_eq, start, place]
      split_ifs <;> omega
    rw [if_neg h12, hcount]
    refine List.count_eq_one_of_mem List.nodup_range (List.mem_range.mpr ?_)
    rw [place]
    split_ifs <;> omega

theorem needed_of_ge {a b : Nat} (h : b ≤ a) : needed a b = 0 := by
  rw [needed, List.countP_eq_zero]
  intro k _
  simp only [Bool.and_eq_true, decide_eq_true_eq]
  omega

theorem needed_add {a b c : Nat} (hab : a ≤ b) (hbc : b ≤ c) : needed a c = needed a b + needed b c := by
  unfold needed
  induction List.range 141 with
  | nil => rfl
  | cons k ks ih =>
    rw [List.countP_cons, List.countP_cons, List.countP_cons, ih]
    simp only [Bool.and_eq_true, decide_eq_true_eq]
    split_ifs <;> omega

variable {len bn : Nat}

/-- The blocks that are new when block `bn` comes to a file. -/
theorem Full.needed_direct (h : Full block ip len) (hbn : bn < 12) (hle : 512 * bn ≤ len) :
    needed len (512 * bn + 1) = if holds block ip bn = 0 then 1 else 0 := by
  have hhere := h bn (by omega)
  rw [start, if_pos (by omega)] at hhere
  by_cases hlt : 512 * bn < len
  · rw [needed_of_ge hlt, if_neg (hhere.mpr hlt)]
  · obtain rfl : len = 512 * bn := by omega
    rw [needed_block (by omega), if_neg (by omega), if_pos (by tauto)]

theorem Full.needed_indirect (h : Full block ip len) (hbn : 12 ≤ bn) (hlt : bn < 140) (hle : 512 * bn ≤ len) :
    needed len (512 * bn + 1) =
      (if holds block ip (bn + 1) = 0 then 1 else 0) + if holds block ip 12 = 0 then 1 else 0 := by
  have hhere := h (bn + 1) (by omega)
  rw [start, if_neg (by omega), Nat.add_sub_cancel] at hhere
  have hlast := h 12 (by omega)
  rw [start, if_pos le_rfl] at hlast
  by_cases hin : 512 * bn < len
  · rw [needed_of_ge hin, if_neg (hhere.mpr hin), if_neg (hlast.mpr (by omega))]
  · obtain rfl : len = 512 * bn := by omega
    rw [needed_block hlt, if_pos (by tauto : holds block ip (bn + 1) = 0)]
    by_cases h12 : bn = 12
    · rw [if_pos h12, if_pos]
      by_contra hne
      have := hlast.mp hne
      omega
    · rw [if_neg h12, if_neg (hlast.mpr (by omega))]

/-- A file that has got block `bn`. -/
theorem Full.grow {block' : Nat → Block} (h : Full block ip len) (hle : 512 * bn ≤ len) (hbn : bn < 140)
    (hhere : holds block' ip' (place bn) ≠ 0) (hlast : 12 ≤ bn → holds block' ip' 12 ≠ 0)
    (hrest : ∀ l, l ≠ place bn → (12 ≤ bn → l ≠ 12) → holds block' ip' l = holds block ip l) :
    Full block' ip' (max len (512 * bn + 1)) := by
  intro k hk
  by_cases hkbn : k = place bn
  · subst hkbn
    refine iff_of_true hhere ?_
    rw [start, place]
    split_ifs <;> omega
  · by_cases hk12 : 12 ≤ bn ∧ k = 12
    · rw [hk12.2]
      refine iff_of_true (hlast hk12.1) ?_
      rw [start, if_pos le_rfl]
      omega
    · rw [hrest k hkbn fun hbn heq => hk12 ⟨hbn, heq⟩, h k hk]
      rw [start]
      rw [place] at hkbn
      split_ifs at hkbn ⊢ <;> omega

/-- The block of numbers, if there is one. -/
def indirect (ip : Inode) : List Nat := if ip.addrs (Fin.last 12) = 0 then [] else [ip.addrs (Fin.last 12)]

theorem indirect_of_ne (h : ip.addrs (Fin.last 12) ≠ 0) : indirect ip = [ip.addrs (Fin.last 12)] := if_neg h

theorem length_indirect_le (ip : Inode) : (indirect ip).length ≤ 1 := by
  unfold indirect
  split <;> simp

theorem indirect_subset (h : ip.addrs (Fin.last 12) ≠ 0 → ip'.addrs (Fin.last 12) = ip.addrs (Fin.last 12)) :
    indirect ip ⊆ indirect ip' := by
  by_cases hempty : ip.addrs (Fin.last 12) = 0
  · rw [indirect, if_pos hempty]
    exact List.nil_subset _
  · rw [indirect, indirect, h hempty]
    exact List.Subset.refl _

/-- `log_write` stops an operation on an inode, which writes at most `need` blocks of the bit map,
`n` others and the block of numbers. -/
def Overflows (sb : Superblock) (need n : Nat) (ip : Inode) (d : Disk) (m : String) : Prop :=
  ∃ as bs, indirect ip ⊆ as ∧ as.length ≤ 1 ∧ Span sb need n as bs ∧ Refuses sb bs d m

theorem Overflows.mono {m : String} {need need' n n' : Nat} (h : Overflows sb need n ip d m) (hneed : need ≤ need') (hn : n ≤ n') :
    Overflows sb need' n' ip d m := by
  obtain ⟨as, bs, has, hone, hspan, hrefuses⟩ := h
  exact ⟨as, bs, has, hone, hspan.mono hneed hn (List.Subset.refl _), hrefuses⟩

theorem Overflows.after {m : String} {need need' n n' : Nat} (h : Overflows sb need' n' ip' d' m)
    (hindirect : indirect ip ⊆ indirect ip') (hspan : Span sb need n (indirect ip') bs) (hlogs : Logs sb bs d d') :
    Overflows sb (need + need') (n + n') ip d m := by
  obtain ⟨as, cs, has, hone, hspan', hrefuses⟩ := h
  exact ⟨as, bs ++ cs, fun _ hc => has (hindirect hc), hone, (hspan.mono le_rfl le_rfl has).append hspan',
    (hrefuses.mono (List.subset_append_right ..)).after (hlogs.mono (List.subset_append_left ..))⟩

/-- What `bmap` does for block `bn` of a file of length `len`, or at its end: the file then has the
block, and what was wanting for it has been taken. -/
def Maps (sb : Superblock) (v : View) (i : Fin sb.ninodes) (ip : Inode) (len bn : Nat) (d : Disk)
    (x : Except String (Done Nat)) : Prop :=
  Ends
    (fun r => ∃ v' bits, Shows sb r.disk v' ∧ Extends sb v i ip v' r.ip ∧ Full v'.block r.ip (max len (512 * bn + 1)) ∧
      r.value = holds v'.block r.ip (place bn) ∧ freeBlocks sb v' + needed len (512 * bn + 1) = freeBlocks sb v ∧
      Bits sb (needed len (512 * bn + 1)) bits ∧ Logs sb (bits ++ [r.value] ++ indirect r.ip) d r.disk)
    (fun m => Overflows sb (needed len (512 * bn + 1)) 1 ip d m ∨
      (m = "balloc: out of blocks" ∧ freeBlocks sb v < needed len (512 * bn + 1)))
    x

/-- `bmap` for one of the first 12 blocks. -/
theorem Shows.bmap_direct (hd : Shows sb d v) (h : Accounted sb (v.setInode i ip)) (hfull : Full v.block ip len)
    (hdirect : bn < 12) (hle : 512 * bn ≤ len) :
    Maps sb v i ip len bn d (Fs.addr sb d ip (Fin.castSucc ⟨bn, hdirect⟩)) := by
  have hplace : place bn = bn := if_pos hdirect
  rw [Maps, hfull.needed_direct hdirect hle]
  refine (hd.addr h (Fin.castSucc ⟨bn, hdirect⟩)).mono (fun r hr => ?_) fun m hm => ?_
  · obtain ⟨v', bits, hshows, hfills, hvalue, hbits, hlogs⟩ := hr
    refine ⟨v', bits, hshows, hfills.toExtends, ?_, hplace.symm ▸ hvalue, hfills.free, hbits, hlogs.mono (by simp)⟩
    refine hfull.grow hle (by omega) ?_ (fun h12 => by omega) fun l hl _ => hfills.rest l ?_
    · rw [hplace]
      exact hfills.here
    · rw [hplace] at hl
      exact hl
  · obtain ⟨hempty, hm⟩ := hm
    have hzero : holds v.block ip bn = 0 := hempty
    rw [if_pos hzero]
    rcases hm with ⟨bits, b, hbits, hrefuses⟩ | ⟨rfl, hfree⟩
    · exact .inl ⟨_, _, List.Subset.refl _, length_indirect_le ip, .turn hbits b _, hrefuses.mono (by simp)⟩
    · exact .inr ⟨rfl, by omega⟩

theorem Fills.last_eq (h : Fills sb v i ip k v' ip') (hne : ip.addrs (Fin.last 12) ≠ 0) :
    ip'.addrs (Fin.last 12) = ip.addrs (Fin.last 12) := by
  have hold : holds v.block ip 12 = ip.addrs (Fin.last 12) := holds_addrs v.block ip (Fin.last 12)
  have hnew : holds v'.block ip' 12 = ip'.addrs (Fin.last 12) := holds_addrs v'.block ip' (Fin.last 12)
  have hkeeps := h.keeps (i, 12)
  rw [held_self, held_self, hold, hnew] at hkeeps
  exact hkeeps hne

/-- `bmap` for a block with an entry in the block of numbers. -/
theorem Shows.bmap_indirect (hd : Shows sb d v) (h : Accounted sb (v.setInode i ip)) (hfull : Full v.block ip len)
    (h12 : 12 ≤ bn) (hbn : bn < 140) (hle : 512 * bn ≤ len) :
    Maps sb v i ip len bn d
      ((Fs.addr sb d ip (Fin.last 12)).bind fun r => Fs.entry sb r.disk r.ip r.value (bn - 12)) := by
  have hplace : place bn = bn + 1 := if_neg (by omega)
  have hslot : 13 + (bn - 12) = bn + 1 := by omega
  rw [Maps, hfull.needed_indirect h12 hbn hle]
  refine (hd.addr h (Fin.last 12)).bind (fun m hm => ?_) fun r₁ hr₁ => ?_
  · -- the block of numbers is wanting
    obtain ⟨hempty, hm⟩ := hm
    have hzero : holds v.block ip 12 = 0 := hempty
    have haddr : ip.addrs (Fin.last 12) = 0 := (holds_addrs v.block ip (Fin.last 12)).symm.trans hempty
    rw [if_pos hzero]
    rcases hm with ⟨bits, b, hbits, hrefuses⟩ | ⟨rfl, hfree⟩
    · refine .inl ⟨[b], _, ?_, le_rfl, .turn (hbits.mono (by omega)) b _, hrefuses.mono (by simp)⟩
      rw [indirect, if_pos haddr]
      exact List.nil_subset _
    · exact .inr ⟨rfl, by omega⟩
  · obtain ⟨v₁, bits₁, hshows₁, hfills₁, hvalue₁, hbits₁, hlogs₁⟩ := hr₁
    have haddr : r₁.value = r₁.ip.addrs (Fin.last 12) := hvalue₁.trans (holds_addrs ..)
    have hne : r₁.ip.addrs (Fin.last 12) ≠ 0 := haddr ▸ hvalue₁ ▸ hfills₁.here
    have hfree₁ : freeBlocks sb v₁ + (if holds v.block ip 12 = 0 then 1 else 0) = freeBlocks sb v := hfills₁.free
    have hbits₁' : Bits sb (if holds v.block ip 12 = 0 then 1 else 0) bits₁ := hbits₁
    have hrest₁ : holds v₁.block r₁.ip (bn + 1) = holds v.block ip (bn + 1) :=
      hfills₁.rest (bn + 1) (by simp only [Fin.val_last]; omega)
    rw [haddr] at hlogs₁ ⊢
    have hentry := hshows₁.entry hfills₁.accounted hne (by omega : bn - 12 < 128)
    rw [hslot, hrest₁] at hentry
    refine hentry.mono (fun r hr => ?_) fun m hm => ?_
    · obtain ⟨v', bits, hshows, hfills, hvalue, hbits, hlogs, hip⟩ := hr
      have hfree := hfills.free
      rw [hrest₁] at hfree
      rw [← hip] at hne hlogs hlogs₁
      rw [indirect_of_ne hne]
      obtain ⟨hfirst, hsecond⟩ := subset_turns bits₁ bits r.value (r.ip.addrs (Fin.last 12))
      refine ⟨v', bits ++ bits₁, hshows, hfills₁.toExtends.trans hfills.toExtends, ?_, hplace.symm ▸ hvalue, by omega,
        hbits.append hbits₁', (hlogs₁.mono hfirst).trans (hlogs.mono hsecond)⟩
      refine hfull.grow hle hbn ?_ (fun _ => ?_) fun l hl hl12 => ?_
      · rw [hplace]
        exact hfills.here
      · rw [hfills.rest 12 (by omega)]
        exact hfills₁.here
      · rw [hplace] at hl
        rw [hfills.rest l hl, hfills₁.rest l (hl12 h12)]
    · obtain ⟨hempty, hm⟩ := hm
      rw [if_pos hempty]
      rcases hm with ⟨bits, b, hbits, hrefuses⟩ | ⟨rfl, hfree⟩
      · obtain ⟨hfirst, hsecond⟩ := subset_turns bits₁ bits b (r₁.ip.addrs (Fin.last 12))
        refine .inl ⟨[r₁.ip.addrs (Fin.last 12)], _, ?_, le_rfl, .turn (hbits.append hbits₁') b _,
          (hrefuses.mono hsecond).after (hlogs₁.mono hfirst)⟩
        rw [← indirect_of_ne hne]
        exact indirect_subset hfills₁.last_eq
      · exact .inr ⟨rfl, by omega⟩

theorem Shows.bmap (hd : Shows sb d v) (h : Accounted sb (v.setInode i ip)) (hfull : Full v.block ip len) (hbn : bn < 140)
    (hle : 512 * bn ≤ len) : Maps sb v i ip len bn d (bmap sb d ip bn) := by
  unfold Fs.bmap
  by_cases hdirect : bn < 12
  · rw [dif_pos hdirect]
    exact hd.bmap_direct h hfull hdirect hle
  · rw [dif_neg hdirect, if_pos (by omega)]
    exact hd.bmap_indirect h hfull (by omega) hbn hle

end CompilingToAssembly.Xv6.Fs
