import CompilingToAssembly.Xv6.BlockMap

/-! What is in a file: the loops of `readi` and `writei`, and `itrunc`. -/
namespace CompilingToAssembly.Xv6.Fs
open Library

/-- Byte `x` of the file. -/
def content (block : Nat → Block) (ip : Inode) (x : Nat) : UInt8 := block (holds block ip (place (x / 512))) (x % 512)

variable {sb : Superblock} {d : Disk} {v v' v'' : View} {i : Fin sb.ninodes} {ip ip' ip'' : Inode} {block : Nat → Block}
  {b k bn len off n fuel : Nat} {src : List UInt8}

theorem place_ne (bn : Nat) : place bn ≠ 12 := by
  rw [place]
  split_ifs <;> omega

theorem place_lt (h : bn < 140) : place bn < 141 := by
  rw [place]
  split_ifs <;> omega

theorem place_inj {bn bn' : Nat} (h : place bn = place bn') : bn = bn' := by
  simp only [place] at h
  split_ifs at h <;> omega

theorem start_place (bn : Nat) : start (place bn) = 512 * bn := by
  rw [start, place]
  split_ifs <;> omega

theorem Full.holds_ne (h : Full block ip len) {x : Nat} (hx : x < len) (hlen : len ≤ 140 * 512) :
    holds block ip (place (x / 512)) ≠ 0 := by
  rw [h _ (place_lt (by omega)), start_place]
  omega

/-! ### Reading -/

/-- `bmap` of a block that is there. -/
theorem bmap_of_holds (hd : Shows sb d v) (h : Accounted sb (v.setInode i ip)) (hbn : bn < 140)
    (hne : holds v.block ip (place bn) ≠ 0) : bmap sb d ip bn = .ok ⟨d, ip, holds v.block ip (place bn)⟩ := by
  unfold Fs.bmap
  by_cases hdirect : bn < 12
  · have hplace : place bn = (Fin.castSucc ⟨bn, hdirect⟩ : Fin 13).val := if_pos hdirect
    rw [hplace, holds_addrs] at hne ⊢
    rw [dif_pos hdirect, Fs.addr, if_neg hne]
  · have hplace : place bn = 13 + (bn - 12) := by
      rw [place, if_neg hdirect]
      omega
    have hlast : ip.addrs (Fin.last 12) ≠ 0 := fun hempty =>
      hne (holds_of_empty v.block ip (by omega) hempty)
    have hread : holds v.block ip (place bn) = readLe (d.block (ip.addrs (Fin.last 12))) (4 * (bn - 12)) 4 := by
      rw [hplace, holds_entry v.block ip (by omega) hlast, hd.block _ (h.indirect_used hlast).1]
    rw [hread] at hne ⊢
    rw [dif_neg hdirect, if_pos (by omega), Fs.addr, if_neg hlast]
    dsimp only [Except.bind]
    rw [Fs.entry, if_neg hne]

theorem range_append {α : Type} (m n : Nat) (f : Nat → α) :
    (List.range m).map f ++ (List.range n).map (fun k => f (m + k)) = (List.range (m + n)).map f := by
  rw [List.range_add, List.map_append, List.map_map]
  rfl

/-- The loop of `readi` only reads. -/
theorem Shows.readLoop (hd : Shows sb d v) (h : Accounted sb (v.setInode i ip)) (hfull : Full v.block ip len)
    (hlen : len ≤ 140 * 512) (hle : off + n ≤ len) (hfuel : n ≤ fuel) :
    readLoop sb fuel d ip off n = .ok ⟨d, ip, (List.range n).map fun k => content v.block ip (off + k)⟩ := by
  induction fuel generalizing off n with
  | zero =>
    obtain rfl : n = 0 := by omega
    rfl
  | succ fuel ih =>
    rw [Fs.readLoop]
    by_cases hn : n = 0
    · rw [if_pos hn, hn]
      rfl
    · rw [if_neg hn]
      have hne := hfull.holds_ne (x := off) (by omega) hlen
      have hused : sb.nmeta ≤ holds v.block ip (place (off / 512)) := by
        have hheld := held_self v i ip (place (off / 512))
        have hrange := Ledger.range h (i, place (off / 512)) (hheld ▸ hne)
        exact hheld ▸ hrange.1
      rw [bmap_of_holds hd h (by omega) hne]
      dsimp only [Except.bind]
      generalize hm : min n (512 - off % 512) = m
      have hstep : off + m + (n - m) ≤ len := by omega
      rw [ih hstep (by omega)]
      dsimp only [Except.map]
      have hbytes : ((List.range m).map fun k => d.block (holds v.block ip (place (off / 512))) (off % 512 + k)) =
          (List.range m).map fun k => content v.block ip (off + k) := by
        refine List.map_congr_left fun k hk => ?_
        have hk' := List.mem_range.mp hk
        have hdiv : (off + k) / 512 = off / 512 := by omega
        have hmod : (off + k) % 512 = off % 512 + k := by omega
        rw [content, hdiv, hmod, hd.block _ hused]
      have hrest : ((List.range (n - m)).map fun k => content v.block ip (off + m + k)) =
          (List.range (n - m)).map fun k => content v.block ip (off + (m + k)) := by
        simp only [Nat.add_assoc]
      have htotal : m + (n - m) = n := by omega
      rw [hbytes, hrest, range_append m (n - m) fun k => content v.block ip (off + k), htotal]

/-! ### Writing -/

/-- The inode `i`, which had the blocks for `len` bytes, has got the bytes `src` from `off` on. -/
structure Wrote (sb : Superblock) (v : View) (i : Fin sb.ninodes) (ip : Inode) (len off : Nat) (src : List UInt8)
    (v' : View) (ip' : Inode) : Prop where
  accounted : Accounted sb (v'.setInode i ip')
  inode : v'.inode = v.inode
  same : ip' = { ip with addrs := ip'.addrs }
  full : Full v'.block ip' (max len (off + src.length))
  contents : ∀ x < max len (off + src.length), content v'.block ip' x =
    if off ≤ x ∧ x < off + src.length then src.getD (x - off) 0 else content v.block ip x
  keeps : ∀ k, holds v.block ip k ≠ 0 → holds v'.block ip' k = holds v.block ip k
  others : ∀ j, j ≠ i → ∀ k, holds v'.block (v.inode j) k = holds v.block (v.inode j) k
  data : ∀ j, j ≠ i → ∀ bn, holds v.block (v.inode j) (place bn) ≠ 0 →
    v'.block (holds v.block (v.inode j) (place bn)) = v.block (holds v.block (v.inode j) (place bn))
  free : freeBlocks sb v' + needed len (off + src.length) = freeBlocks sb v

theorem Wrote.nil (h : Accounted sb (v.setInode i ip)) (hfull : Full v.block ip len) (hle : off ≤ len) :
    Wrote sb v i ip len off [] v ip := by
  have hmax : max len off = len := by omega
  refine ⟨h, rfl, rfl, ?_, fun x _ => ?_, fun _ _ => rfl, fun _ _ _ => rfl, fun _ _ _ _ => rfl, ?_⟩
  · rw [List.length_nil, Nat.add_zero, hmax]
    exact hfull
  · rw [List.length_nil, if_neg (by omega)]
  · rw [needed_of_ge (by simpa using hle), Nat.add_zero]

theorem Wrote.append (src' : List UInt8) (h : Wrote sb v i ip len off src v' ip')
    (h' : Wrote sb v' i ip' (max len (off + src.length)) (off + src.length) src' v'' ip'') :
    Wrote sb v i ip len off (src ++ src') v'' ip'' := by
  have hlength : off + (src ++ src').length = off + src.length + src'.length := by
    rw [List.length_append]
    omega
  have hmax : max (max len (off + src.length)) (off + src.length + src'.length) =
      max len (off + (src ++ src').length) := by omega
  refine ⟨h'.accounted, h'.inode.trans h.inode, ?_, hmax ▸ h'.full, fun x hx => ?_, fun k hk => ?_, fun j hj k => ?_,
    fun j hj bn hne => ?_, ?_⟩
  · rw [h'.same, h.same]
  · rw [h'.contents x (hmax ▸ hx), hlength]
    by_cases hsecond : off + src.length ≤ x ∧ x < off + src.length + src'.length
    · rw [if_pos hsecond, if_pos (by omega), List.getD_append_right _ _ _ _ (by omega)]
      congr 1
      omega
    · rw [if_neg hsecond, h.contents x (by omega)]
      by_cases hfirst : off ≤ x ∧ x < off + src.length
      · rw [if_pos hfirst, if_pos (by omega), List.getD_append _ _ _ _ (by omega)]
      · rw [if_neg hfirst, if_neg (by omega)]
  · have hkept := h.keeps k hk
    rw [h'.keeps k (hkept ▸ hk), hkept]
  · have hholds := h'.others j hj k
    rw [h.inode] at hholds
    rw [hholds, h.others j hj k]
  · have hdata := h'.data j hj bn
    rw [h.inode, h.others j hj] at hdata
    rw [hdata hne, h.data j hj bn hne]
  · have hfree := h.free
    have hfree' := h'.free
    rw [hlength]
    by_cases hle : len ≤ off + src.length
    · rw [Nat.max_eq_right hle] at hfree'
      rw [needed_add hle (Nat.le_add_right _ src'.length)]
      omega
    · rw [Nat.max_eq_left (by omega)] at hfree'
      rw [needed_of_ge (by omega)] at hfree
      omega

/-! #### One block -/

/-- A block of the file that is not the one of numbers is changed. -/
theorem holds_put (h : Accounted sb (v.setInode i ip)) (hk : k ≠ 12) (data : Block) :
    (∀ l, holds (v.put (holds v.block ip k) data).block ip l = holds v.block ip l) ∧
      ∀ j, j ≠ i → ∀ l, holds (v.put (holds v.block ip k) data).block (v.inode j) l = holds v.block (v.inode j) l := by
  have hheld := held_self v i ip k
  constructor
  · refine holds_congr rfl fun hlast => Function.update_of_ne (fun heq => ?_) ..
    have h12 : held sb (v.setInode i ip) (i, 12) = ip.addrs (Fin.last 12) :=
      (held_self v i ip 12).trans (holds_addrs v.block ip (Fin.last 12))
    have hsame := Ledger.inj h (i, 12) (i, k) (h12 ▸ hlast) (h12.trans (heq.trans hheld.symm))
    exact hk (Prod.ext_iff.mp hsame).2.symm
  · intro j hj
    refine holds_congr rfl fun hlast => Function.update_of_ne (fun heq => ?_) ..
    have h12 : held sb (v.setInode i ip) (j, 12) = (v.inode j).addrs (Fin.last 12) :=
      (held_of_ne hj 12).trans (holds_addrs v.block (v.inode j) (Fin.last 12))
    have hsame := Ledger.inj h (j, 12) (i, k) (h12 ▸ hlast) (h12.trans (heq.trans hheld.symm))
    exact hj (Prod.ext_iff.mp hsame).1

theorem held_put (h : Accounted sb (v.setInode i ip)) (hk : k ≠ 12) (data : Block)
    (x : Fin sb.ninodes × Nat) :
    held sb ((v.put (holds v.block ip k) data).setInode i ip) x = held sb (v.setInode i ip) x := by
  obtain ⟨hself, hothers⟩ := holds_put h hk data
  obtain ⟨j, l⟩ := x
  by_cases hj : j = i
  · rw [hj, held_self, held_self, hself]
  · rw [held_of_ne hj, held_of_ne hj, View.put_inode, hothers j hj]

theorem Accounted.put (h : Accounted sb (v.setInode i ip)) (hk : k ≠ 12) (data : Block) :
    Accounted sb ((v.put (holds v.block ip k) data).setInode i ip) :=
  Ledger.congr h (nmeta_le sb) (fun _ _ => rfl) (held_put h hk data)

/-- What was there before `bmap` is there afterwards. -/
theorem Extends.content_eq (h : Extends sb v i ip v' ip') (hfull : Full v.block ip len) (hlen : len ≤ 140 * 512) {x : Nat}
    (hx : x < len) : content v'.block ip' x = content v.block ip x := by
  have hne := hfull.holds_ne hx hlen
  have hself := held_self v i ip (place (x / 512))
  have hkeeps := h.keeps (i, place (x / 512)) (hself ▸ hne)
  have hdata := h.data (i, place (x / 512)) (place_ne _) (hself ▸ hne)
  rw [held_self, held_self] at hkeeps
  rw [hself] at hdata
  rw [content, content, hkeeps, hdata]

theorem start_eq (k : Nat) : ∃ c, start k = 512 * c := by
  rw [start]
  split_ifs
  · exact ⟨k, rfl⟩
  · exact ⟨k - 1, rfl⟩

/-- Blocks come whole. -/
theorem lt_iff_of_block {a : Nat} (k : Nat) (ha : 512 * (off / 512) < a) (hle : a ≤ 512 * (off / 512) + 512) :
    start k < a ↔ start k < 512 * (off / 512) + 1 := by
  obtain ⟨c, hc⟩ := start_eq k
  rw [hc]
  omega

theorem needed_of_block {a : Nat} (ha : 512 * (off / 512) < a) (hle : a ≤ 512 * (off / 512) + 512) :
    needed len a = needed len (512 * (off / 512) + 1) := by
  refine List.countP_congr fun k _ => ?_
  rw [Bool.and_eq_true, Bool.and_eq_true, decide_eq_true_eq, decide_eq_true_eq, decide_eq_true_eq, lt_iff_of_block k ha hle]

/-- A turn of the loop of `writei`, after `bmap`. -/
theorem Wrote.one (hfull : Full v.block ip len) (hlen : len ≤ 140 * 512) (hoff : off ≤ len) (hext : Extends sb v i ip v' ip')
    (hfull' : Full v'.block ip' (max len (512 * (off / 512) + 1)))
    (hfree : freeBlocks sb v' + needed len (512 * (off / 512) + 1) = freeBlocks sb v) {m : Nat} (hm : 0 < m)
    (hsrc : m ≤ src.length) (hblock : off % 512 + m ≤ 512) (hend : off + m ≤ 140 * 512) :
    Wrote sb v i ip len off (src.take m)
      (v'.put (holds v'.block ip' (place (off / 512)))
        (memmove (v'.block (holds v'.block ip' (place (off / 512)))) (off % 512) src m)) ip' := by
  have hlength : (src.take m).length = m := List.length_take_of_le hsrc
  have hplace := place_ne (off / 512)
  have hhere : holds v'.block ip' (place (off / 512)) ≠ 0 := by
    rw [hfull' _ (place_lt (by omega)), start_place]
    omega
  obtain ⟨hself, hothers⟩ := holds_put hext.accounted hplace
    (memmove (v'.block (holds v'.block ip' (place (off / 512)))) (off % 512) src m)
  have hfuture : ∀ k < 141, holds v'.block ip' k ≠ 0 ↔ start k < max len (off + m) := by
    intro k hk
    have hiff : start k < off + m ↔ start k < 512 * (off / 512) + 1 := lt_iff_of_block k (by omega) (by omega)
    rw [hfull' k hk]
    omega
  refine ⟨hext.accounted.put hplace _, hext.inode, hext.same, fun k hk => ?_, fun x hx => ?_, fun k hk => ?_,
    fun j hj k => ?_, fun j hj bn hne => ?_, ?_⟩
  · rw [hself k, hlength]
    exact hfuture k hk
  · rw [hlength] at hx ⊢
    rw [content, hself, View.put_block]
    by_cases hbn : x / 512 = off / 512
    · rw [hbn, Function.update_self, memmove]
      by_cases hin : off ≤ x ∧ x < off + m
      · have hsub : x % 512 - off % 512 = x - off := by omega
        rw [if_pos (by omega), if_pos hin, hsub]
        simp only [List.getD_eq_getElem?_getD]
        rw [List.getElem?_take_of_lt (by omega)]
      · rw [if_neg (by omega), if_neg hin, ← hext.content_eq hfull hlen (by omega : x < len), content, hbn]
    · have hx' : x < len := by omega
      have hne : holds v'.block ip' (place (x / 512)) ≠ holds v'.block ip' (place (off / 512)) := by
        intro heq
        have hsame := Ledger.inj hext.accounted (i, place (x / 512)) (i, place (off / 512))
          (by rw [held_self, heq]; exact hhere) (by rw [held_self, held_self, heq])
        exact hbn (place_inj (Prod.ext_iff.mp hsame).2)
      rw [Function.update_of_ne hne, if_neg (by omega), ← hext.content_eq hfull hlen hx', content]
  · have hkept := hext.keeps (i, k) (by rw [held_self]; exact hk)
    rw [held_self, held_self] at hkept
    rw [hself, hkept]
  · have hbefore := hext.others j hj k
    rw [held_of_ne hj, held_of_ne hj, hext.inode] at hbefore
    rw [← hext.inode, hothers j hj, hext.inode, hbefore]
  · have hheld : held sb (v.setInode i ip) (j, place bn) = holds v.block (v.inode j) (place bn) := held_of_ne hj (place bn)
    have hdata := hext.data (j, place bn) (place_ne bn) (hheld ▸ hne)
    rw [hheld] at hdata
    rw [View.put_block, Function.update_of_ne ?_, hdata]
    intro heq
    have hkept := hext.keeps (j, place bn) (hheld ▸ hne)
    have hsame := Ledger.inj hext.accounted (j, place bn) (i, place (off / 512))
      (by rw [hkept, hheld]; exact hne) (by rw [hkept, hheld, held_self, heq])
    exact hj (Prod.ext_iff.mp hsame).1
  · have hneeded : needed len (off + m) = needed len (512 * (off / 512) + 1) := needed_of_block (by omega) (by omega)
    rw [hlength, hneeded]
    exact hfree

/-- A turn of the loop of `writei`, up to its `log_write`. -/
theorem Shows.writeTurn (hd : Shows sb d v) (h : Accounted sb (v.setInode i ip)) (hfull : Full v.block ip len)
    (hlen : len ≤ 140 * 512) (hoff : off ≤ len) {m : Nat} (hm : 0 < m) (hsrc : m ≤ src.length)
    (hblock : off % 512 + m ≤ 512) (hend : off + m ≤ 140 * 512) :
    Ends
      (fun r => ∃ v' bits, Log.Home sb.toSuperblock r.value ∧
        Shows sb (r.disk.note r.value (memmove (r.disk.block r.value) (off % 512) src m)) v' ∧
        Wrote sb v i ip len off (src.take m) v' r.ip ∧ Bits sb (needed len (off + m)) bits ∧
        Logs sb (bits ++ [r.value] ++ indirect r.ip) d r.disk)
      (fun msg => Overflows sb (needed len (off + m)) 1 ip d msg ∨
        (msg = "balloc: out of blocks" ∧ freeBlocks sb v < needed len (off + m)))
      (Fs.bmap sb d ip (off / 512)) := by
  have hpart : needed len (512 * (off / 512) + 1) = needed len (off + m) :=
    Eq.symm (needed_of_block (by omega) (by omega))
  rw [← hpart]
  refine (hd.bmap h hfull (by omega : off / 512 < 140) (by omega)).mono (fun r hr => ?_) fun _ hm => hm
  obtain ⟨v₁, bits, hshows, hext, hfull₁, hvalue, hfree, hbits, hlogs⟩ := hr
  have hwrote := Wrote.one hfull hlen hoff hext hfull₁ hfree hm hsrc hblock hend
  obtain ⟨hge, hlt⟩ : sb.nmeta ≤ r.value ∧ r.value < sb.size := by
    have hheld := held_self v₁ i r.ip (place (off / 512))
    have hne : holds v₁.block r.ip (place (off / 512)) ≠ 0 := by
      rw [hfull₁ _ (place_lt (by omega)), start_place]
      omega
    have hrange := Ledger.range hext.accounted (i, place (off / 512)) (hheld ▸ hne)
    rw [hheld, ← hvalue] at hrange
    exact ⟨hrange.1, hrange.2.1⟩
  have hput := hshows.put hge (memmove (r.disk.block r.value) (off % 512) src m)
  refine ⟨_, bits, home_block hge hlt, hput, ?_, hbits, hlogs⟩
  rw [hshows.block _ hge, hvalue]
  exact hwrote

/-- How the blocks that are needed split over the turns. -/
theorem needed_split (len off : Nat) {m n : Nat} (h : m ≤ n) :
    needed len (off + m) + needed (max len (off + m)) (off + n) = needed len (off + n) := by
  by_cases hle : len ≤ off + m
  · rw [Nat.max_eq_right hle, ← needed_add hle (by omega)]
  · rw [Nat.max_eq_left (by omega), needed_of_ge (by omega : off + m ≤ len), Nat.zero_add]

theorem Wrote.last_eq (h : Wrote sb v i ip len off src v' ip') (hne : ip.addrs (Fin.last 12) ≠ 0) :
    ip'.addrs (Fin.last 12) = ip.addrs (Fin.last 12) := by
  have hold : holds v.block ip 12 = ip.addrs (Fin.last 12) := holds_addrs v.block ip (Fin.last 12)
  have hnew : holds v'.block ip' 12 = ip'.addrs (Fin.last 12) := holds_addrs v'.block ip' (Fin.last 12)
  have hkeeps := h.keeps 12
  rw [hold, hnew] at hkeeps
  exact hkeeps hne

/-- How often the loop of `writei` goes round. -/
def turns (off n : Nat) : Nat := if n = 0 then 0 else (off + n - 1) / 512 - off / 512 + 1

theorem turns_succ {m : Nat} (hn : n ≠ 0) (hm : m = min n (512 - off % 512)) :
    turns off n = 1 + turns (off + m) (n - m) := by
  rw [turns, turns, if_neg hn]
  split_ifs <;> omega

/-- The loop of `writei` writes a block in each turn, and besides those of the bit map for the
blocks that are new, and the block of numbers. -/
theorem Shows.writeLoop (hd : Shows sb d v) (h : Accounted sb (v.setInode i ip)) (hfull : Full v.block ip len)
    (hlen : len ≤ 140 * 512) (hoff : off ≤ len) (hend : off + src.length ≤ 140 * 512) (hfuel : src.length ≤ fuel) :
    Ends
      (fun r => ∃ v' bs, Shows sb r.disk v' ∧ Wrote sb v i ip len off src v' r.ip ∧ r.value = off + src.length ∧
        Span sb (needed len (off + src.length)) (turns off src.length) (indirect r.ip) bs ∧ Logs sb bs d r.disk)
      (fun msg => Overflows sb (needed len (off + src.length)) (turns off src.length) ip d msg ∨
        (msg = "balloc: out of blocks" ∧ freeBlocks sb v < needed len (off + src.length)))
      (writeLoop sb fuel d ip off src) := by
  induction fuel generalizing d v ip len off src with
  | zero =>
    obtain rfl : src = [] := List.length_eq_zero_iff.mp (by omega)
    exact .ok ⟨v, [], hd, .nil h hfull hoff, rfl, (Span.nil sb _).mono (Nat.zero_le _) (Nat.zero_le _) (List.Subset.refl _),
      .refl sb [] d⟩
  | succ fuel ih =>
    rw [Fs.writeLoop]
    by_cases hn : src.length = 0
    · obtain rfl := List.length_eq_zero_iff.mp hn
      exact .ok ⟨v, [], hd, .nil h hfull hoff, rfl, (Span.nil sb _).mono (Nat.zero_le _) (Nat.zero_le _) (List.Subset.refl _),
        .refl sb [] d⟩
    · rw [if_neg hn]
      generalize hm : min src.length (512 - off % 512) = m
      have hsplit := needed_split len off (by omega : m ≤ src.length)
      have hturns := turns_succ hn hm.symm
      have hlength : (src.take m).length = m := List.length_take_of_le (by omega)
      have hrest : (src.drop m).length = src.length - m := List.length_drop
      have hdrop : off + m + (src.length - m) = off + src.length := by omega
      refine (hd.writeTurn h hfull hlen hoff (by omega) (by omega : m ≤ src.length) (by omega) (by omega)).bind
        (fun msg hmsg => ?_) fun r hr => ?_
      · exact hmsg.imp (fun hover => hover.mono (by omega) (by omega)) fun hfree => ⟨hfree.1, by omega⟩
      · obtain ⟨v₁, bits, hhome, hput, hwrote, hbits, hlogs⟩ := hr
        have hspan := Span.turn hbits r.value (indirect r.ip)
        have hindirect := indirect_subset hwrote.last_eq
        refine (logWrite_logs r.disk (by simp : r.value ∈ bits ++ [r.value] ++ indirect r.ip) hhome _).bind
          (fun msg hmsg => .inl ⟨_, _, hindirect, length_indirect_le r.ip,
            hspan.mono (by omega) (by omega) (List.Subset.refl _), hmsg.after hlogs⟩) fun d' hd' => ?_
        obtain ⟨rfl, hlogs'⟩ := hd'
        have hfull₁ := hwrote.full
        have hfree₁ := hwrote.free
        rw [hlength] at hfull₁ hfree₁
        have hmore : off + m + (src.drop m).length ≤ 140 * 512 := by omega
        have hnext := ih hput hwrote.accounted hfull₁ (by omega) (Nat.le_max_right ..) hmore (by omega)
        rw [hrest, hdrop] at hnext
        refine hnext.mono (fun r' hr' => ?_) fun msg hmsg => ?_
        · obtain ⟨v₂, bs, hshows', hwrote', hvalue', hspan', hlogs₂⟩ := hr'
          have happend := hwrote.append (src.drop m) (by rw [hlength]; exact hwrote')
          rw [List.take_append_drop] at happend
          have hboth := (hspan.mono le_rfl le_rfl (indirect_subset hwrote'.last_eq)).append hspan'
          rw [hsplit, ← hturns] at hboth
          exact ⟨v₂, _, hshows', happend, hvalue', hboth,
            ((hlogs.trans hlogs').mono (List.subset_append_left ..)).trans (hlogs₂.mono (List.subset_append_right ..))⟩
        · refine hmsg.imp (fun hover => ?_) fun hfree' => ⟨hfree'.1, by omega⟩
          rw [← hsplit, hturns]
          exact hover.after hindirect hspan (hlogs.trans hlogs')

/-! ### Truncating -/

/-- Only bits of the map have changed. -/
structure Unmarks (v v' : View) : Prop where
  inode : v'.inode = v.inode
  block : v'.block = v.block

theorem Unmarks.trans (h : Unmarks v v') (h' : Unmarks v' v'') : Unmarks v v'' :=
  ⟨h'.inode.trans h.inode, h'.block.trans h.block⟩

theorem Unmarks.of_mark {u : Bool} (h : Unmarks (v.mark b u) v') : Unmarks v v' := ⟨h.inode, h.block⟩

theorem update_false (used : Nat → Bool) (b c : Nat) : Function.update used b false c = (!decide (b = c) && used c) := by
  by_cases hc : c = b
  · simp [hc]
  · simp [hc, Ne.symm hc]

theorem Shows.freeDirect (is : List (Fin 12)) (hd : Shows sb d v) (h : Accounted sb (v.setInode i ip)) :
    Ends
      (fun r => ∃ v', Shows sb r.disk v' ∧ Unmarks v v' ∧ Accounted sb (v'.setInode i r.ip) ∧
        (∀ k, ip.addrs k = 0 → r.ip.addrs k = 0) ∧ (∀ m ∈ is, r.ip.addrs m.castSucc = 0) ∧
        r.ip.addrs (Fin.last 12) = ip.addrs (Fin.last 12) ∧ r.ip = { ip with addrs := r.ip.addrs } ∧
        Logs sb (bitmap sb) d r.disk)
      (Refuses sb (bitmap sb) d) (freeDirect sb is d ip) := by
  induction is generalizing d v ip with
  | nil =>
    exact .ok ⟨v, hd, ⟨rfl, rfl⟩, h, fun _ => id, fun m hm => absurd hm List.not_mem_nil, rfl, rfl, .refl sb _ d⟩
  | cons m is ih =>
    rw [Fs.freeDirect]
    by_cases hempty : ip.addrs m.castSucc = 0
    · rw [if_pos hempty]
      refine (ih hd h).mono (fun r hr => ?_) fun _ hm => hm
      obtain ⟨v', hshows, hmarks, hacc, hzero, hall, hlast, hsame, hlogs⟩ := hr
      refine ⟨v', hshows, hmarks, hacc, hzero, fun l hl => ?_, hlast, hsame, hlogs⟩
      rcases List.mem_cons.mp hl with rfl | hl
      · exact hzero _ hempty
      · exact hall l hl
    · rw [if_neg hempty]
      have hheld : held sb (v.setInode i ip) (i, m.castSucc) = ip.addrs m.castSucc :=
        (held_self v i ip _).trans (holds_addrs ..)
      obtain ⟨_, hlt, hused⟩ := Ledger.range h (i, m.castSucc) (hheld ▸ hempty)
      rw [hheld] at hlt hused
      refine (hd.bfree hlt hused (mem_bitmap hlt)).bind (fun _ hm => hm) fun d' hd' => ?_
      obtain ⟨hshows, hlogs⟩ := hd'
      have hrelease : Accounted sb ((v.mark (ip.addrs m.castSucc) false).setInode i
          { ip with addrs := Function.update ip.addrs m.castSucc 0 }) := by
        refine Ledger.release h (nmeta_le sb) hheld (hheld ▸ hempty) (fun c _ => update_false ..) fun x => ?_
        obtain ⟨j, l⟩ := x
        by_cases hj : j = i
        · rw [hj, held_self, held_self]
          by_cases hl : l = m.castSucc
          · rw [hl, if_pos rfl, holds_addrs]
            exact Function.update_self ..
          · rw [if_neg fun heq => hl (Prod.ext_iff.mp heq).2]
            refine holds_congr_at (fun hl13 => ?_) (fun _ => ?_) fun _ => rfl
            · exact Function.update_of_ne (fun heq => hl (congrArg Fin.val heq)) ..
            · exact Function.update_of_ne (Fin.castSucc_lt_last m).ne' ..
        · rw [if_neg fun heq => hj (Prod.ext_iff.mp heq).1, held_of_ne hj, held_of_ne hj]
          rfl
      refine (ih hshows hrelease).mono (fun r hr => ?_) fun _ hm => hm.after hlogs
      obtain ⟨v', hshows', hmarks, hacc, hzero, hall, hlast, hsame, hlogs'⟩ := hr
      refine ⟨v', hshows', hmarks.of_mark, hacc, fun k hk => hzero k ?_, fun l hl => ?_, ?_, ?_, hlogs.trans hlogs'⟩
      · by_cases hkm : k = m.castSucc
        · exact hkm ▸ Function.update_self ..
        · exact (Function.update_of_ne hkm ..).trans hk
      · rcases List.mem_cons.mp hl with rfl | hl
        · exact hzero _ (Function.update_self ..)
        · exact hall l hl
      · exact hlast.trans (Function.update_of_ne (Fin.castSucc_lt_last m).ne' ..)
      · rw [hsame]

theorem among_cons {j : Nat} {js : List Nat} {x : Fin sb.ninodes × Nat} (hx : x ≠ (i, 13 + j)) :
    (x.1 = i ∧ ∃ l ∈ j :: js, x.2 = 13 + l) ↔ (x.1 = i ∧ ∃ l ∈ js, x.2 = 13 + l) := by
  refine and_congr_right fun hi => ?_
  simp only [List.mem_cons, exists_eq_or_imp, or_iff_right_iff_imp]
  intro h13
  exact absurd (Prod.ext hi h13) hx

theorem Shows.freeEntries {a : Nat} (ha : sb.nmeta ≤ a) (js : List Nat) (hjs : js.Nodup) (hd : Shows sb d v)
    {held : Fin sb.ninodes × Nat → Nat} (h : Ledger sb.nmeta sb.size v.used held)
    (hread : ∀ j ∈ js, held (i, 13 + j) = readLe (v.block a) (4 * j) 4) :
    Ends
      (fun d' => ∃ v', Shows sb d' v' ∧ Unmarks v v' ∧
        Ledger sb.nmeta sb.size v'.used (fun x => if x.1 = i ∧ ∃ j ∈ js, x.2 = 13 + j then 0 else held x) ∧
        Logs sb (bitmap sb) d d')
      (Refuses sb (bitmap sb) d) (freeEntries sb a js d) := by
  induction js generalizing d v held with
  | nil =>
    refine .ok ⟨v, hd, ⟨rfl, rfl⟩, ?_, .refl sb _ d⟩
    simpa using h
  | cons j js ih =>
    rw [List.nodup_cons] at hjs
    have hj := hread j List.mem_cons_self
    rw [← hd.block a ha] at hj
    rw [Fs.freeEntries]
    by_cases hempty : readLe (d.block a) (4 * j) 4 = 0
    · rw [if_pos hempty]
      refine (ih hjs.2 hd h fun l hl => hread l (List.mem_cons_of_mem _ hl)).mono (fun d' hd' => ?_) fun _ hm => hm
      obtain ⟨v', hshows, hmarks, hledger, hlogs⟩ := hd'
      refine ⟨v', hshows, hmarks, hledger.congr (nmeta_le sb) (fun _ _ => rfl) fun x => ?_, hlogs⟩
      by_cases hx : x = (i, 13 + j)
      · have hzero : held x = 0 := by rw [hx, hj, hempty]
        split_ifs <;> simp [hzero]
      · rw [if_congr (among_cons hx) rfl rfl]
    · rw [if_neg hempty]
      have hne : held (i, 13 + j) ≠ 0 := hj ▸ hempty
      obtain ⟨_, hlt, hused⟩ := h.range _ hne
      rw [hj] at hlt hused
      refine (hd.bfree hlt hused (mem_bitmap hlt)).bind (fun _ hm => hm) fun d₁ hd₁ => ?_
      obtain ⟨hshows, hlogs⟩ := hd₁
      have hrelease : Ledger sb.nmeta sb.size (v.mark (readLe (d.block a) (4 * j) 4) false).used
          fun x => if x = (i, 13 + j) then 0 else held x :=
        h.release (nmeta_le sb) hj hne (fun c _ => update_false ..) fun _ => rfl
      have hmore := ih hjs.2 hshows hrelease fun l hl => by
        have hlj : l ≠ j := fun heq => hjs.1 (heq ▸ hl)
        rw [if_neg fun heq => hlj (Nat.add_left_cancel (Prod.ext_iff.mp heq).2)]
        exact hread l (List.mem_cons_of_mem _ hl)
      refine hmore.mono (fun d' hd' => ?_) fun _ hm => hm.after hlogs
      obtain ⟨v', hshows', hmarks, hledger, hlogs'⟩ := hd'
      refine ⟨v', hshows', hmarks.of_mark, hledger.congr (nmeta_le sb) (fun _ _ => rfl) fun x => ?_, hlogs.trans hlogs'⟩
      by_cases hx : x = (i, 13 + j)
      · rw [if_pos ⟨congrArg Prod.fst hx, j, List.mem_cons_self, congrArg Prod.snd hx⟩, if_pos hx, ite_self]
      · rw [if_congr (among_cons hx) rfl rfl, if_neg hx]

/-- What an inode has without its block of numbers. -/
theorem holds_clear (block : Nat → Block) (ip : Inode) (l : Nat) :
    holds block { ip with addrs := Function.update ip.addrs (Fin.last 12) 0 } l =
      if l = 12 ∨ ∃ j ∈ List.range 128, l = 13 + j then 0 else holds block ip l := by
  have hlast : (Function.update ip.addrs (Fin.last 12) 0) (Fin.last 12) = 0 := Function.update_self ..
  by_cases hl : l = 12
  · rw [if_pos (.inl hl), hl]
    exact (holds_addrs block { ip with addrs := Function.update ip.addrs (Fin.last 12) 0 } (Fin.last 12)).trans hlast
  · by_cases h13 : l < 13
    · have hnot : ¬ ∃ j ∈ List.range 128, l = 13 + j := fun hex => by
        obtain ⟨j, _, hj⟩ := hex
        omega
      rw [if_neg (by simp only [hl, hnot, or_self, not_false_eq_true]), holds, holds, dif_pos h13, dif_pos h13]
      exact Function.update_of_ne (fun heq => hl (congrArg Fin.val heq)) ..
    · rw [holds_of_empty _ _ (by omega) hlast]
      by_cases h141 : l < 141
      · rw [if_pos (.inr ⟨l - 13, List.mem_range.mpr (by omega), by omega⟩)]
      · have hzero : holds block ip l = 0 := by
          rw [holds, dif_neg h13, if_neg fun hand => h141 hand.1]
        rw [hzero, ite_self]

theorem Shows.freeIndirect (hd : Shows sb d v) (h : Accounted sb (v.setInode i ip)) :
    Ends
      (fun r => ∃ v', Shows sb r.disk v' ∧ Unmarks v v' ∧ Accounted sb (v'.setInode i r.ip) ∧
        r.ip = { ip with addrs := Function.update ip.addrs (Fin.last 12) 0 } ∧ Logs sb (bitmap sb) d r.disk)
      (Refuses sb (bitmap sb) d) (freeIndirect sb d ip) := by
  unfold Fs.freeIndirect
  by_cases hempty : ip.addrs (Fin.last 12) = 0
  · rw [if_pos hempty]
    refine .ok ⟨v, hd, ⟨rfl, rfl⟩, h, ?_, .refl sb _ d⟩
    rw [← hempty, Function.update_eq_self]
  · rw [if_neg hempty]
    obtain ⟨ha, _⟩ := h.indirect_used hempty
    have hread : ∀ j ∈ List.range 128, held sb (v.setInode i ip) (i, 13 + j) =
        readLe (v.block (ip.addrs (Fin.last 12))) (4 * j) 4 := by
      intro j hj
      rw [held_self, holds_entry v.block ip (List.mem_range.mp hj) hempty]
    refine (hd.freeEntries ha (List.range 128) List.nodup_range h hread).bind (fun _ hm => hm) fun d₁ hd₁ => ?_
    obtain ⟨v₁, hshows, hmarks, hledger, hlogs⟩ := hd₁
    -- the block of numbers itself
    have h12 : (if (i, 12).1 = i ∧ ∃ j ∈ List.range 128, (i, 12).2 = 13 + j then 0
        else held sb (v.setInode i ip) (i, 12)) = ip.addrs (Fin.last 12) := by
      have hnot : ¬ ∃ j ∈ List.range 128, 12 = 13 + j := by
        intro hex
        obtain ⟨j, _, hj⟩ := hex
        omega
      rw [if_neg fun hand => hnot hand.2, held_self]
      exact holds_addrs v.block ip (Fin.last 12)
    obtain ⟨_, hlt, hused⟩ := hledger.range (i, 12) (h12 ▸ hempty)
    dsimp only at hlt hused
    rw [h12] at hlt hused
    refine (hshows.bfree hlt hused (mem_bitmap hlt)).map (fun _ hm => hm.after hlogs) fun d₂ hd₂ => ?_
    obtain ⟨hshows₂, hlogs₂⟩ := hd₂
    refine ⟨_, hshows₂, hmarks.trans ⟨rfl, rfl⟩, ?_, rfl, hlogs.trans hlogs₂⟩
    have hrelease := hledger.release (nmeta_le sb) h12 (h12 ▸ hempty) (fun c _ => update_false v₁.used _ c) fun _ => rfl
    refine hrelease.congr (nmeta_le sb) (fun _ _ => rfl) fun x => ?_
    obtain ⟨j, l⟩ := x
    by_cases hj : j = i
    · rw [hj, held_self, held_self, holds_clear]
      dsimp only [View.mark_block]
      rw [hmarks.block]
      by_cases hl : l = 12
      · subst hl
        rw [if_pos (.inl rfl), if_pos rfl]
      · rw [if_neg fun heq => hl (Prod.ext_iff.mp heq).2, if_congr (or_iff_right hl) rfl rfl,
          if_congr (and_iff_right rfl) rfl rfl]
    · rw [if_neg fun heq => hj (Prod.ext_iff.mp heq).1, if_neg fun hand => hj hand.1, held_of_ne hj, held_of_ne hj]
      dsimp only [View.mark_inode, View.mark_block]
      rw [hmarks.inode, hmarks.block]

/-- The blocks that `itrunc` writes. -/
def truncated (sb : Superblock) (inum : Nat) : List Nat := bitmap sb ++ [iblock sb inum]

/-- `itrunc` leaves an inode without blocks. -/
theorem Shows.itrunc (hd : Shows sb d v) (h : Accounted sb (v.setInode i ip)) :
    Ends
      (fun r => ∃ v', Shows sb r.disk (v'.setInode i r.ip) ∧ Unmarks v v' ∧ Accounted sb (v'.setInode i r.ip) ∧
        r.ip = { ip with size := 0, addrs := fun _ => 0 } ∧ Logs sb (truncated sb i) d r.disk)
      (Refuses sb (truncated sb i) d) (itrunc sb d i ip) := by
  have hsub : bitmap sb ⊆ truncated sb i := List.subset_append_left ..
  refine (hd.freeDirect (List.finRange 12) h).bind (fun _ hm => hm.mono hsub) fun r₁ hr₁ => ?_
  obtain ⟨v₁, hshows₁, hmarks₁, hacc₁, _, hall, hlast, hsame₁, hlogs₁⟩ := hr₁
  replace hlogs₁ := hlogs₁.mono hsub
  refine (hshows₁.freeIndirect hacc₁).bind (fun _ hm => (hm.mono hsub).after hlogs₁) fun r₂ hr₂ => ?_
  obtain ⟨v₂, hshows₂, hmarks₂, hacc₂, hsame₂, hlogs₂⟩ := hr₂
  replace hlogs₂ := hlogs₁.trans (hlogs₂.mono hsub)
  have haddrs : r₂.ip.addrs = fun _ => 0 := by
    funext k
    rw [hsame₂]
    change Function.update r₁.ip.addrs (Fin.last 12) 0 k = 0
    by_cases hk : k = Fin.last 12
    · rw [hk, Function.update_self]
    · have hcast : (k.castPred hk).castSucc = k := Fin.castSucc_castPred k hk
      rw [Function.update_of_ne hk, ← hcast]
      exact hall (k.castPred hk) (List.mem_finRange _)
  have hfinal : ({ r₂.ip with size := 0 } : Inode) = { ip with size := 0, addrs := fun _ => 0 } := by
    rw [← haddrs, hsame₂, hsame₁]
  have hfits : Inode.Fits { r₂.ip with size := 0 } :=
    ⟨Nat.two_pow_pos 32, fun k => by rw [haddrs]; exact Nat.two_pow_pos 32⟩
  have hacc : Accounted sb (v₂.setInode i { r₂.ip with size := 0 }) := by
    refine Ledger.congr hacc₂ (nmeta_le sb) (fun _ _ => rfl) fun x => ?_
    obtain ⟨j, l⟩ := x
    by_cases hj : j = i
    · rw [hj, held_self, held_self]
      exact holds_congr rfl (fun _ => rfl) l
    · rw [held_of_ne hj, held_of_ne hj]
  refine (hshows₂.iupdate i.isLt hfits (by simp [truncated])).map (fun _ hm => hm.after hlogs₂) fun d' hd' => ?_
  obtain ⟨hshows, hlogs⟩ := hd'
  exact ⟨v₂, hshows, hmarks₁.trans hmarks₂, hacc, hfinal, hlogs₂.trans hlogs⟩

end CompilingToAssembly.Xv6.Fs
