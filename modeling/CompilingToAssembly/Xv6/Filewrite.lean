import CompilingToAssembly.Xv6.Storage

/-! `filewrite` of `file.c`, and how much of the log it takes.

It writes a few blocks at a time, so that a transaction has at most `MAXOPBLOCKS` blocks.
`writei` calls `log_write` more often than that, but often for a block that the log has already. -/
namespace CompilingToAssembly.Xv6.Fs
open Library

/-- `max` of `filewrite`. -/
def filewriteMax : Nat := (Log.maxOpBlocks - 1 - 1 - 2) / 2 * 512

/-- What `filewrite` leaves: `done` if it has written everything and does not return -1. -/
structure Filed where
  state : State
  off : UInt32
  done : Bool

section Source
variable (sb : Superblock)

/-- What a turn of the loop does between `begin_op` and `end_op`. -/
def fill (dev : Option Nat) (s : State) (inum : Nat) (off : UInt32) (src : List UInt8) :
    Except String (State × Option Nat) :=
  (ilock sb s inum).bind fun ip => (writei sb dev s.disk inum ip src off).map fun r => (s.hold inum r, r.value)

/-- The loop of `filewrite`, with the bytes `src` to go, each turn of which is a transaction. -/
def filewrite (dev : Option Nat) (inum : Nat) : Nat → State → UInt32 → List UInt8 → Turn Filed
  | 0, s, off, src => .next ⟨s, off, src.length == 0⟩
  | fuel + 1, s, off, src =>
    if src.length = 0 then .next ⟨s, off, true⟩
    else
      let n1 := min src.length filewriteMax
      s.beginOp.bind fun s => (Turn.ofExcept (fill sb dev s inum off (src.take n1))).bind fun r =>
        match r.2 with
        | none => .next ⟨r.1.endOp, off, false⟩
        | some k =>
          if k ≠ n1 then .panics "short filewrite"
          else filewrite dev inum fuel r.1.endOp (off + .ofNat k) (src.drop k)

end Source

variable {sb : Superblock} {ip : Inode} {s : State} {fs : Store} {len m n off fuel : Nat} {src : List UInt8}

/-! ### A write of `filewrite` -/

theorem needed_one (c : Nat) : needed (512 * c) (512 * (c + 1)) ≤ if c = 12 then 2 else 1 := by
  by_cases hc : c < 140
  · have hblock : needed (512 * c) (512 * (c + 1)) = needed (512 * c) (512 * (512 * c / 512) + 1) :=
      needed_of_block (by omega) (by omega)
    rw [Nat.mul_div_cancel_left c (by decide), needed_block hc] at hblock
    exact hblock.le
  · have hzero : needed (512 * c) (512 * (c + 1)) = 0 := by
      rw [needed, List.countP_eq_zero]
      intro k hk
      have hlt := List.mem_range.mp hk
      rw [Bool.and_eq_true, decide_eq_true_eq, start]
      split_ifs <;> omega
    omega

theorem needed_three (c : Nat) : needed (512 * c) (512 * (c + 3)) ≤ 4 := by
  have hfirst := needed_one c
  have hsecond : needed (512 * (c + 1)) (512 * (c + 2)) ≤ _ := needed_one (c + 1)
  have hthird : needed (512 * (c + 2)) (512 * (c + 3)) ≤ _ := needed_one (c + 2)
  rw [needed_add (by omega : 512 * c ≤ 512 * (c + 1)) (by omega),
    needed_add (by omega : 512 * (c + 1) ≤ 512 * (c + 2)) (by omega)]
  split_ifs at hfirst hsecond hthird <;> omega

theorem needed_le (hoff : off ≤ len) (hn : n ≤ filewriteMax) : needed len (off + n) ≤ 4 := by
  have hmax : filewriteMax = 1536 := rfl
  refine le_trans (List.countP_mono_left fun k _ hk => ?_) (needed_three ((off + 511) / 512))
  obtain ⟨c, hc⟩ := start_eq k
  rw [Bool.and_eq_true, decide_eq_true_eq, decide_eq_true_eq, hc] at hk ⊢
  omega

theorem turns_le (off : Nat) (hn : n ≤ filewriteMax) : turns off n ≤ 4 := by
  have hmax : filewriteMax = 1536 := rfl
  rw [turns]
  split_ifs <;> omega

theorem Writes.few {bs : List Nat} {off : UInt32} {f : File} (hoff : off.toNat ≤ f.bytes.length) (hsrc : src.length ≤ filewriteMax)
    (h : Writes sb (needed f.bytes.length (off.toNat + src.length)) (turns off.toNat src.length) bs) :
    ∃ cs, bs ⊆ cs ∧ cs.length ≤ 10 := by
  obtain ⟨cs, hsub, hle⟩ := h.exists_length_le
  have hneeded := needed_le hoff hsrc
  have hturns := turns_le off.toNat hsrc
  exact ⟨cs, hsub, by omega⟩

theorem Valid.writei_logs (h : Valid sb s) {inum : Nat} (hcached : s.cache inum = some ip) {off : UInt32} {dev : Option Nat}
    (hsrc : src.length ≤ filewriteMax) {r : Done (Option Nat)} (hr : Fs.writei sb dev s.disk inum ip src off = .ok r) :
    ∃ bs cs, bs ⊆ cs ∧ cs.length ≤ 10 ∧ Logs sb bs s.disk r.disk := by
  have hmax : filewriteMax = 1536 := rfl
  have hf := h.files_cached hcached
  rcases h.writei_cases hcached hf (by omega : src.length < 2 ^ 32) off dev with ⟨_, hok⟩ | ⟨haccepts, hends⟩
  · obtain rfl := Except.ok.inj (hok.symm.trans hr)
    exact ⟨[], [], List.Subset.refl _, Nat.zero_le _, .refl sb [] s.disk⟩
  · obtain ⟨_, _, _, _, bs, hwrites, hlogs⟩ := hends.of_ok hr
    obtain ⟨hoff, _⟩ := File.bounds (by omega) fun hrefuses => haccepts (.inr hrefuses)
    obtain ⟨cs, hsub, hle⟩ := hwrites.few hoff hsrc
    exact ⟨bs, cs, hsub, hle, hlogs⟩

/-- **A write of `filewrite` fits into its transaction**: at most `MAXOPBLOCKS` blocks come to the
log, the bits of new blocks, the block of entries and the inode included. -/
theorem write_fits_transaction {es : List Event} (h : sb.nmeta ≤ 4096)
    (hrun : Runs (step sb) (Orderly sb) (formatted sb) es s) {inum : Nat} (hcached : s.cache inum = some ip)
    (hsrc : src.length ≤ filewriteMax) (off : UInt32) (dev : Option Nat) :
    ∀ r, writei sb dev s.disk inum ip src off = .ok r →
      r.disk.logged.length ≤ s.disk.logged.length + Log.maxOpBlocks := by
  intro r hr
  obtain ⟨bs, cs, hsub, hle, hlogs⟩ := (valid_of_runs h hrun).writei_logs hcached hsrc hr
  exact (hlogs.length_le hsub).trans (Nat.add_le_add_left hle _)

/-- Three blocks of zeros go to the file of `note`, from its fifth byte on. -/
theorem write_fits_transaction_noted :
    ∃ ip r, noted.cache 1 = some ip ∧ writei tiny none noted.disk 1 ip (List.replicate 1536 0) 5 = .ok r ∧
      r.disk.logged.length ≤ noted.disk.logged.length + Log.maxOpBlocks := by
  have hok : ((noted.cache 1).bind fun ip =>
      (writei tiny none noted.disk 1 ip (List.replicate 1536 0) 5).toOption).isSome := by decide +kernel
  obtain ⟨r, hr⟩ := Option.isSome_iff_exists.mp hok
  obtain ⟨ip, hip, hr⟩ := Option.bind_eq_some_iff.mp hr
  have hwrite : writei tiny none noted.disk 1 ip (List.replicate 1536 0) 5 = .ok r := by
    cases hresult : writei tiny none noted.disk 1 ip (List.replicate 1536 0) 5 with
    | error m =>
      rw [hresult] at hr
      cases hr
    | ok r' =>
      rw [hresult] at hr
      exact congrArg Except.ok (Option.some.inj hr)
  exact ⟨ip, r, hip, hwrite, write_fits_transaction (by decide) noted_runs hip (by rw [List.length_replicate]; decide) 5 none r hwrite⟩

/-! ### What `filewrite` writes -/

theorem File.write_nil (f : File) (off : Nat) : f.write [] off = f := by
  rw [File.write, List.append_nil, List.length_nil, Nat.add_zero, List.take_append_drop]

theorem File.write_write {f : File} (hoff : off ≤ f.bytes.length) (src src' : List UInt8) :
    (f.write src off).write src' (off + src.length) = f.write (src ++ src') off := by
  have hlength : (f.bytes.take off ++ src).length = off + src.length := by
    rw [List.length_append, List.length_take_of_le hoff]
  rw [File.write, File.write, File.write]
  dsimp only
  rw [List.take_left' hlength, ← hlength, List.drop_length_add_append, List.drop_drop, hlength, List.length_append,
    List.append_assoc (f.bytes.take off), Nat.add_assoc]

/-- How many of `n` bytes `filewrite` writes from `off` on: as many turns as fit into a file. -/
def written (off n : Nat) : Nat :=
  if off + n ≤ 140 * 512 then n else (140 * 512 - off) / filewriteMax * filewriteMax

theorem written_refused (hend : 140 * 512 < off + min n filewriteMax) : written off n = 0 := by
  have hmax : filewriteMax = 1536 := rfl
  rw [written, hmax]
  rw [hmax] at hend
  split_ifs <;> omega

theorem written_turn (hm : m = min n filewriteMax) (hend : off + m ≤ 140 * 512) :
    written off n = m + written (off + m) (n - m) := by
  have hmax : filewriteMax = 1536 := rfl
  rw [written, written, hmax]
  rw [hmax] at hm
  split_ifs <;> omega

theorem File.length_write {f : File} (hoff : off ≤ f.bytes.length) (src : List UInt8) :
    off + src.length ≤ (f.write src off).bytes.length := by
  rw [File.write]
  simp only [List.length_append, List.length_take, List.length_drop]
  omega

theorem Valid.ilock (h : Valid sb s) {inum : Nat} (hopen : inum ∈ s.refs) {f : File} (hf : files sb s.disk inum = some f) :
    ∃ ip, ilock sb s inum = .ok ip ∧ Valid sb { s with cache := Function.update s.cache inum (some ip) } ∧
      f.type = ip.type ∧ f.bytes.length = ip.size := by
  have hlt : inum < sb.ninodes := by
    by_contra hge
    rw [files, View.files, if_neg hge] at hf
    cases hf
  have hcount : ¬ s.refs.count inum < 1 := not_lt.mpr (List.count_pos_iff.mpr hopen)
  have htype : (dinode sb s.disk inum).type ≠ 0 := by
    intro hzero
    have hnone := files_isNone (d := s.disk) hlt
    rw [hf, hzero] at hnone
    cases hnone
  have hvalid : Valid sb { s with cache := Function.update s.cache inum (some (dinode sb s.disk inum)) } := by
    refine h.setCache (fun ip hip => ?_) fun _ => hopen
    obtain rfl := Option.some.inj hip
    exact ⟨hlt, rfl, htype⟩
  have hfile := hvalid.files_cached (Function.update_self ..)
  rw [hf] at hfile
  obtain rfl := Option.some.inj hfile
  refine ⟨dinode sb s.disk inum, ?_, hvalid, rfl, by rw [List.length_map, List.length_range]⟩
  rw [Fs.ilock, if_neg hcount]
  cases hcached : s.cache inum with
  | none => exact if_neg htype
  | some ip =>
    obtain ⟨_, rfl, _⟩ := h.cached inum ip hcached
    rfl

theorem Valid.length_le (h : Valid sb s) {inum : Nat} {f : File} (hf : files sb s.disk inum = some f) :
    f.bytes.length ≤ 140 * 512 := by
  rw [files, View.files] at hf
  split_ifs at hf with hlt
  rw [fileOf] at hf
  split_ifs at hf
  obtain rfl := Option.some.inj hf
  rw [List.length_map, List.length_range]
  exact h.sound.size_le ⟨inum, hlt⟩

/-- A system call that starts while none is under way. -/
theorem Valid.beginOp_idle (h : Valid sb s) (hidle : s.disk.outstanding = 0) :
    ∃ s', s.beginOp = .next s' ∧ Valid sb s' ∧ files sb s'.disk = files sb s.disk ∧ s'.refs = s.refs ∧
      s'.disk.outstanding = 1 ∧ s'.disk.logged = [] := by
  have hempty := h.idle hidle
  have hbegin : s.beginOp = .next { s with disk := { s.disk with outstanding := s.disk.outstanding + 1 } } := by
    refine if_neg ?_
    rw [hempty, hidle]
    decide
  obtain ⟨hvalid, hfiles⟩ := h.beginOp hbegin
  exact ⟨_, hbegin, hvalid, hfiles, rfl, by rw [hidle], hempty⟩

theorem endOp_last (h : s.disk.outstanding = 1) : s.endOp.disk.outstanding = 0 ∧ s.endOp.refs = s.refs := by
  rw [State.endOp, h]
  exact ⟨rfl, rfl⟩

/-- A turn of `filewrite`: the bytes of the file after `writei`. -/
theorem Valid.fill (h : Valid sb s) (hout : s.disk.outstanding = 1) (hempty : s.disk.logged = []) {inum : Nat}
    (hopen : inum ∈ s.refs) {f : File} (hf : files sb s.disk inum = some f) (hdev : f.type ≠ tDev) {off : UInt32}
    (hoff : off.toNat ≤ f.bytes.length) (hsrc : src.length ≤ filewriteMax) (dev : Option Nat) :
    Ends
      (fun r => Valid sb r.1 ∧ r.1.disk.outstanding = 1 ∧ r.1.refs = s.refs ∧
        r.2 = (if off.toNat + src.length ≤ 140 * 512 then some src.length else none) ∧
        files sb r.1.disk = Function.update (files sb s.disk) inum
          (some (if off.toNat + src.length ≤ 140 * 512 then f.write src off.toNat else f)))
      (fun m => m = "balloc: out of blocks" ∨ (m = "too big a transaction" ∧ sb.full ≤ 10))
      (fill sb dev s inum off src) := by
  have hmax : filewriteMax = 1536 := rfl
  obtain ⟨ip, hip, hvalid, _⟩ := h.ilock hopen hf
  have hcached : (Function.update s.cache inum (some ip)) inum = some ip := Function.update_self ..
  have hle := h.length_le hf
  have hrefuses : f.refuses (.ofNat src.length) off ↔ ¬ off.toNat + src.length ≤ 140 * 512 := by
    rw [File.refuses, UInt32.lt_iff_toNat_lt, toNat_add_ofNat (by omega)]
    omega
  rw [Fs.fill, hip]
  rcases hvalid.writei_cases hcached hf (by omega : src.length < 2 ^ 32) off dev with ⟨hrefused, hr⟩ | ⟨haccepts, hends⟩
  · have hend := hrefuses.mp (hrefused.resolve_left hdev)
    dsimp only [Except.bind] at hr ⊢
    rw [hr, if_neg hend, if_neg hend, if_neg hdev, ← hf, Function.update_eq_self]
    exact .ok ⟨hvalid, hout, rfl, rfl, rfl⟩
  · have hend : off.toNat + src.length ≤ 140 * 512 := by
      by_contra hno
      exact haccepts (.inr (hrefuses.mpr hno))
    rw [if_pos hend, if_pos hend]
    refine hends.map (fun m hm => ?_) fun r hr => ?_
    · rcases hm with ⟨bs, hwrites, hstop⟩ | ⟨rfl, _⟩
      · obtain ⟨cs, hsub, hten⟩ := hwrites.few hoff hsrc
        rcases hstop.cause hsub with ⟨rfl, hfull⟩ | ⟨_, hzero⟩
        · refine .inr ⟨rfl, ?_⟩
          rw [hempty, List.length_nil] at hfull
          omega
        · dsimp only at hzero
          omega
      · exact .inl rfl
    · obtain ⟨hnext, hfiles, _, hvalue, bs, _, hlogs⟩ := hr
      rw [State.hold] at hnext
      dsimp only at hnext hfiles hlogs
      rw [Function.update_idem] at hnext
      exact ⟨hnext, hlogs.logged.1.trans hout, rfl, hvalue, hfiles⟩

/-- What `filewrite` is to leave of the files `fs`: the turns that fit are in `f`, and it returns -1
if not all of them do. -/
structure Stored (sb : Superblock) (fs : Store) (inum : Nat) (f : File) (off : UInt32) (src : List UInt8) (r : Filed) :
    Prop where
  store : files sb r.state.disk = Function.update fs inum
    (some (f.write (src.take (written off.toNat src.length)) off.toNat))
  moved : r.off.toNat = off.toNat + written off.toNat src.length
  done : r.done = true ↔ off.toNat + src.length ≤ 140 * 512

theorem Stored.nothing (h : Valid sb s) {inum : Nat} {f : File} (hf : files sb s.disk inum = some f) {off : UInt32}
    (hoff : off.toNat ≤ f.bytes.length) : Stored sb (files sb s.disk) inum f off [] ⟨s, off, true⟩ := by
  have hle := h.length_le hf
  have hnone : written off.toNat 0 = 0 := if_pos (by omega)
  refine ⟨?_, ?_, iff_of_true rfl ?_⟩
  · rw [List.take_nil, File.write_nil, ← hf, Function.update_eq_self]
  · rw [List.length_nil, hnone, Nat.add_zero]
  · rw [List.length_nil]
    omega

/-- The first turn does not fit. -/
theorem Stored.refused {inum : Nat} {f : File} {off : UInt32}
    (hend : 140 * 512 < off.toNat + min src.length filewriteMax) (hfiles : files sb s.disk = Function.update fs inum (some f)) :
    Stored sb fs inum f off src ⟨s, off, false⟩ := by
  have hnone := written_refused hend
  refine ⟨?_, by rw [hnone, Nat.add_zero], iff_of_false Bool.false_ne_true (by omega)⟩
  rw [hnone, List.take_zero, File.write_nil]
  exact hfiles

/-- A turn, and those behind it. -/
theorem Stored.turn {inum : Nat} {f : File} {off : UInt32} {r : Filed} (hm : m = min src.length filewriteMax)
    (hoff : off.toNat ≤ f.bytes.length) (hend : off.toNat + m ≤ 140 * 512)
    (h : Stored sb (Function.update fs inum (some (f.write (src.take m) off.toNat))) inum (f.write (src.take m) off.toNat)
      (off + .ofNat m) (src.drop m) r) : Stored sb fs inum f off src r := by
  have hmoved : (off + UInt32.ofNat m).toNat = off.toNat + m := toNat_add_ofNat (by omega)
  have hlength : (src.take m).length = m := List.length_take_of_le (by omega)
  have hdrop : (src.drop m).length = src.length - m := List.length_drop
  have hcount := written_turn hm hend
  have hwrite := File.write_write hoff (src.take m) ((src.drop m).take (written (off.toNat + m) (src.length - m)))
  rw [hlength, ← List.take_add, ← hcount] at hwrite
  obtain ⟨hfiles, hoff', hdone⟩ := h
  rw [hmoved, hdrop] at hfiles hoff' hdone
  rw [hwrite, Function.update_idem] at hfiles
  exact ⟨hfiles, by omega, hdone.trans (by omega)⟩

theorem Valid.filewrite (h : Valid sb s) (hidle : s.disk.outstanding = 0) {inum : Nat} (hopen : inum ∈ s.refs) {f : File}
    (hf : files sb s.disk inum = some f) (hdev : f.type ≠ tDev) {off : UInt32} (hoff : off.toNat ≤ f.bytes.length)
    (hfuel : src.length ≤ fuel) (dev : Option Nat) :
    (∃ m, Fs.filewrite sb dev inum fuel s off src = .panics m ∧
      (m = "balloc: out of blocks" ∨ (m = "too big a transaction" ∧ sb.full ≤ 10))) ∨
    ∃ r, Fs.filewrite sb dev inum fuel s off src = .next r ∧ Stored sb (files sb s.disk) inum f off src r := by
  induction fuel generalizing s f off src with
  | zero =>
    obtain rfl : src = [] := List.length_eq_zero_iff.mp (by omega)
    exact .inr ⟨_, rfl, .nothing h hf hoff⟩
  | succ fuel ih =>
    rw [Fs.filewrite]
    by_cases hn : src.length = 0
    · rw [if_pos hn]
      obtain rfl := List.length_eq_zero_iff.mp hn
      exact .inr ⟨_, rfl, .nothing h hf hoff⟩
    · rw [if_neg hn]
      have hmax : filewriteMax = 1536 := rfl
      generalize hm : min src.length filewriteMax = m
      have hlength : (src.take m).length = m := List.length_take_of_le (by omega)
      obtain ⟨s₁, hbegin, hvalid₁, hfiles₁, hrefs₁, hout₁, hempty₁⟩ := h.beginOp_idle hidle
      have hturn := hvalid₁.fill hout₁ hempty₁ (hrefs₁ ▸ hopen) (hfiles₁ ▸ hf) hdev hoff
        (by omega : (src.take m).length ≤ filewriteMax) dev
      rw [hbegin]
      dsimp only [Turn.bind_next]
      rcases hturn.exists_or with ⟨r, hr, hvalid, hout, hrefs, hvalue, hfiles⟩ | ⟨msg, herror, hmsg⟩
      · rw [hr]
        dsimp only [Turn.ofExcept_ok, Turn.bind_next]
        rw [hlength] at hvalue hfiles
        rw [hfiles₁, ← endOp_files sb r.1] at hfiles
        obtain ⟨hidle', hrefs'⟩ := endOp_last hout
        by_cases hend : off.toNat + m ≤ 140 * 512
        · rw [if_pos hend] at hvalue hfiles
          rw [hvalue]
          dsimp only
          rw [if_neg (not_not.mpr rfl)]
          have hf₁ : files sb r.1.endOp.disk inum = some (f.write (src.take m) off.toNat) := by
            rw [hfiles, Function.update_self]
          have hoff₁ : (off + UInt32.ofNat m).toNat ≤ (f.write (src.take m) off.toNat).bytes.length := by
            have hgrown := File.length_write hoff (src.take m)
            rw [toNat_add_ofNat (by omega)]
            omega
          have hmore : (src.drop m).length ≤ fuel := by
            rw [List.length_drop]
            omega
          have hopen' : inum ∈ r.1.endOp.refs := by
            rw [hrefs', hrefs, hrefs₁]
            exact hopen
          refine (ih hvalid.endOp hidle' hopen' hf₁ hdev hoff₁ hmore).imp_right fun hrest => ?_
          obtain ⟨r', hr', hstored⟩ := hrest
          rw [hfiles] at hstored
          exact ⟨r', hr', hstored.turn hm.symm hoff hend⟩
        · -- `writei` returns -1
          rw [if_neg hend] at hvalue hfiles
          rw [hvalue]
          exact .inr ⟨_, rfl, .refused (by omega) hfiles⟩
      · rw [herror]
        exact .inl ⟨msg, rfl, hmsg⟩

end CompilingToAssembly.Xv6.Fs
