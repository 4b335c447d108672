import CompilingToAssembly.Xv6.Filewrite
import CompilingToAssembly.Xv6.Reservation

/-! The file system on its log.

`fs.c` works on the blocks that `bread` finds and on the list of logged blocks. `log.c` makes
these up from the disk, the log on it and the buffers, while processes enter and leave system
calls and commits are under way (`Carries`). Every `log_write` of an operation is a step of the
log, and so every run of the file system is a run of the log (`fs_runs_on_log`). Where the bit map
has one block, a write of `filewrite` brings so few blocks to the log that it has room for
them, in every order of system calls that log at most nine blocks each (`write_has_room`). -/
namespace CompilingToAssembly.Xv6.Fs
open Library

/-- The 512 bytes of a block, as 128 words. -/
def words (data : Block) : Log.Block := fun i => .ofNat (readLe data (4 * i) 4)

variable {P : Type} {sb : Superblock} {L L' : Log.State P} {d d' : Disk} {s s' : State} {bs cs own : List Nat} {p : P}
  {k : Nat}

/-- The log shows the blocks of the disk `d`, and no commit is under way. -/
structure Carries (sb : Superblock) (L : Log.State P) (d : Disk) : Prop where
  logged : L.lh = d.logged
  outstanding : L.outstanding = d.outstanding
  todo : L.todo = []
  view : ∀ b, Log.Home sb.toSuperblock b → L.view b = words (d.block b)

/-! ### `log_write` -/

section LogWrite
variable [DecidableEq P]

theorem Carries.logWrite {b : Nat} {data : Block} (h : Carries sb L d) (p : P) (hwrite : d.logWrite sb b data = .ok d') :
    ∃ L', Log.step sb.toSuperblock L (.logWrite p b (words data)) = .next L' ∧ Carries sb L' d' ∧
      L'.ops = Function.update L.ops p ((L.ops p).map (Log.absorb · b)) := by
  obtain ⟨rfl, hroom, hout⟩ := logWrite_eq_ok hwrite
  rw [← h.logged] at hroom
  rw [← h.outstanding] at hout
  refine ⟨_, Log.step_logWrite _ hroom hout, ⟨?_, h.outstanding, h.todo, fun c hc => ?_⟩, rfl⟩
  · exact congrArg (Log.absorb · b) h.logged
  · by_cases hcb : c = b
    · subst hcb
      simp [Log.State.view, Disk.note]
    · have hview := h.view c hc
      simp only [Log.State.view, Disk.note, Function.update_of_ne hcb] at hview ⊢
      exact hview

theorem Carries.refuses {b : Nat} {data : Block} {m : String} (h : Carries sb L d) (p : P)
    (hwrite : d.logWrite sb b data = .error m) :
    Log.step sb.toSuperblock L (.logWrite p b (words data)) = .panics m := by
  rw [Disk.logWrite, ← h.logged, ← h.outstanding] at hwrite
  rw [Log.step]
  cases hlh : Log.logWrite sb.toSuperblock L.outstanding L.lh b with
  | ok lh =>
    rw [hlh] at hwrite
    cases hwrite
  | error m' =>
    rw [hlh] at hwrite
    cases hwrite
    rfl

/-- The calls of `log_write` in an operation, as a run of the log. -/
theorem Carries.logs (h : Carries sb L d) (hlogs : Logs sb bs d d') (hp : (L.ops p).isSome) :
    ∃ es L', Runs (Log.step sb.toSuperblock) (Log.Orderly sb.toSuperblock) L es L' ∧
      (∀ e ∈ es, ∃ b data, b ∈ bs ∧ e = .logWrite p b data) ∧ Carries sb L' d' ∧ (L'.ops p).isSome := by
  induction hlogs with
  | refl => exact ⟨[], L, .nil, (fun e he => by cases he), h, hp⟩
  | tail _ hlast ih =>
    obtain ⟨es, L₁, hrun, hes, hcarries, hp₁⟩ := ih
    obtain ⟨b, hb, hhome, data, hwrite⟩ := hlast
    obtain ⟨L₂, hstep, hcarries₂, hops⟩ := hcarries.logWrite p hwrite
    have horderly : Log.Orderly sb.toSuperblock L₁ (.logWrite p b (words data)) := ⟨hp₁, hhome⟩
    refine ⟨es ++ [.logWrite p b (words data)], L₂, hrun.append (.one horderly hstep), fun e he => ?_, hcarries₂, ?_⟩
    · rcases List.mem_append.mp he with hin | hlast
      · exact hes e hin
      · exact ⟨b, words data, hb, List.mem_singleton.mp hlast⟩
    · rw [hops, Function.update_self, Option.isSome_map]
      exact hp₁

omit [DecidableEq P] in
theorem absorb_within {b : Nat} (hown : own.Nodup) (hin : own ⊆ cs) (hb : b ∈ cs) :
    (Log.absorb own b).Nodup ∧ Log.absorb own b ⊆ cs := by
  by_cases hmem : b ∈ own
  · rw [Log.absorb_of_mem hmem]
    exact ⟨hown, hin⟩
  · rw [Log.absorb_of_notMem hmem]
    exact ⟨hown.append (List.nodup_singleton b) (by simpa using hmem), List.append_subset.mpr ⟨hin, by simpa using hb⟩⟩

omit [DecidableEq P] in
theorem frugal_within {b : Nat} (hlen : cs.length ≤ k) (hp : L.ops p = some own) (hown : own.Nodup) (hin : own ⊆ cs)
    (hb : b ∈ cs) (hhome : Log.Home sb.toSuperblock b) (data : Log.Block) :
    Log.Frugal k sb.toSuperblock L (.logWrite p b data) := by
  obtain ⟨hnodup, hsub⟩ := absorb_within hown hin hb
  refine ⟨⟨by rw [hp]; rfl, hhome⟩, fun p' b' data' heq own' hown' => ?_⟩
  cases heq
  rw [hp] at hown'
  cases hown'
  exact (List.subperm_of_subset hnodup hsub).length_le.trans hlen

/-- A system call that logs blocks of `cs` only keeps to as many. -/
theorem frugal_of_logWrites {es : List (Log.Event P)} (hsub : bs ⊆ cs) (hlen : cs.length ≤ k)
    (hrun : Runs (Log.step sb.toSuperblock) (Log.Orderly sb.toSuperblock) L es L')
    (hes : ∀ e ∈ es, ∃ b data, b ∈ bs ∧ e = .logWrite p b data) (hp : L.ops p = some own) (hown : own.Nodup)
    (hin : own ⊆ cs) :
    Runs (Log.step sb.toSuperblock) (Log.Frugal k sb.toSuperblock) L es L' ∧
      ∃ own', L'.ops p = some own' ∧ own'.Nodup ∧ own' ⊆ cs := by
  induction hrun generalizing own with
  | nil => exact ⟨.nil, own, hp, hown, hin⟩
  | @cons L L₁ L' e es ha hn _ ih =>
    obtain ⟨b, data, hb, rfl⟩ := hes _ List.mem_cons_self
    obtain ⟨hnodup, hwithin⟩ := absorb_within hown hin (hsub hb)
    have hnext : L₁.ops p = some (Log.absorb own b) := by
      rw [(Log.of_step_logWrite hn).1]
      dsimp only
      rw [Function.update_self, hp, Option.map_some]
    obtain ⟨hrest, hend⟩ := ih (fun e he => hes e (List.mem_cons_of_mem _ he)) hnext hnodup hwithin
    exact ⟨.cons (frugal_within hlen hp hown hin (hsub hb) ha.2 data) hn hrest, hend⟩

end LogWrite

/-! ### Room for a write -/

/-- Where the bit map has one block. -/
theorem Writes.few_of_bitmap {off : UInt32} {f : File} {src : List UInt8} (hsize : sb.size < 4096)
    (hsrc : src.length ≤ filewriteMax)
    (h : Writes sb (needed f.bytes.length (off.toNat + src.length)) (turns off.toNat src.length) bs) :
    ∃ cs, bs ⊆ cs ∧ cs.length ≤ 7 := by
  obtain ⟨as, own, inum, hone, hspan, rfl⟩ := h
  obtain ⟨all, hsub, hle⟩ := hspan.exists_length_le_bitmap
  have hturns := turns_le off.toNat hsrc
  have hbitmap : (bitmap sb).length = 1 := by
    rw [length_bitmap]
    omega
  refine ⟨all ++ [iblock sb inum], List.append_subset.mpr ⟨fun c hc => ?_, List.subset_append_right ..⟩, ?_⟩
  · exact List.mem_append_left _ (hsub hc)
  · rw [List.length_append, List.length_singleton]
    omega

section Room
variable [Fintype P] [DecidableEq P]

/-- While all system calls keep to `k` blocks and that many fit, an operation of as many blocks
is not stopped by `log_write`. -/
theorem Carries.not_refuses {m : String} {disk : Nat → Log.Block} {es : List (Log.Event P)} (hk : k ≤ Log.maxOpBlocks)
    (hlog : Log.peak k < sb.full) (hdisk : Log.takeHead (disk sb.logstart) = [])
    (hrun : Runs (Log.step sb.toSuperblock) (Log.Frugal k sb.toSuperblock) (Log.boot disk) es L)
    (h : Carries sb L d) (hp : L.ops p = some []) (hsub : bs ⊆ cs) (hlen : cs.length ≤ k) : ¬ Refuses sb bs d m := by
  intro hrefuses
  obtain ⟨d', b, data, hlogs, hb, hhome, hwrite⟩ := hrefuses
  obtain ⟨es', L', hrun', hes, hcarries, _⟩ := h.logs hlogs (p := p) (by rw [hp]; rfl)
  obtain ⟨hfrugal, own, hown, hnodup, hin⟩ := frugal_of_logWrites hsub hlen hrun' hes hp List.nodup_nil
    (List.nil_subset _)
  obtain ⟨t, hvalid, hreserved⟩ := Log.reserved_of_runs hk hdisk (hrun.append hfrugal)
  have hlast := frugal_within hlen hown hnodup hin (hsub hb) hhome (words data)
  exact Log.no_panic hlog hvalid hreserved hlast m (hcarries.refuses p hwrite)

/-- **A write of `filewrite` has room in the log**, where the bit map has one block, the log is as
large as system calls of `k` blocks need it and no other system call logs more: in a system
call that has logged nothing `writei` returns, and is a run of the log, or the disk is full. -/
theorem write_has_room {disk : Nat → Log.Block} {les : List (Log.Event P)} {es : List Event} (hsize : sb.size < 4096)
    (hseven : 7 ≤ k) (hk : k ≤ Log.maxOpBlocks) (hlog : Log.peak k < sb.full)
    (hdisk : Log.takeHead (disk sb.logstart) = [])
    (hlogrun : Runs (Log.step sb.toSuperblock) (Log.Frugal k sb.toSuperblock) (Log.boot disk) les L)
    (hp : L.ops p = some []) (hmeta : sb.nmeta ≤ 4096) (hrun : Runs (step sb) (Orderly sb) (formatted sb) es s)
    (h : Carries sb L s.disk) {inum : Nat} {ip : Inode} (hcached : s.cache inum = some ip) {src : List UInt8}
    (hsrc : src.length ≤ filewriteMax) (off : UInt32) (dev : Option Nat) :
    Ends
      (fun r : Done (Option Nat) => ∃ les' L', Runs (Log.step sb.toSuperblock) (Log.Frugal k sb.toSuperblock) L les' L' ∧
        (∀ e ∈ les', ∃ b data, e = .logWrite p b data) ∧ Carries sb L' r.disk)
      (fun m => m = "balloc: out of blocks")
      (writei sb dev s.disk inum ip src off) := by
  have hmax : filewriteMax = 1536 := rfl
  have hvalid := valid_of_runs hmeta hrun
  have hf := hvalid.files_cached hcached
  rcases hvalid.writei_cases hcached hf (by omega : src.length < 2 ^ 32) off dev with ⟨_, hok⟩ | ⟨_, hends⟩
  · rw [hok]
    exact .ok ⟨[], L, .nil, (fun e he => by cases he), h⟩
  · refine hends.mono (fun r hr => ?_) fun m hm => ?_
    · obtain ⟨_, _, _, _, bs, hwrites, hlogs⟩ := hr
      obtain ⟨cs, hsub, hle⟩ := hwrites.few_of_bitmap hsize hsrc
      obtain ⟨les', L', hrun', hes, hcarries, _⟩ := h.logs hlogs (p := p) (by rw [hp]; rfl)
      refine ⟨les', L', ?_, fun e he => ?_, hcarries⟩
      · exact (frugal_of_logWrites hsub (hle.trans hseven) hrun' hes hp List.nodup_nil (List.nil_subset _)).1
      · obtain ⟨b, data, _, heq⟩ := hes e he
        exact ⟨b, data, heq⟩
    · rcases hm with ⟨bs, hwrites, hrefuses⟩ | ⟨rfl, _⟩
      · obtain ⟨cs, hsub, hle⟩ := hwrites.few_of_bitmap hsize hsrc
        exact absurd hrefuses (h.not_refuses hk hlog hdisk hlogrun hp hsub (hle.trans hseven))
      · rfl

example : tiny.size < 4096 ∧ 9 ≤ Log.maxOpBlocks ∧ Log.peak 9 < tiny.full := by decide

end Room

/-! ### Runs -/

section Runs
variable [Fintype P] {t : Log.Store}

theorem exists_idle (h : Log.Valid sb.toSuperblock L t) (hP : L.outstanding < Fintype.card P) : ∃ p, L.ops p = none := by
  by_contra hall
  have hone : ∀ p, ((L.ops p).map fun _ => 1).getD 0 = 1 := by
    intro p
    obtain ⟨own, hown⟩ := Option.ne_none_iff_exists'.mp fun hnone => hall ⟨p, hnone⟩
    rw [hown]
    rfl
  have hcard : Log.inProgress L = Fintype.card P := by
    simp [Log.inProgress, hone]
  have hcounted := h.counted
  omega

theorem exists_busy (h : Log.Valid sb.toSuperblock L t) (hout : 0 < L.outstanding) : ∃ p, (L.ops p).isSome := by
  by_contra hall
  have hzero : ∀ p, ((L.ops p).map fun _ => 1).getD 0 = 0 := by
    intro p
    cases hown : L.ops p with
    | none => rfl
    | some own => exact absurd ⟨p, by rw [hown]; rfl⟩ hall
  have hnone : Log.inProgress L = 0 := by
    simp [Log.inProgress, hzero]
  have hcounted := h.counted
  omega

variable [DecidableEq P]

/-- A commit leaves what is read. -/
theorem view_of_commit {es : List (Log.Event P)} (h : Log.Valid sb.toSuperblock L t) (hcalm : L.recovering = false)
    (hrun : Runs (Log.step sb.toSuperblock) (Log.Orderly sb.toSuperblock) L es L')
    (hes : ∀ e ∈ es, e = .proceed ∨ ∃ p, e = .endOp p) {b : Nat} (hb : Log.Home sb.toSuperblock b) :
    L'.view b = L.view b := by
  have hinv : ∃ t', Log.Valid sb.toSuperblock L' t' ∧ t'.volatile = t.volatile ∧ L'.recovering = false := by
    refine hrun.invariant (P := fun L => ∃ t', Log.Valid sb.toSuperblock L t' ∧ t'.volatile = t.volatile ∧
      L.recovering = false) ?_ ⟨t, h, rfl, hcalm⟩
    intro L₁ e L₂ he hL₁ ha hn
    obtain ⟨t', ht', hvolatile, hcalm'⟩ := hL₁
    have hcrash : e ≠ .crash := by
      rcases hes e he with rfl | ⟨p, rfl⟩ <;> simp
    refine ⟨_, Log.valid_step ht' ha hn, ?_, Log.step_recovering hcrash hn hcalm'⟩
    rw [Log.follow_volatile hcrash, ← hvolatile]
    rcases hes e he with rfl | ⟨p, rfl⟩ <;> rfl
  obtain ⟨t', ht', hvolatile, hcalm'⟩ := hinv
  rw [ht'.reads hcalm' b hb, hvolatile, h.reads hcalm b hb]

/-- From one state of the log to one that carries `d`, without a crash. -/
def Leads (sb : Superblock) (L : Log.State P) (d : Disk) : Prop :=
  ∃ es L', Runs (Log.step sb.toSuperblock) (Log.Orderly sb.toSuperblock) L es L' ∧ .crash ∉ es ∧ Carries sb L' d

theorem Carries.beginOp (hP : 2 < Fintype.card P) (h : Carries sb L s.disk) (hL : Log.Valid sb.toSuperblock L t)
    (hnext : s.beginOp = .next s') : Leads sb L s'.disk := by
  unfold State.beginOp at hnext
  split_ifs at hnext with hspace
  cases hnext
  rw [← h.logged, ← h.outstanding, not_lt] at hspace
  have hfew : L.outstanding < Fintype.card P := by
    simp only [Log.maxOpBlocks, Log.logSize] at hspace
    omega
  have hrunning := hL.stage.running_of_todo h.todo
  obtain ⟨p, hp⟩ := exists_idle hL hfew
  have horderly : Log.Orderly sb.toSuperblock L (.beginOp p) := hp
  refine ⟨[.beginOp p], _, .one horderly (Log.step_beginOp p hrunning.recovering hrunning.committing hspace), by simp, ?_⟩
  exact ⟨h.logged, congrArg (· + 1) h.outstanding, h.todo, h.view⟩

theorem readHead_notMem_commit (n : Nat) : Log.Action.readHead ∉ Log.commit n := by
  unfold Log.commit Log.writeLog Log.installTrans
  split_ifs <;> simp

omit [Fintype P] in
theorem step_endOp_last (sb : Superblock) (p : P) (hc : L.committing = false) (hlast : L.outstanding - 1 = 0) :
    ∃ L', Log.step sb.toSuperblock L (.endOp p) = .next L' ∧ L'.todo = Log.commit L.lh.length ∧
      L'.outstanding = L.outstanding - 1 := by
  refine ⟨{ L with
    outstanding := L.outstanding - 1
    ops := Function.update L.ops p none
    committing := true
    todo := Log.commit L.lh.length }, ?_, rfl, rfl⟩
  simp only [Log.step, hc, Bool.false_eq_true, if_false, if_pos hlast]

/-- The last system call to end commits, which comes to an end. -/
theorem Carries.endOp (h : Carries sb L s.disk) (hL : Log.Valid sb.toSuperblock L t) (hout : 0 < s.disk.outstanding) :
    Leads sb L s.endOp.disk := by
  have hrunning := hL.stage.running_of_todo h.todo
  rw [← h.outstanding] at hout
  obtain ⟨p, hp⟩ := exists_busy hL hout
  have horderly : Log.Orderly sb.toSuperblock L (.endOp p) := hp
  unfold State.endOp
  rw [← h.outstanding]
  by_cases hlast : L.outstanding - 1 = 0
  · rw [if_pos hlast]
    obtain ⟨L₁, hstep, htodo₁, hout₁⟩ := step_endOp_last sb p hrunning.committing hlast
    obtain ⟨L', hrun, htodo, hout'⟩ := Log.proceeds sb.toSuperblock L₁ (htodo₁ ▸ readHead_notMem_commit L.lh.length)
    rw [hout₁] at hout'
    have hall := (Runs.one horderly hstep).append hrun
    obtain ⟨t', ht'⟩ := hL.run hall
    have hend := (ht'.stage.running_of_todo htodo).idle (hout'.trans hlast)
    refine ⟨_, L', hall, by simp, hend, hout', htodo, fun b hb => ?_⟩
    refine (view_of_commit hL hrunning.recovering hall (fun e he => ?_) hb).trans (h.view b hb)
    rcases List.mem_append.mp he with hfirst | hrest
    · exact .inr ⟨p, List.mem_singleton.mp hfirst⟩
    · exact .inl (List.eq_of_mem_replicate hrest)
  · rw [if_neg hlast]
    exact ⟨[.endOp p], _, .one horderly (Log.step_endOp p hrunning.committing hlast), by simp, h.logged, rfl, h.todo, h.view⟩

/-- Outside of a system call nothing changes. -/
theorem Logs.outside (h : Logs sb bs d d') (hout : d.outstanding = 0) : d' = d := by
  induction h with
  | refl => rfl
  | tail _ hlast ih =>
    obtain ⟨b, _, _, data, hwrite⟩ := hlast
    rw [ih] at hwrite
    obtain ⟨_, _, hpos⟩ := logWrite_eq_ok hwrite
    omega

theorem Carries.next {e : Event} (hP : 2 < Fintype.card P) (hs : Valid sb s) (h : Carries sb L s.disk)
    (hL : Log.Valid sb.toSuperblock L t) (ha : Orderly sb s e) (hn : step sb s e = .next s') : Leads sb L s'.disk := by
  obtain ⟨_, _, rfl | rfl | ⟨bs, hlogs⟩⟩ := hs.next ha hn
  · exact h.beginOp hP hL hn
  · cases hn
    exact h.endOp hL ha
  · rcases Nat.eq_zero_or_pos s.disk.outstanding with hout | hout
    · rw [hlogs.outside hout]
      exact ⟨[], L, .nil, by simp, h⟩
    · obtain ⟨p, hp⟩ := exists_busy hL (by rw [h.outstanding]; exact hout)
      obtain ⟨es, L', hrun, hes, hcarries, _⟩ := h.logs hlogs hp
      refine ⟨es, L', hrun, fun hcrash => ?_, hcarries⟩
      obtain ⟨b, data, _, heq⟩ := hes _ hcrash
      cases heq

theorem Carries.run {es : List Event} (hP : 2 < Fintype.card P) (hs : Valid sb s) (h : Carries sb L s.disk)
    (hL : Log.Valid sb.toSuperblock L t) (hrun : Runs (step sb) (Orderly sb) s es s') : Leads sb L s'.disk := by
  induction hrun generalizing L t with
  | nil => exact ⟨[], L, .nil, by simp, h⟩
  | cons ha hn _ ih =>
    obtain ⟨les, L₁, hrun₁, hcrash₁, hcarries₁⟩ := h.next hP hs hL ha hn
    obtain ⟨t₁, ht₁⟩ := hL.run hrun₁
    obtain ⟨les', L₂, hrun₂, hcrash₂, hcarries₂⟩ := ih (hs.next ha hn).1 hcarries₁ ht₁
    refine ⟨les ++ les', L₂, hrun₁.append hrun₂, fun hcrash => ?_, hcarries₂⟩
    exact (List.mem_append.mp hcrash).elim hcrash₁ hcrash₂

theorem words_zero : words (fun _ => 0) = fun _ => 0 := by
  funext i
  rw [words, readLe_zero]
  rfl

theorem takeHead_formatted (sb : Superblock) : Log.takeHead (words ((formatted sb).disk.block sb.logstart)) = [] := by
  have hne : sb.logstart ≠ sb.bmapstart := by
    have hlog := sb.log_below
    have hinodes := sb.inodes_below
    omega
  rw [formatted]
  dsimp only
  rw [Function.update_of_ne hne, words_zero]
  exact Log.takeHead_zero

/-- **The file system runs on the log**: whatever it does from a disk that `mkfs` has made, the log
does by `begin_op`, `log_write`, `end_op` and its commits, from the same disk, and then shows the
same blocks. As many as three processes are in a system call at a time. -/
theorem fs_runs_on_log {es : List Event} (hP : 2 < Fintype.card P) (h : sb.nmeta ≤ 4096)
    (hrun : Runs (step sb) (Orderly sb) (formatted sb) es s) :
    ∃ les, ∃ L : Log.State P, Runs (Log.step sb.toSuperblock) (Log.Orderly sb.toSuperblock)
      (Log.boot fun b => words ((formatted sb).disk.block b)) les L ∧ .crash ∉ les ∧ Carries sb L s.disk := by
  have hboot : Log.Valid sb.toSuperblock (Log.boot (P := P) fun b => words ((formatted sb).disk.block b)) _ :=
    Log.valid_boot (takeHead_formatted sb)
  obtain ⟨L₀, hrun₀, ⟨t, ht⟩, hcalm, htodo, hout⟩ := Log.boot_completes hboot
  have hstays := hboot.stays hrun₀ fun e he p b data heq => by simp [heq] at he
  have hcarries : Carries sb L₀ (formatted sb).disk :=
    ⟨(ht.stage.running_of_todo htodo).idle hout, hout, htodo, hstays.reads hcalm⟩
  obtain ⟨les, L, hrunL, hcrash, hend⟩ := hcarries.run hP (formatted_valid h) ht hrun
  refine ⟨_, L, hrun₀.append hrunL, fun hmem => ?_, hend⟩
  rcases List.mem_append.mp hmem with hfirst | hrest
  · exact absurd (List.eq_of_mem_replicate hfirst) (by simp)
  · exact hcrash hrest

/-- What was written before the last system call ended survives a crash, also one during recovery. -/
theorem Carries.survives {rs : List (Log.Event P)} (h : Carries sb L d) (hL : Log.Reachable sb.toSuperblock L)
    (hout : d.outstanding = 0)
    (hrec : Runs (Log.step sb.toSuperblock) (Log.Orderly sb.toSuperblock) L (.crash :: rs) L')
    (hrs : ∀ e ∈ rs, ∀ p b data, e ≠ .logWrite p b data) (hback : L'.recovering = false) {b : Nat}
    (hb : Log.Home sb.toSuperblock b) : L'.view b = words (d.block b) := by
  obtain ⟨t, hL⟩ := hL.valid
  have hquiet : Log.Quiet L := ⟨h.todo, h.outstanding.trans hout⟩
  have hcalm := (hL.stage.running_of_todo h.todo).recovering
  cases hrec with
  | cons _ hstep hrec =>
    cases hstep
    have hvalid := hL.crash.stays hrec hrs
    rw [hvalid.reads hback b hb, ← h.view b hb, hL.reads hcalm b hb]
    exact (hL.settled hquiet hb).symm

end Runs

end CompilingToAssembly.Xv6.Fs
