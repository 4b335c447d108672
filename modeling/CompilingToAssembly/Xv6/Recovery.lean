import CompilingToAssembly.Xv6.Log

/-! The log over whole runs.

What the log is for is a `Store`: system calls change its volatile contents, a commit
makes them the durable ones, a crash goes back to those. Every run of the kernel follows
a store (`Valid`, `valid_step`): the disk always says the durable contents, which are its
home blocks with the blocks of the log over them (`Recoverable`), and the buffers say the
volatile ones. -/
namespace CompilingToAssembly.Xv6.Log
open Library

structure Store where
  durable : Nat → Block
  volatile : Nat → Block

variable {P : Type} {sb : Superblock}

/-! ### Buffers -/

@[simp] theorem view_bread (s : State P) (b c : Nat) : (s.bread b).view c = s.view c := by
  by_cases h : c = b
  · subst h
    cases hc : s.cache c <;> simp [State.view, State.bread, hc]
  · simp [State.view, State.bread, h]

theorem view_bwrite (s : State P) (b : Nat) (data : Block) (c : Nat) :
    (s.bwrite b data).view c = if c = b then data else s.view c := by
  by_cases h : c = b <;> simp [State.view, State.bwrite, h]

@[simp] theorem bread_disk (s : State P) (b : Nat) : (s.bread b).disk = s.disk := rfl
@[simp] theorem bread_lh (s : State P) (b : Nat) : (s.bread b).lh = s.lh := rfl
@[simp] theorem bread_todo (s : State P) (b : Nat) : (s.bread b).todo = s.todo := rfl
@[simp] theorem bwrite_lh (s : State P) (b : Nat) (data : Block) : (s.bwrite b data).lh = s.lh := rfl
@[simp] theorem bwrite_todo (s : State P) (b : Nat) (data : Block) : (s.bwrite b data).todo = s.todo := rfl

theorem bwrite_disk (s : State P) (b : Nat) (data : Block) (c : Nat) :
    (s.bwrite b data).disk c = if c = b then data else s.disk c := by
  by_cases h : c = b <;> simp [State.bwrite, h]

/-- A clean buffer is what the disk has, and a dirty one is `waiting` to be written. -/
def Cached (s : State P) (waiting : List Nat) : Prop :=
  ∀ b buf, s.cache b = some buf →
    (buf.dirty = false → buf.data = s.disk b) ∧ (buf.dirty = true → b ∈ waiting)

theorem Cached.view_eq {s : State P} {waiting : List Nat} (h : Cached s waiting) {b : Nat}
    (hb : b ∉ waiting) : s.view b = s.disk b := by
  unfold State.view
  cases hc : s.cache b with
  | none => rfl
  | some buf =>
    obtain ⟨hclean, hdirty⟩ := h b buf hc
    exact hclean (Bool.eq_false_iff.mpr fun hd => hb (hdirty hd))

theorem Cached.bread {s : State P} {waiting : List Nat} (h : Cached s waiting) (b : Nat) :
    Cached (s.bread b) waiting := by
  intro c buf hc
  by_cases hcb : c = b
  · subst hcb
    simp only [State.bread, Function.update_self, Option.some.injEq] at hc
    subst hc
    cases ho : s.cache c with
    | none => exact ⟨fun _ => rfl, fun hd => absurd hd Bool.false_ne_true⟩
    | some old => exact h c old ho
  · simp only [State.bread, Function.update_of_ne hcb] at hc
    exact h c buf hc

/-- A buffer that is written need not wait any longer. -/
theorem Cached.bwrite {s : State P} {waiting waiting' : List Nat} (h : Cached s waiting) (b : Nat)
    (data : Block) (hless : ∀ c ∈ waiting, c ≠ b → c ∈ waiting') : Cached (s.bwrite b data) waiting' := by
  intro c buf hc
  by_cases hcb : c = b
  · subst hcb
    simp only [State.bwrite, Function.update_self, Option.some.injEq] at hc
    subst hc
    exact ⟨fun _ => by simp [State.bwrite], fun hd => absurd hd Bool.false_ne_true⟩
  · simp only [State.bwrite, Function.update_of_ne hcb] at hc ⊢
    exact ⟨(h c buf hc).1, fun hd => hless c ((h c buf hc).2 hd) hcb⟩

/-! ### What the disk says -/

/-- Blocks that a header may name. -/
structure Loggable (sb : Superblock) (bs : List Nat) : Prop where
  nodup : bs.Nodup
  homes : ∀ b ∈ bs, Home sb b
  room : bs.length ≤ logSize
  fits : bs.length ≤ sb.nlog - 1

theorem Loggable.nil : Loggable sb [] := ⟨List.nodup_nil, nofun, Nat.zero_le _, Nat.zero_le _⟩

/-- With the blocks of the log over the home blocks, the disk says `d`. -/
structure Recoverable (sb : Superblock) (disk : Nat → Block) (d : Nat → Block) : Prop where
  head : Loggable sb (takeHead (disk sb.logstart))
  slots : ∀ i b, (takeHead (disk sb.logstart))[i]? = some b → disk (slot sb i) = d b
  rest : ∀ b, Home sb b → b ∉ takeHead (disk sb.logstart) → disk b = d b

theorem Loggable.slot_ne {bs : List Nat} (h : Loggable sb bs) {i b : Nat} (hi : i < bs.length)
    (hb : Home sb b) : slot sb i ≠ b := by
  have hfits := h.fits
  unfold slot
  rcases hb.2 with hlow | hhigh <;> omega

theorem slot_ne_start (i : Nat) : slot sb i ≠ sb.logstart := by
  unfold slot
  omega

theorem start_ne {b : Nat} (hb : Home sb b) : b ≠ sb.logstart := by
  have hpos := sb.nlog_pos
  rcases hb.2 with hlow | hhigh <;> omega

theorem Recoverable.home_eq {disk d : Nat → Block} (h : Recoverable sb disk d)
    (hhead : takeHead (disk sb.logstart) = []) {b : Nat} (hb : Home sb b) : disk b = d b :=
  h.rest b hb (by rw [hhead]; exact List.not_mem_nil)

/-- A write to a block that neither is a home block nor belongs to the log that is there. -/
theorem Recoverable.write_slot {disk d : Nat → Block} (h : Recoverable sb disk d)
    (hhead : takeHead (disk sb.logstart) = []) (i : Nat) {bs : List Nat} (hbs : Loggable sb bs)
    (hi : i < bs.length) (data : Block) : Recoverable sb (Function.update disk (slot sb i) data) d := by
  have hstart : Function.update disk (slot sb i) data sb.logstart = disk sb.logstart :=
    Function.update_of_ne (slot_ne_start i).symm _ _
  refine ⟨by rw [hstart]; exact h.head, ?_, ?_⟩ <;> rw [hstart, hhead]
  · intro j b hj
    simp at hj
  · intro b hb _
    rw [Function.update_of_ne (hbs.slot_ne hi hb).symm]
    exact h.home_eq hhead hb

/-- Putting a logged block in its place changes nothing of what the disk says. -/
theorem Recoverable.write_home {disk d : Nat → Block} (h : Recoverable sb disk d) {b : Nat}
    (hb : b ∈ takeHead (disk sb.logstart)) (data : Block) :
    Recoverable sb (Function.update disk b data) d := by
  have hhome := h.head.homes b hb
  have hstart : Function.update disk b data sb.logstart = disk sb.logstart :=
    Function.update_of_ne (start_ne hhome).symm _ _
  refine ⟨by rw [hstart]; exact h.head, ?_, ?_⟩ <;> rw [hstart]
  · intro i c hi
    obtain ⟨hlt, _⟩ := List.getElem?_eq_some_iff.mp hi
    rw [Function.update_of_ne (h.head.slot_ne hlt hhome)]
    exact h.slots i c hi
  · intro c hc hnot
    rw [Function.update_of_ne (fun heq : c = b => hnot (heq ▸ hb))]
    exact h.rest c hc hnot

/-- The header decides: with another header the disk says what the blocks it names say. -/
theorem Recoverable.write_head {disk d : Nat → Block} {bs : List Nat} (hbs : Loggable sb bs) (hb : Block)
    (hslots : ∀ i b, bs[i]? = some b → disk (slot sb i) = d b)
    (hrest : ∀ b, Home sb b → b ∉ bs → disk b = d b) :
    takeHead (Function.update disk sb.logstart (fillHead bs hb) sb.logstart) = bs ∧
      Recoverable sb (Function.update disk sb.logstart (fillHead bs hb)) d := by
  have hhead : takeHead (Function.update disk sb.logstart (fillHead bs hb) sb.logstart) = bs := by
    rw [Function.update_self]
    exact takeHead_fillHead hb hbs.room fun b hb => lt_of_lt_of_le (hbs.homes b hb).1 sb.size_le
  refine ⟨hhead, by rw [hhead]; exact hbs, ?_, ?_⟩ <;> rw [hhead]
  · intro i b hi
    rw [Function.update_of_ne (slot_ne_start i)]
    exact hslots i b hi
  · intro b hb hnot
    rw [Function.update_of_ne (start_ne hb)]
    exact hrest b hb hnot

/-! ### The stages of a commit and of a recovery -/

/-- No commit and no recovery is under way. -/
structure Running (sb : Superblock) (s : State P) : Prop where
  todo : s.todo = []
  committing : s.committing = false
  recovering : s.recovering = false
  head : takeHead (s.disk sb.logstart) = []
  cached : Cached s s.lh
  idle : s.outstanding = 0 → s.lh = []

/-- A process has the log to itself. -/
def Alone (s : State P) : Prop := s.outstanding = 0 ∧ (s.committing = true ∨ s.recovering = true)

/-- `write_log` has copied `k` blocks. -/
structure Copying (sb : Superblock) (s : State P) (t : Store) (k : Nat) : Prop where
  alone : Alone s
  recovering : s.recovering = false
  todo : s.todo = (writeLog s.lh.length).drop k ++ .writeHead :: recover s.lh.length
  nonempty : s.lh ≠ []
  head : takeHead (s.disk sb.logstart) = []
  cached : Cached s s.lh
  copied : ∀ i b, i < k → s.lh[i]? = some b → s.disk (slot sb i) = t.volatile b

/-- `install_trans` has put `k` blocks in place. -/
structure Installing (sb : Superblock) (s : State P) (t : Store) (k : Nat) : Prop where
  alone : Alone s
  todo : s.todo = (installTrans s.lh.length).drop k ++ [.clear, .writeHead, .done]
  head : takeHead (s.disk sb.logstart) = s.lh
  cached : Cached s (s.lh.drop k)
  installed : ∀ b ∈ s.lh.take k, s.disk b = t.durable b
  settled : ∀ b, Home sb b → t.volatile b = t.durable b

/-- The header in memory is erased, that on the disk is not. -/
structure Erasing (sb : Superblock) (s : State P) (t : Store) : Prop where
  alone : Alone s
  todo : s.todo = [.writeHead, .done]
  lh : s.lh = []
  cached : Cached s []
  installed : ∀ b, Home sb b → s.disk b = t.durable b
  settled : ∀ b, Home sb b → t.volatile b = t.durable b

/-- All is written. -/
structure Closing (sb : Superblock) (s : State P) (t : Store) : Prop where
  alone : Alone s
  todo : s.todo = [.done]
  lh : s.lh = []
  head : takeHead (s.disk sb.logstart) = []
  cached : Cached s []
  settled : ∀ b, Home sb b → t.volatile b = t.durable b

structure Booting (sb : Superblock) (s : State P) (t : Store) : Prop where
  alone : Alone s
  recovering : s.recovering = true
  todo : s.todo = [.readHead]
  lh : s.lh = []
  cached : Cached s []
  settled : ∀ b, Home sb b → t.volatile b = t.durable b

inductive Stage (sb : Superblock) (s : State P) (t : Store) : Prop where
  | running (h : Running sb s)
  | copying (k : Nat) (h : Copying sb s t k)
  | installing (k : Nat) (h : Installing sb s t k)
  | erasing (h : Erasing sb s t)
  | closing (h : Closing sb s t)
  | booting (h : Booting sb s t)

/-- How many system calls are under way. -/
def inProgress [Fintype P] (s : State P) : Nat := ∑ p, ((s.ops p).map fun _ => 1).getD 0

/-- The state of the kernel follows the store `t`. -/
structure Valid [Fintype P] (sb : Superblock) (s : State P) (t : Store) : Prop where
  logged : Loggable sb s.lh
  durable : Recoverable sb s.disk t.durable
  reads : s.recovering = false → ∀ b, Home sb b → s.view b = t.volatile b
  counted : s.outstanding = inProgress s
  stage : Stage sb s t

/-- What an event does to the store. The write of a header that names blocks is the
commit. -/
def follow (s : State P) (t : Store) : Event P → Store
  | .logWrite _ b data => { t with volatile := Function.update t.volatile b data }
  | .proceed => if s.todo.head? = some .writeHead ∧ s.lh ≠ [] then { t with durable := t.volatile } else t
  | .crash => { t with volatile := t.durable }
  | _ => t

/-! ### One event at a time -/

section Steps
variable {s : State P} {t : Store}

theorem Stage.running_or_alone (h : Stage sb s t) : Running sb s ∨ Alone s := by
  cases h with
  | running h => exact .inl h
  | copying _ h => exact .inr h.alone
  | installing _ h => exact .inr h.alone
  | erasing h => exact .inr h.alone
  | closing h => exact .inr h.alone
  | booting h => exact .inr h.alone

theorem Stage.cached (h : Stage sb s t) : ∃ waiting, Cached s waiting := by
  cases h with
  | running h => exact ⟨_, h.cached⟩
  | copying _ h => exact ⟨_, h.cached⟩
  | installing _ h => exact ⟨_, h.cached⟩
  | erasing h => exact ⟨_, h.cached⟩
  | closing h => exact ⟨_, h.cached⟩
  | booting h => exact ⟨_, h.cached⟩

variable [Fintype P]

/-- Other buffers in the cache, with the same contents for those who read. -/
theorem Valid.recache (h : Valid sb s t) {cache : Nat → Option Buf}
    (hcached : ∀ waiting, Cached s waiting → Cached { s with cache := cache } waiting)
    (hview : ∀ b, State.view { s with cache := cache } b = s.view b) :
    Valid sb { s with cache := cache } t := by
  refine ⟨h.logged, h.durable, fun hr b hb => (hview b).trans (h.reads hr b hb), h.counted, ?_⟩
  cases h.stage with
  | running h => exact .running { h with cached := hcached _ h.cached }
  | copying k h => exact .copying k { h with cached := hcached _ h.cached }
  | installing k h => exact .installing k { h with cached := hcached _ h.cached }
  | erasing h => exact .erasing { h with cached := hcached _ h.cached }
  | closing h => exact .closing { h with cached := hcached _ h.cached }
  | booting h => exact .booting { h with cached := hcached _ h.cached }

theorem Valid.bread (h : Valid sb s t) (b : Nat) : Valid sb (s.bread b) t :=
  h.recache (fun _ hc => hc.bread b) (view_bread s b)

theorem Valid.recycle (h : Valid sb s t) {b : Nat} {data : Block} (hb : s.cache b = some ⟨data, false⟩) :
    Valid sb { s with cache := Function.update s.cache b none } t := by
  obtain ⟨waiting, hw⟩ := h.stage.cached
  have hdata : data = s.disk b := (hw b _ hb).1 rfl
  refine h.recache (fun waiting hc c buf hbuf => ?_) (fun c => ?_)
  · by_cases hcb : c = b
    · subst hcb
      simp at hbuf
    · simp only [Function.update_of_ne hcb] at hbuf
      exact hc c buf hbuf
  · by_cases hcb : c = b
    · subst hcb
      simp [State.view, hb, hdata]
    · simp [State.view, hcb]

/-- After a crash the disk says what it said before. -/
theorem Valid.crash (h : Valid sb s t) : Valid sb (boot (P := P) s.disk) { t with volatile := t.durable } where
  logged := .nil
  durable := h.durable
  reads := fun hr => absurd hr (by simp [boot])
  counted := by simp [boot, inProgress]
  stage := .booting ⟨⟨rfl, .inr rfl⟩, rfl, rfl, rfl, nofun, fun _ _ => rfl⟩

variable [DecidableEq P]

theorem inProgress_update (s : State P) (p : P) (o : Option (List Nat)) :
    inProgress { s with ops := Function.update s.ops p o } + ((s.ops p).map fun _ => 1).getD 0 =
      inProgress s + (o.map fun _ => 1).getD 0 :=
  sum_update (fun o : Option (List Nat) => (o.map fun _ => 1).getD 0) s.ops p o

theorem Valid.beginOp (h : Valid sb s t) (hrun : Running sb s) {p : P} (hp : s.ops p = none) :
    Valid sb { s with outstanding := s.outstanding + 1, ops := Function.update s.ops p (some []) } t := by
  refine ⟨h.logged, h.durable, h.reads, ?_, .running { hrun with idle := fun hout => absurd hout (Nat.succ_ne_zero _) }⟩
  have hcount := inProgress_update s p (some [])
  have hold := h.counted
  simp only [hp, Option.map_none, Option.getD_none, Option.map_some, Option.getD_some] at hcount
  simp only [inProgress] at hcount hold ⊢
  omega

theorem Valid.logWrite (h : Valid sb s t) (hrun : Running sb s) {p : P} {b : Nat} (data : Block)
    (hout : 0 < s.outstanding) (hb : Home sb b) (hroom : s.lh.length < logSize) (hfits : s.lh.length < sb.nlog - 1) :
    Valid sb { s with
      cache := Function.update s.cache b (some ⟨data, true⟩)
      lh := absorb s.lh b
      ops := Function.update s.ops p ((s.ops p).map (absorb · b)) }
      { t with volatile := Function.update t.volatile b data } := by
  have hmem : b ∈ absorb s.lh b ∧ s.lh ⊆ absorb s.lh b := by
    rw [absorb_eq]
    split <;> simp [*]
  refine ⟨?_, h.durable, fun hr c hc => ?_, ?_, 
    .running { hrun with cached := ?_, idle := fun hzero => absurd hzero (Nat.ne_of_gt hout) }⟩
  · rw [absorb_eq]
    split
    · exact h.logged
    · next hnew =>
      refine ⟨?_, ?_, ?_, ?_⟩
      · exact h.logged.nodup.append (List.nodup_singleton b) (by simpa using hnew)
      · intro c hc
        rcases List.mem_append.mp hc with hc | hc
        · exact h.logged.homes c hc
        · exact List.mem_singleton.mp hc ▸ hb
      · simp only [List.length_append, List.length_singleton]; omega
      · simp only [List.length_append, List.length_singleton]; omega
  · by_cases hcb : c = b
    · subst hcb
      simp [State.view]
    · have hold := h.reads hr c hc
      simp only [State.view, Function.update_of_ne hcb] at hold ⊢
      exact hold
  · have hcount := inProgress_update s p ((s.ops p).map (absorb · b))
    have hold := h.counted
    simp only [Option.map_map, Function.comp_def] at hcount
    simp only [inProgress] at hcount hold ⊢
    omega
  · intro c buf hc
    by_cases hcb : c = b
    · subst hcb
      simp only [Function.update_self, Option.some.injEq] at hc
      subst hc
      exact ⟨fun hd => absurd hd.symm Bool.false_ne_true, fun _ => hmem.1⟩
    · simp only [Function.update_of_ne hcb] at hc
      exact ⟨(hrun.cached c buf hc).1, fun hd => hmem.2 ((hrun.cached c buf hc).2 hd)⟩

theorem Valid.outstanding_pos (h : Valid sb s t) {p : P} (hp : (s.ops p).isSome) : 0 < s.outstanding := by
  obtain ⟨k, hk⟩ := Option.isSome_iff_exists.mp hp
  have hcount := inProgress_update s p none
  have hold := h.counted
  simp only [hk, Option.map_none, Option.getD_none, Option.map_some, Option.getD_some] at hcount
  omega

/-- While a system call is under way, no commit is. -/
theorem Valid.running (h : Valid sb s t) {p : P} (hp : (s.ops p).isSome) : Running sb s := by
  rcases h.stage.running_or_alone with hrun | halone
  · exact hrun
  · exact absurd halone.1 (Nat.ne_of_gt (h.outstanding_pos hp))

theorem Valid.counted_endOp (h : Valid sb s t) {p : P} (hp : (s.ops p).isSome) :
    s.outstanding - 1 = inProgress { s with ops := Function.update s.ops p none } := by
  obtain ⟨k, hk⟩ := Option.isSome_iff_exists.mp hp
  have hcount := inProgress_update s p none
  have hold := h.counted
  simp only [hk, Option.map_none, Option.getD_none, Option.map_some, Option.getD_some] at hcount
  omega

theorem Valid.endOp (h : Valid sb s t) (hrun : Running sb s) {p : P} (hp : (s.ops p).isSome)
    (hmore : s.outstanding - 1 ≠ 0) :
    Valid sb { s with outstanding := s.outstanding - 1, ops := Function.update s.ops p none } t :=
  ⟨h.logged, h.durable, h.reads, h.counted_endOp hp,
    .running { hrun with idle := fun hzero => absurd hzero hmore }⟩

/-- The last system call ends: nothing is to be done, or `write_log` starts. -/
theorem Valid.commit (h : Valid sb s t) (hrun : Running sb s) {p : P} (hp : (s.ops p).isSome)
    (hlast : s.outstanding - 1 = 0) :
    Valid sb { s with
      outstanding := s.outstanding - 1
      ops := Function.update s.ops p none
      committing := true
      todo := commit s.lh.length } t := by
  refine ⟨h.logged, h.durable, h.reads, h.counted_endOp hp, ?_⟩
  by_cases hlh : s.lh = []
  · have hcached : Cached s [] := hlh ▸ hrun.cached
    refine .closing ⟨⟨hlast, .inl rfl⟩, by simp [hlh, Log.commit], hlh, hrun.head, hcached, fun b hb => ?_⟩
    rw [← h.reads hrun.recovering b hb, hcached.view_eq List.not_mem_nil, h.durable.home_eq hrun.head hb]
  · refine .copying 0 ⟨⟨hlast, .inl rfl⟩, hrun.recovering, ?_, hlh, hrun.head, hrun.cached, fun i b hi => ?_⟩
    · simp [Log.commit, Log.recover, List.length_pos_iff.mpr hlh]
    · exact absurd hi (Nat.not_lt_zero i)

end Steps

/-! ### The writes of a commit and of a recovery -/

theorem perform_copy (s : State P) (k : Nat) : perform sb s (.copy k) =
    ((s.bread (slot sb k)).bread (s.lh.getD k 0)).bwrite (slot sb k) (s.view (s.lh.getD k 0)) := by
  simp [perform]

theorem perform_install (s : State P) (k : Nat) : perform sb s (.install k) =
    ((s.bread (slot sb k)).bread (s.lh.getD k 0)).bwrite (s.lh.getD k 0) (s.view (slot sb k)) := by
  simp [perform]

theorem perform_writeHead (s : State P) : perform sb s .writeHead =
    (s.bread sb.logstart).bwrite sb.logstart (fillHead s.lh (s.view sb.logstart)) := by
  simp [perform]

theorem drop_map_range {n k : Nat} (f : Nat → Action) (hk : k < n) :
    ((List.range n).map f).drop k = f k :: ((List.range n).map f).drop (k + 1) := by
  rw [List.drop_eq_getElem_cons (by simpa using hk)]
  simp

theorem drop_map_range_all {n k : Nat} (f : Nat → Action) (hk : n ≤ k) : ((List.range n).map f).drop k = [] :=
  List.drop_eq_nil_of_le (by simpa using hk)

section Writes
variable [Fintype P] {s : State P} {t : Store} {k : Nat}

theorem Valid.copy (h : Valid sb s t) (hs : Copying sb s t k) (hk : k < s.lh.length) :
    Valid sb (perform sb { s with todo := (writeLog s.lh.length).drop (k + 1) ++ .writeHead :: recover s.lh.length }
      (.copy k)) t := by
  have hget : s.lh.getD k 0 = s.lh[k] := by simp [hk]
  have hhome : Home sb s.lh[k] := h.logged.homes _ (List.getElem_mem hk)
  rw [perform_copy]
  refine ⟨h.logged, h.durable.write_slot hs.head k h.logged hk _, fun hr b hb => ?_, h.counted,
    .copying (k + 1) ⟨hs.alone, hs.recovering, rfl, hs.nonempty, ?_, ?_, fun i b hi hb => ?_⟩⟩
  · rw [view_bwrite, if_neg (h.logged.slot_ne hk hb).symm, view_bread, view_bread]
    exact h.reads hr b hb
  · rw [bwrite_disk, if_neg (slot_ne_start k).symm]
    exact hs.head
  · exact ((Cached.bread hs.cached _).bread _).bwrite _ _ fun c hc _ => hc
  · rw [bwrite_disk]
    by_cases hik : i = k
    · subst hik
      have hbk : s.lh[i] = b := by
        rw [bwrite_lh, bread_lh, bread_lh, List.getElem?_eq_getElem hk, Option.some.injEq] at hb
        exact hb
      rw [if_pos rfl]
      show s.view (s.lh.getD i 0) = t.volatile b
      rw [hget, h.reads hs.recovering _ hhome, hbk]
    · rw [if_neg (fun heq => hik (by unfold slot at heq; omega))]
      exact hs.copied i b (by omega) hb

/-- The commit point. -/
theorem Valid.writeHead (h : Valid sb s t) (hs : Copying sb s t k) (hk : s.lh.length ≤ k) :
    Valid sb (perform sb { s with todo := recover s.lh.length } .writeHead)
      { t with durable := t.volatile } := by
  have hslots : ∀ i b, s.lh[i]? = some b → s.disk (slot sb i) = t.volatile b := by
    intro i b hi
    obtain ⟨hlt, _⟩ := List.getElem?_eq_some_iff.mp hi
    exact hs.copied i b (by omega) hi
  have hrest : ∀ b, Home sb b → b ∉ s.lh → s.disk b = t.volatile b := by
    intro b hb hnot
    rw [← hs.cached.view_eq hnot, h.reads hs.recovering b hb]
  obtain ⟨hhead, hdurable⟩ := Recoverable.write_head h.logged (s.view sb.logstart) hslots hrest
  rw [perform_writeHead]
  refine ⟨h.logged, hdurable, fun hr b hb => ?_, h.counted,
    .installing 0 ⟨hs.alone, by simp [recover], hhead, ?_, fun b hb => ?_, fun b hb => rfl⟩⟩
  · rw [view_bwrite, if_neg (start_ne hb), view_bread]
    exact h.reads hr b hb
  · exact (Cached.bread hs.cached _).bwrite _ _ fun c hc _ => hc
  · simp at hb

theorem Valid.install (h : Valid sb s t) (hs : Installing sb s t k) (hk : k < s.lh.length) :
    Valid sb (perform sb
      { s with todo := (installTrans s.lh.length).drop (k + 1) ++ [.clear, .writeHead, .done] } (.install k)) t := by
  have hget : s.lh.getD k 0 = s.lh[k] := by simp [hk]
  have hmem : s.lh[k] ∈ s.lh := List.getElem_mem hk
  have hhome : Home sb s.lh[k] := h.logged.homes _ hmem
  -- the buffer of the log's block is clean, so what is copied is on the disk
  have hslot : s.view (slot sb k) = t.durable s.lh[k] := by
    have hnot : slot sb k ∉ s.lh.drop k := fun hin =>
      h.logged.slot_ne hk (h.logged.homes _ (List.mem_of_mem_drop hin)) rfl
    rw [hs.cached.view_eq hnot]
    apply h.durable.slots
    rw [hs.head, List.getElem?_eq_getElem hk]
  rw [perform_install]
  show Valid sb (State.bwrite _ (s.lh.getD k 0) (s.view (slot sb k))) t
  rw [hget, hslot]
  refine ⟨h.logged, h.durable.write_home (hs.head.symm ▸ hmem) _, fun hr b hb => ?_, h.counted,
    .installing (k + 1) ⟨hs.alone, rfl, ?_, ?_, fun b hb => ?_, hs.settled⟩⟩
  · rw [view_bwrite, view_bread, view_bread]
    split
    · next hbk => rw [hbk, hs.settled _ hhome]
    · exact h.reads hr b hb
  · rw [bwrite_disk, if_neg (start_ne hhome).symm]
    exact hs.head
  · refine ((Cached.bread hs.cached _).bread _).bwrite _ _ fun c hc hne => ?_
    rw [List.drop_eq_getElem_cons hk] at hc
    exact (List.mem_cons.mp hc).resolve_left hne
  · rw [bwrite_disk]
    split
    · next hbk => rw [hbk]
    · next hbk =>
      apply hs.installed
      rw [bwrite_lh, bread_lh, bread_lh, List.take_succ_eq_append_getElem hk] at hb
      exact (List.mem_append.mp hb).resolve_right (fun hin => hbk (List.mem_singleton.mp hin))

theorem Valid.clear (h : Valid sb s t) (hs : Installing sb s t k) (hk : s.lh.length ≤ k) :
    Valid sb (perform sb { s with todo := [.writeHead, .done] } .clear) t := by
  have hnone : s.lh.drop k = [] := List.drop_eq_nil_of_le hk
  refine ⟨.nil, h.durable, h.reads, h.counted,
    .erasing ⟨hs.alone, rfl, rfl, hnone ▸ hs.cached, fun b hb => ?_, hs.settled⟩⟩
  by_cases hmem : b ∈ s.lh
  · exact hs.installed b (by rwa [List.take_of_length_le hk])
  · exact h.durable.rest b hb (hs.head.symm ▸ hmem)

theorem Valid.erase (h : Valid sb s t) (hs : Erasing sb s t) :
    Valid sb (perform sb { s with todo := [.done] } .writeHead) t := by
  obtain ⟨hhead, hdurable⟩ := Recoverable.write_head (d := t.durable) (.nil : Loggable sb []) (s.view sb.logstart)
    (fun i b hi => by simp at hi) (fun b hb _ => hs.installed b hb)
  rw [← hs.lh] at hhead hdurable
  rw [perform_writeHead]
  refine ⟨h.logged, hdurable, fun hr b hb => ?_, h.counted,
    .closing ⟨hs.alone, rfl, hs.lh, hhead.trans hs.lh, ?_, hs.settled⟩⟩
  · rw [view_bwrite, if_neg (start_ne hb), view_bread]
    exact h.reads hr b hb
  · exact (Cached.bread hs.cached _).bwrite _ _ fun c hc _ => hc

theorem Valid.done (h : Valid sb s t) (hs : Closing sb s t) :
    Valid sb (perform sb { s with todo := [] } .done) t := by
  refine ⟨h.logged, h.durable, fun _ b hb => ?_, h.counted, .running ⟨rfl, rfl, rfl, hs.head, hs.lh.symm ▸ hs.cached, fun _ => hs.lh⟩⟩
  show s.view b = t.volatile b
  rw [hs.cached.view_eq List.not_mem_nil, hs.settled b hb, h.durable.home_eq hs.head hb]

theorem Valid.readHead (h : Valid sb s t) (hs : Booting sb s t) :
    Valid sb (perform sb { s with todo := [] } .readHead) t := by
  have hview : State.view (State.bread { s with todo := [] } sb.logstart) sb.logstart = s.disk sb.logstart := by
    rw [view_bread]
    exact hs.cached.view_eq List.not_mem_nil
  simp only [perform, hview]
  refine ⟨h.durable.head, h.durable, fun hr => absurd hr ?_, h.counted,
    .installing 0 ⟨hs.alone, by simp [recover], rfl, ?_, fun b hb => ?_, hs.settled⟩⟩
  · show ¬ s.recovering = false
    simp [hs.recovering]
  · intro b buf hb
    obtain ⟨hclean, hdirty⟩ := Cached.bread hs.cached sb.logstart b buf hb
    exact ⟨hclean, fun hd => absurd (hdirty hd) List.not_mem_nil⟩
  · simp at hb

end Writes

/-! ### Every event -/

section Run
variable [Fintype P] {s s' : State P} {t : Store}

omit [Fintype P] in
theorem follow_proceed_of_nil (hlh : s.lh = []) : follow s t .proceed = t := by
  simp [follow, hlh]

/-- The process in `commit` or `recover_from_log` goes on. -/
theorem Valid.proceed (h : Valid sb s t) {a : Action} {rest : List Action} (htodo : s.todo = a :: rest) :
    Valid sb (perform sb { s with todo := rest } a) (follow s t .proceed) := by
  cases h.stage with
  | running hs =>
    rw [hs.todo] at htodo
    cases htodo
  | copying k hs =>
    by_cases hk : k < s.lh.length
    · have hrest := hs.todo.symm.trans htodo
      rw [writeLog, drop_map_range _ hk] at hrest
      cases hrest
      simp only [follow, htodo, List.head?_cons]
      exact h.copy hs hk
    · have hrest := hs.todo.symm.trans htodo
      rw [writeLog, drop_map_range_all _ (Nat.le_of_not_lt hk)] at hrest
      cases hrest
      simp only [follow, htodo, List.head?_cons, true_and, if_pos hs.nonempty]
      exact h.writeHead hs (Nat.le_of_not_lt hk)
  | installing k hs =>
    by_cases hk : k < s.lh.length
    · have hrest := hs.todo.symm.trans htodo
      rw [installTrans, drop_map_range _ hk] at hrest
      cases hrest
      simp only [follow, htodo, List.head?_cons]
      exact h.install hs hk
    · have hrest := hs.todo.symm.trans htodo
      rw [installTrans, drop_map_range_all _ (Nat.le_of_not_lt hk)] at hrest
      cases hrest
      simp only [follow, htodo, List.head?_cons]
      exact h.clear hs (Nat.le_of_not_lt hk)
  | erasing hs =>
    cases hs.todo.symm.trans htodo
    rw [follow_proceed_of_nil hs.lh]
    exact h.erase hs
  | closing hs =>
    cases hs.todo.symm.trans htodo
    rw [follow_proceed_of_nil hs.lh]
    exact h.done hs
  | booting hs =>
    cases hs.todo.symm.trans htodo
    rw [follow_proceed_of_nil hs.lh]
    exact h.readHead hs

variable [DecidableEq P]

theorem valid_step {e : Event P} (h : Valid sb s t) (he : Orderly sb s e) (hstep : step sb s e = .next s') :
    Valid sb s' (follow s t e) := by
  cases e with
  | beginOp p =>
    simp only [step] at hstep
    split at hstep
    · cases hstep
    split at hstep
    · cases hstep
    split at hstep
    · cases hstep
    next hr hc _ =>
    cases hstep
    rcases h.stage.running_or_alone with hrun | halone
    · exact h.beginOp hrun he
    · exact absurd halone.2 (by simp [hr, hc])
  | logWrite p b data =>
    obtain ⟨rfl, hroom, hout⟩ := of_step_logWrite hstep
    unfold Superblock.full at hroom
    exact h.logWrite (h.running he.1) data hout he.2 (by omega) (by omega)
  | endOp p =>
    have hrun := h.running he
    simp only [step] at hstep
    split at hstep
    · cases hstep
    split at hstep
    · next hlast => cases hstep; exact h.commit hrun he hlast
    · next hmore => cases hstep; exact h.endOp hrun he hmore
  | bread b =>
    cases hstep
    exact h.bread b
  | recycle b =>
    simp only [step] at hstep
    split at hstep
    · next hb => cases hstep; exact h.recycle hb
    · cases hstep
  | proceed =>
    simp only [step] at hstep
    split at hstep
    · cases hstep
    · next htodo => cases hstep; exact h.proceed htodo
  | crash =>
    cases hstep
    exact h.crash

end Run

end CompilingToAssembly.Xv6.Log
