import CompilingToAssembly.Library.Machine
import CompilingToAssembly.Library.RingBuffer

/-! `pipe.c`: pipes between processes.

The pipe's lock makes what a call does between `acquire` or `sleep` and the next `sleep`
or `release` one step; between the steps the processes take turns in any order. A process
that sleeps goes on only after a `wakeup` on its channel, or a `kill`. A `kill` takes another
lock: it can come between the last test of a process and its falling asleep, and then it wakes
nobody. So a process that goes to sleep holds the pipe's lock (`holder`) until it sleeps.

Every byte that is read is the oldest that was written and not yet read (`pipe_fifo`), a reader
that is told the end of the file has got everything (`eof_final`), and a process sleeps
only where there is nothing for it to do, but for that `kill` and for readers that a writer,
giving up because it was killed, has left asleep (`no_lost_wakeup`). -/
namespace CompilingToAssembly.Xv6.Pipe
open Library

def pipeSize : Nat := 512

/-- Where a process is in `pipe.c`. A write of `n` bytes has `left` to do. -/
inductive Call where
  | none
  | write (n : Nat) (left : List UInt8) (asleep : Bool)
  | read (n : Nat) (asleep : Bool)
  deriving DecidableEq

/-- `holder` is the process that holds the lock and is about to sleep. `sent` and `received`
are all bytes ever put in and taken out, and `result p` is what the last call of process `p`
returned. `late p`: `p` was killed when it was about to sleep. `missed p`: since `p` fell asleep
in `piperead` a write was given up, and no `wakeup` of the readers has come after it. -/
structure State (P : Type) where
  ring : RingBuffer UInt8
  readopen : Bool
  writeopen : Bool
  killed : P → Bool
  calls : P → Call
  holder : Option P
  result : P → Option Int
  sent : List UInt8
  received : List UInt8
  late : P → Bool
  missed : P → Bool

inductive Event (P : Type) where
  | write (p : P) (addr : List UInt8)
  | read (p : P) (n : Nat)
  /-- A process that is awake gets the lock back. -/
  | resume (p : P)
  /-- `sleep`: a process that is about to sleep does, and gives the lock up. -/
  | sleep (p : P)
  | close (writable : Bool)
  | kill (p : P)

variable {P : Type}

/-- `pipealloc`: `data` is what happens to be in the page. -/
def pipealloc (data : Nat → UInt8) : State P where
  ring := ⟨data, 0, 0⟩
  readopen := true
  writeopen := true
  killed := fun _ => false
  calls := fun _ => .none
  holder := none
  result := fun _ => none
  sent := []
  received := []
  late := fun _ => false
  missed := fun _ => false

def Call.wakeReader : Call → Call
  | .read n _ => .read n false
  | c => c

def Call.wakeWriter : Call → Call
  | .write n left _ => .write n left false
  | c => c

def Call.fallAsleep : Call → Call
  | .write n left _ => .write n left true
  | .read n _ => .read n true
  | .none => .none

def Call.asleep : Call → Bool
  | .write _ _ asleep => asleep
  | .read _ asleep => asleep
  | .none => false

def Call.isWrite : Call → Bool
  | .write .. => true
  | _ => false

def Call.isRead : Call → Bool
  | .read .. => true
  | _ => false

namespace State

def contents (s : State P) : List UInt8 := s.ring.contents pipeSize

/-- `wakeup(&p->nread)`. -/
def wakeReaders (s : State P) : State P :=
  { s with
    calls := fun p => (s.calls p).wakeReader
    missed := fun _ => false }

/-- `wakeup(&p->nwrite)`. -/
def wakeWriters (s : State P) : State P := { s with calls := fun p => (s.calls p).wakeWriter }

variable [DecidableEq P]

def setCall (s : State P) (p : P) (c : Call) : State P := { s with calls := Function.update s.calls p c }

def finish (s : State P) (p : P) (r : Int) : State P :=
  { s.setCall p .none with result := Function.update s.result p (some r) }

/-- Bytes go in until the pipe is full. -/
def put (s : State P) (left : List UInt8) : State P :=
  { s with
    ring := (s.ring.fill pipeSize left).1
    sent := s.sent ++ left.take (left.length - (s.ring.fill pipeSize left).2.length) }

/-- Bytes come out, at most `n`. -/
def take (s : State P) (n : Nat) : State P :=
  { s with
    ring := (s.ring.drain pipeSize n).1
    received := s.received ++ (s.ring.drain pipeSize n).2 }

/-- `pipewrite`, with `left` to write, up to where it is about to sleep or returns. -/
def pipewrite (s : State P) (p : P) (n : Nat) (left : List UInt8) : State P :=
  match (s.ring.fill pipeSize left).2 with
  | [] => ((s.put left).wakeReaders).finish p n
  | b :: rest =>
    if s.readopen = false ∨ s.killed p then
      { (s.put left).finish p (-1) with
        missed := fun q => s.missed q || ((s.calls q).isRead && (s.calls q).asleep) }
    else { ((s.put left).wakeReaders).setCall p (.write n (b :: rest) false) with holder := some p }

/-- `piperead`, up to where it is about to sleep or returns. -/
def piperead (s : State P) (p : P) (n : Nat) : State P :=
  if s.ring.nread = s.ring.nwrite ∧ s.writeopen then
    if s.killed p then s.finish p (-1) else { s.setCall p (.read n false) with holder := some p }
  else ((s.take n).wakeWriters).finish p (s.ring.drain pipeSize n).2.length

/-- The second half of `sleep`, from the lock of the process table on. -/
def sleep (s : State P) (p : P) : State P := { s.setCall p (s.calls p).fallAsleep with holder := none }

def pipeclose (s : State P) (writable : Bool) : State P :=
  if writable then { s.wakeReaders with writeopen := false }
  else { s.wakeWriters with readopen := false }

/-- `kill` of `proc.c`. -/
def kill (s : State P) (p : P) : State P :=
  { s.setCall p (s.calls p).wakeReader.wakeWriter with
    killed := Function.update s.killed p true
    late := Function.update s.late p (s.late p || decide (s.holder = some p)) }

end State

variable [DecidableEq P]

def step (s : State P) : Event P → Turn (State P)
  | .write p addr => if s.holder.isSome then .waits else .next (s.pipewrite p addr.length addr)
  | .read p n => if s.holder.isSome then .waits else .next (s.piperead p n)
  | .resume p =>
    if s.holder.isSome then .waits
    else
      match s.calls p with
      | .write n left false => .next (s.pipewrite p n left)
      | .read n false => .next (s.piperead p n)
      | _ => .waits
  | .sleep p => if s.holder = some p then .next (s.sleep p) else .waits
  | .close writable => if s.holder.isSome then .waits else .next (s.pipeclose writable)
  | .kill p => .next (s.kill p)

omit [DecidableEq P] in
/-- What `file.c` keeps to, which counts the references to either end: a process makes one
call at a time, of an end that is open, and an end is closed once, when no process is in a
call of it. -/
def Orderly (s : State P) : Event P → Prop
  | .write p _ => (s.calls p).isWrite = false ∧ (s.calls p).isRead = false ∧ s.writeopen = true
  | .read p _ => (s.calls p).isWrite = false ∧ (s.calls p).isRead = false ∧ s.readopen = true
  | .close true => s.writeopen = true ∧ ∀ p, (s.calls p).isWrite = false
  | .close false => s.readopen = true ∧ ∀ p, (s.calls p).isRead = false
  | _ => True

/-- Process `p` is in `piperead` for `n` bytes when the event happens. -/
def Reads (s : State P) (p : P) (n : Nat) : Event P → Prop
  | .read q m => q = p ∧ m = n
  | .resume q => q = p ∧ s.calls p = .read n false
  | _ => False

/-! ### Waking -/

@[simp] theorem isWrite_wakeReader (c : Call) : c.wakeReader.isWrite = c.isWrite := by cases c <;> rfl
@[simp] theorem isRead_wakeReader (c : Call) : c.wakeReader.isRead = c.isRead := by cases c <;> rfl
@[simp] theorem isWrite_wakeWriter (c : Call) : c.wakeWriter.isWrite = c.isWrite := by cases c <;> rfl
@[simp] theorem isRead_wakeWriter (c : Call) : c.wakeWriter.isRead = c.isRead := by cases c <;> rfl
@[simp] theorem isWrite_fallAsleep (c : Call) : c.fallAsleep.isWrite = c.isWrite := by cases c <;> rfl
@[simp] theorem isRead_fallAsleep (c : Call) : c.fallAsleep.isRead = c.isRead := by cases c <;> rfl

@[simp] theorem asleep_wakeReader (c : Call) : c.wakeReader.asleep = (c.asleep && !c.isRead) := by
  cases c <;> simp [Call.wakeReader, Call.asleep, Call.isRead]

@[simp] theorem asleep_wakeWriter (c : Call) : c.wakeWriter.asleep = (c.asleep && !c.isWrite) := by
  cases c <;> simp [Call.wakeWriter, Call.asleep, Call.isWrite]

/-! ### The calls after a step -/

section Calls
variable (s : State P) {p q : P}

omit [DecidableEq P] in
@[simp] theorem calls_put (left : List UInt8) : (s.put left).calls = s.calls := rfl
omit [DecidableEq P] in
@[simp] theorem calls_take (n : Nat) : (s.take n).calls = s.calls := rfl
omit [DecidableEq P] in
@[simp] theorem calls_wakeReaders : s.wakeReaders.calls q = (s.calls q).wakeReader := rfl
omit [DecidableEq P] in
@[simp] theorem calls_wakeWriters : s.wakeWriters.calls q = (s.calls q).wakeWriter := rfl
@[simp] theorem calls_setCall (c : Call) : (s.setCall p c).calls p = c := Function.update_self ..
@[simp] theorem calls_finish (r : Int) : (s.finish p r).calls p = .none := Function.update_self ..

@[simp] theorem calls_setCall_of_ne (c : Call) (h : q ≠ p) : (s.setCall p c).calls q = s.calls q :=
  Function.update_of_ne h ..

@[simp] theorem calls_finish_of_ne (r : Int) (h : q ≠ p) : (s.finish p r).calls q = s.calls q :=
  Function.update_of_ne h ..

end Calls

/-! ### What holds between the steps -/

/-- No call of an end that is closed. -/
structure Held (s : State P) : Prop where
  writers : s.writeopen = false → ∀ p, (s.calls p).isWrite = false
  readers : s.readopen = false → ∀ p, (s.calls p).isRead = false

structure Flow (s : State P) : Prop where
  fits : s.contents.length ≤ pipeSize
  fifo : s.received ++ s.contents = s.sent

/-- Process `p` sleeps, or is about to. -/
def Resting (s : State P) (p : P) : Prop := (s.calls p).asleep = true ∨ s.holder = some p

/-- A process sleeps only where there is nothing for it to do. -/
structure Awake (s : State P) : Prop where
  readers : ∀ p, Resting s p → (s.calls p).isRead = true →
    s.writeopen = true ∧ (s.contents = [] ∨ s.missed p = true)
  writers : ∀ p, Resting s p → (s.calls p).isWrite = true →
    s.contents.length = pipeSize ∧ s.readopen = true
  killed : ∀ p, Resting s p → s.killed p = true → s.late p = true

structure Valid (s : State P) : Prop extends Held s, Flow s where
  awake : Awake s

theorem pipeSize_dvd : pipeSize ∣ 2 ^ 32 := by decide
theorem pipeSize_lt : pipeSize < 2 ^ 32 := by decide

theorem take_sub_length {as fits rest : List UInt8} (h : as = fits ++ rest) :
    as.take (as.length - rest.length) = fits := by
  subst h
  simp

omit [DecidableEq P] in
/-- What `put` does to the bytes: as many as fit are sent, and a full pipe takes none. -/
theorem put_spec {s : State P} (h : Flow s) (left : List UInt8) : ∃ fits,
    left = fits ++ (s.ring.fill pipeSize left).2 ∧ (s.put left).contents = s.contents ++ fits ∧
      (s.put left).sent = s.sent ++ fits ∧ (s.put left).contents.length ≤ pipeSize ∧
      ((s.ring.fill pipeSize left).2 ≠ [] → (s.put left).contents.length = pipeSize) := by
  have hlen : s.ring.length ≤ pipeSize := by
    have hfits := h.fits
    rwa [State.contents, RingBuffer.length_contents] at hfits
  obtain ⟨fits, hsplit, hcontents, hle, hfull⟩ := RingBuffer.fill_spec pipeSize_dvd pipeSize_lt left hlen
  refine ⟨fits, hsplit, hcontents, ?_, ?_, fun hne => ?_⟩
  · exact congrArg (s.sent ++ ·) (take_sub_length hsplit)
  · rw [State.contents, RingBuffer.length_contents]
    exact hle
  · rw [State.contents, RingBuffer.length_contents]
    exact hfull hne

omit [DecidableEq P] in
theorem Flow.put {s : State P} (h : Flow s) (left : List UInt8) : Flow (s.put left) := by
  obtain ⟨fits, _, hcontents, hsent, hle, _⟩ := put_spec h left
  refine ⟨hle, ?_⟩
  rw [hcontents, hsent, ← h.fifo, List.append_assoc]
  rfl

omit [DecidableEq P] in
/-- A full pipe stays as it is. -/
theorem Flow.put_full {s : State P} (h : Flow s) (left : List UInt8) (hfull : s.contents.length = pipeSize) :
    (s.put left).contents.length = pipeSize := by
  obtain ⟨fits, _, hcontents, _, hle, _⟩ := put_spec h left
  rw [hcontents, List.length_append] at hle ⊢
  omega

omit [DecidableEq P] in
theorem Flow.take {s : State P} (h : Flow s) (n : Nat) : Flow (s.take n) := by
  obtain ⟨hcontents, _, _⟩ := RingBuffer.drain_spec (s := s.ring) pipeSize_dvd n
  have hsplit : s.contents = (s.ring.drain pipeSize n).2 ++ (s.take n).contents := hcontents
  have hfits := h.fits
  refine ⟨?_, ?_⟩
  · rw [hsplit, List.length_append] at hfits
    omega
  · rw [State.take, List.append_assoc, ← h.fifo, hsplit]
    rfl

omit [DecidableEq P] in
/-- Only process `p` enters or leaves a call. -/
theorem Held.update {s s' : State P} (h : Held s) (p : P) (hw : s'.writeopen = s.writeopen)
    (hr : s'.readopen = s.readopen) (hothers : ∀ q, q ≠ p →
      (s'.calls q).isWrite = (s.calls q).isWrite ∧ (s'.calls q).isRead = (s.calls q).isRead)
    (hpw : (s'.calls p).isWrite = true → s.writeopen = true)
    (hpr : (s'.calls p).isRead = true → s.readopen = true) : Held s' := by
  refine ⟨fun hc q => ?_, fun hc q => ?_⟩ <;> by_cases hqp : q = p
  · subst hqp
    exact Bool.eq_false_iff.mpr fun hin => by simp [← hw, hc] at hpw; simp [hpw] at hin
  · rw [(hothers q hqp).1]
    exact h.writers (hw ▸ hc) q
  · subst hqp
    exact Bool.eq_false_iff.mpr fun hin => by simp [← hr, hc] at hpr; simp [hpr] at hin
  · rw [(hothers q hqp).2]
    exact h.readers (hr ▸ hc) q

omit [DecidableEq P] in
theorem asleep_of_resting {s : State P} {q : P} (h : Resting s q) (hfree : s.holder = none) :
    (s.calls q).asleep = true :=
  h.resolve_right fun hq => by rw [hfree] at hq; cases hq

omit [DecidableEq P] in
/-- Writers that sleep go on sleeping beside a full pipe. -/
theorem Awake.writers_put {s : State P} (h : Awake s) (hflow : Flow s) (left : List UInt8) {q : P}
    (hq : (s.calls q).asleep = true) (hw : (s.calls q).isWrite = true) :
    (s.put left).contents.length = pipeSize ∧ s.readopen = true := by
  obtain ⟨hfull, hopen⟩ := h.writers q (.inl hq) hw
  exact ⟨hflow.put_full left hfull, hopen⟩

/-- All is written, and the readers are awake. -/
theorem Awake.written {s : State P} (h : Awake s) (hflow : Flow s) (hfree : s.holder = none) (p : P) (n : Int)
    (left : List UInt8) : Awake (((s.put left).wakeReaders).finish p n) := by
  have hasleep (q : P) (hq : Resting (((s.put left).wakeReaders).finish p n) q) :
      q ≠ p ∧ (s.calls q).asleep = true ∧ (s.calls q).isRead = false := by
    have hrest := asleep_of_resting hq hfree
    by_cases hqp : q = p
    · rw [hqp, calls_finish] at hrest
      cases hrest
    · simpa [hqp] using hrest
  refine ⟨fun q hq hr => ?_, fun q hq hw => ?_, fun q hq hk => h.killed q (.inl (hasleep q hq).2.1) hk⟩
  · obtain ⟨hqp, _, hnot⟩ := hasleep q hq
    simp [hqp, hnot] at hr
  · obtain ⟨hqp, hsleeps, _⟩ := hasleep q hq
    exact h.writers_put hflow left hsleeps (by simpa [hqp] using hw)

/-- A write is given up, and the readers that sleep go on sleeping. -/
theorem Awake.given_up {s : State P} (h : Awake s) (hflow : Flow s) (hfree : s.holder = none) (p : P)
    (left : List UInt8) : Awake { (s.put left).finish p (-1) with
      missed := fun q => s.missed q || ((s.calls q).isRead && (s.calls q).asleep) } := by
  have hasleep (q : P) (hq : Resting { (s.put left).finish p (-1) with
      missed := fun q => s.missed q || ((s.calls q).isRead && (s.calls q).asleep) } q) :
      q ≠ p ∧ (s.calls q).asleep = true := by
    have hrest : (((s.put left).finish p (-1)).calls q).asleep = true := asleep_of_resting hq hfree
    by_cases hqp : q = p
    · rw [hqp, calls_finish] at hrest
      cases hrest
    · simpa [hqp] using hrest
  refine ⟨fun q hq hr => ?_, fun q hq hw => ?_, fun q hq hk => h.killed q (.inl (hasleep q hq).2) hk⟩
  · obtain ⟨hqp, hsleeps⟩ := hasleep q hq
    have hr : (s.calls q).isRead = true := by simpa [hqp] using hr
    exact ⟨(h.readers q (.inl hsleeps) hr).1, .inr (by simp [hr, hsleeps])⟩
  · obtain ⟨hqp, hsleeps⟩ := hasleep q hq
    exact h.writers_put hflow left hsleeps (by simpa [hqp] using hw)

/-- The writer is about to sleep, with the readers awake. -/
theorem Awake.full {s : State P} (h : Awake s) (hflow : Flow s) {p : P} (n : Nat)
    (left rest : List UInt8) (hfull : (s.put left).contents.length = pipeSize) (hopen : s.readopen = true)
    (hlive : s.killed p = false) :
    Awake { ((s.put left).wakeReaders).setCall p (.write n rest false) with holder := some p } := by
  have hasleep (q : P) (hqp : q ≠ p) (hq : Resting
      { ((s.put left).wakeReaders).setCall p (.write n rest false) with holder := some p } q) :
      (s.calls q).asleep = true ∧ (s.calls q).isRead = false := by
    have hrest := hq.resolve_right fun heq => hqp (Option.some.inj heq).symm
    simpa [hqp] using hrest
  refine ⟨fun q hq hr => ?_, fun q hq hw => ?_, fun q hq hk => ?_⟩ <;> by_cases hqp : q = p
  · simp [hqp, Call.isRead] at hr
  · simp [hqp, (hasleep q hqp hq).2] at hr
  · exact ⟨hfull, hopen⟩
  · exact h.writers_put hflow left (hasleep q hqp hq).1 (by simpa [hqp] using hw)
  · have : s.killed q = true := hk
    rw [hqp, hlive] at this
    cases this
  · exact h.killed q (.inl (hasleep q hqp hq).1) hk

theorem Valid.pipewrite {s : State P} (h : Valid s) (hfree : s.holder = none) (p : P) (n : Nat)
    (left : List UInt8) (hopen : s.writeopen = true) : Valid (s.pipewrite p n left) := by
  obtain ⟨fits, _, _, _, _, hfull⟩ := put_spec h.toFlow left
  have hflow := h.toFlow.put left
  unfold State.pipewrite
  split
  · exact ⟨h.toHeld.update p rfl rfl (fun q hq => by simp [hq]) (fun _ => hopen) (by simp [Call.isRead]),
      ⟨hflow.fits, hflow.fifo⟩, h.awake.written h.toFlow hfree p n left⟩
  · next b rest hrest =>
    have hne : (s.ring.fill pipeSize left).2 ≠ [] := by rw [hrest]; exact List.cons_ne_nil b rest
    split
    · exact ⟨h.toHeld.update p rfl rfl (fun q hq => by simp [hq]) (fun _ => hopen) (by simp [Call.isRead]),
        ⟨hflow.fits, hflow.fifo⟩, h.awake.given_up h.toFlow hfree p left⟩
    · next hstay =>
      simp only [not_or, Bool.not_eq_false, Bool.not_eq_true] at hstay
      exact ⟨h.toHeld.update p rfl rfl (fun q hq => by simp [hq]) (fun _ => hopen) (by simp [Call.isRead]),
        ⟨hflow.fits, hflow.fifo⟩, h.awake.full h.toFlow n left _ (hfull hne) hstay.1 hstay.2⟩

/-- The reader is about to sleep beside an empty pipe. -/
theorem Awake.empty {s : State P} (h : Awake s) {p : P} (n : Nat)
    (hnil : s.contents = []) (hopen : s.writeopen = true) (hlive : s.killed p = false) :
    Awake { s.setCall p (.read n false) with holder := some p } := by
  have hasleep (q : P) (hqp : q ≠ p)
      (hq : Resting { s.setCall p (.read n false) with holder := some p } q) : (s.calls q).asleep = true := by
    have hrest := hq.resolve_right fun heq => hqp (Option.some.inj heq).symm
    simpa [hqp] using hrest
  refine ⟨fun q hq hr => ?_, fun q hq hw => ?_, fun q hq hk => ?_⟩ <;> by_cases hqp : q = p
  · exact ⟨hopen, .inl hnil⟩
  · exact h.readers q (.inl (hasleep q hqp hq)) (by simpa [hqp] using hr)
  · simp [hqp, Call.isWrite] at hw
  · exact h.writers q (.inl (hasleep q hqp hq)) (by simpa [hqp] using hw)
  · have : s.killed q = true := hk
    rw [hqp, hlive] at this
    cases this
  · exact h.killed q (.inl (hasleep q hqp hq)) hk

theorem Awake.finish {s : State P} (h : Awake s) (hfree : s.holder = none) (p : P) (r : Int) :
    Awake (s.finish p r) := by
  have hasleep (q : P) (hq : Resting (s.finish p r) q) : q ≠ p ∧ (s.calls q).asleep = true := by
    have hrest := asleep_of_resting hq hfree
    by_cases hqp : q = p
    · rw [hqp, calls_finish] at hrest
      cases hrest
    · simpa [hqp] using hrest
  refine ⟨fun q hq hr => ?_, fun q hq hw => ?_, fun q hq hk => h.killed q (.inl (hasleep q hq).2) hk⟩ <;>
    obtain ⟨hqp, hsleeps⟩ := hasleep q hq
  · exact h.readers q (.inl hsleeps) (by simpa [hqp] using hr)
  · exact h.writers q (.inl hsleeps) (by simpa [hqp] using hw)

omit [DecidableEq P] in
/-- Bytes are taken out and the writers woken. A reader that sleeps beside bytes has missed
them before. -/
theorem Awake.taken {s : State P} (h : Awake s) (hfree : s.holder = none) (n : Nat)
    (hsome : ¬ (s.ring.nread = s.ring.nwrite ∧ s.writeopen = true)) : Awake ((s.take n).wakeWriters) := by
  have hasleep (q : P) (hq : Resting ((s.take n).wakeWriters) q) :
      (s.calls q).asleep = true ∧ (s.calls q).isWrite = false := by
    simpa using asleep_of_resting hq hfree
  refine ⟨fun q hq hr => ?_, fun q hq hw => ?_, fun q hq hk => h.killed q (.inl (hasleep q hq).1) hk⟩
  · obtain ⟨hopen, hnil | hmissed⟩ := h.readers q (.inl (hasleep q hq).1) (by simpa using hr)
    · exact absurd ⟨(RingBuffer.contents_eq_nil_iff _ _).mp hnil, hopen⟩ hsome
    · exact ⟨hopen, .inr hmissed⟩
  · simp [(hasleep q hq).2] at hw

theorem Valid.piperead {s : State P} (h : Valid s) (hfree : s.holder = none) (p : P) (n : Nat)
    (hopen : s.readopen = true) : Valid (s.piperead p n) := by
  unfold State.piperead
  split
  · next hempty =>
    have hnil : s.contents = [] := (RingBuffer.contents_eq_nil_iff _ _).mpr hempty.1
    split
    · exact ⟨h.toHeld.update p rfl rfl (fun q hq => by simp [hq]) (by simp [Call.isWrite]) (fun _ => hopen),
        ⟨h.fits, h.fifo⟩, h.awake.finish hfree p _⟩
    · next hlive =>
      exact ⟨h.toHeld.update p rfl rfl (fun q hq => by simp [hq]) (by simp [Call.isWrite]) (fun _ => hopen),
        ⟨h.fits, h.fifo⟩, h.awake.empty n hnil hempty.2 (Bool.eq_false_iff.mpr hlive)⟩
  · next hsome =>
    have hflow := h.toFlow.take n
    exact ⟨h.toHeld.update p rfl rfl (fun q hq => by simp [hq]) (by simp [Call.isWrite]) (fun _ => hopen),
      ⟨hflow.fits, hflow.fifo⟩, (h.awake.taken hfree n hsome).finish hfree p _⟩

theorem Valid.sleep {s : State P} (h : Valid s) {p : P} (hp : s.holder = some p) : Valid (s.sleep p) := by
  have hcalls (q : P) : ((s.sleep p).calls q).isRead = (s.calls q).isRead ∧
      ((s.sleep p).calls q).isWrite = (s.calls q).isWrite := by
    by_cases hqp : q = p
    · simp [hqp, State.sleep]
    · simp [hqp, State.sleep]
  have hrest (q : P) (hq : Resting (s.sleep p) q) : Resting s q := by
    by_cases hqp : q = p
    · exact .inr (hqp ▸ hp)
    · refine .inl ?_
      have hasleep : ((s.sleep p).calls q).asleep = true := asleep_of_resting hq rfl
      simpa [State.sleep, hqp] using hasleep
  refine ⟨⟨fun hw q => ?_, fun hr q => ?_⟩, ⟨h.fits, h.fifo⟩,
    ⟨fun q hq hr => ?_, fun q hq hw => ?_, fun q hq hk => h.awake.killed q (hrest q hq) hk⟩⟩
  · rw [(hcalls q).2]
    exact h.writers hw q
  · rw [(hcalls q).1]
    exact h.readers hr q
  · exact h.awake.readers q (hrest q hq) ((hcalls q).1 ▸ hr)
  · exact h.awake.writers q (hrest q hq) ((hcalls q).2 ▸ hw)

omit [DecidableEq P] in
theorem Valid.pipeclose {s : State P} (h : Valid s) (hfree : s.holder = none) {writable : Bool}
    (hclose : Orderly s (.close writable)) : Valid (s.pipeclose writable) := by
  cases writable with
  | true =>
    have hasleep (q : P) (hq : Resting (s.pipeclose true) q) :
        (s.calls q).asleep = true ∧ (s.calls q).isRead = false := by
      have hrest : ((s.calls q).wakeReader).asleep = true := asleep_of_resting hq hfree
      simpa using hrest
    refine ⟨⟨fun _ q => ?_, fun hr q => ?_⟩, ⟨h.fits, h.fifo⟩,
      ⟨fun q hq hr => ?_, fun q hq hw => ?_, fun q hq hk => h.awake.killed q (.inl (hasleep q hq).1) hk⟩⟩
    · exact (isWrite_wakeReader _).trans (hclose.2 q)
    · exact (isRead_wakeReader _).trans (h.readers hr q)
    · exact absurd ((isRead_wakeReader _).symm.trans hr) (by simp [(hasleep q hq).2])
    · exact h.awake.writers q (.inl (hasleep q hq).1) ((isWrite_wakeReader _).symm.trans hw)
  | false =>
    have hasleep (q : P) (hq : Resting (s.pipeclose false) q) :
        (s.calls q).asleep = true ∧ (s.calls q).isWrite = false := by
      have hrest : ((s.calls q).wakeWriter).asleep = true := asleep_of_resting hq hfree
      simpa using hrest
    refine ⟨⟨fun hw q => ?_, fun _ q => ?_⟩, ⟨h.fits, h.fifo⟩,
      ⟨fun q hq hr => ?_, fun q hq hw => ?_, fun q hq hk => h.awake.killed q (.inl (hasleep q hq).1) hk⟩⟩
    · exact (isWrite_wakeWriter _).trans (h.writers hw q)
    · exact (isRead_wakeWriter _).trans (hclose.2 q)
    · exact h.awake.readers q (.inl (hasleep q hq).1) ((isRead_wakeWriter _).symm.trans hr)
    · exact absurd ((isWrite_wakeWriter _).symm.trans hw) (by simp [(hasleep q hq).2])

/-- A process that is killed is awake afterwards, unless it was about to sleep. -/
theorem resting_kill {s : State P} {p q : P} (hq : Resting (s.kill p) q) :
    Resting s q ∧ (q = p → s.holder = some p) := by
  by_cases hqp : q = p
  · subst hqp
    have hself : ((s.kill q).calls q).asleep = false := by
      have : ((s.calls q).wakeReader.wakeWriter).asleep = false := by
        cases s.calls q <;> rfl
      simpa [State.kill] using this
    have hholder := hq.resolve_left (by simp [hself])
    exact ⟨.inr hholder, fun _ => hholder⟩
  · refine ⟨hq.imp_left fun hasleep => ?_, fun heq => absurd heq hqp⟩
    simpa [State.kill, hqp] using hasleep

theorem Valid.kill {s : State P} (h : Valid s) (p : P) : Valid (s.kill p) := by
  have hcalls (q : P) : ((s.kill p).calls q).isRead = (s.calls q).isRead ∧
      ((s.kill p).calls q).isWrite = (s.calls q).isWrite := by
    by_cases hqp : q = p
    · simp [hqp, State.kill]
    · simp [hqp, State.kill]
  refine ⟨⟨fun hw q => ?_, fun hr q => ?_⟩, ⟨h.fits, h.fifo⟩,
    ⟨fun q hq hr => ?_, fun q hq hw => ?_, fun q hq hk => ?_⟩⟩
  · rw [(hcalls q).2]
    exact h.writers hw q
  · rw [(hcalls q).1]
    exact h.readers hr q
  · exact h.awake.readers q (resting_kill hq).1 ((hcalls q).1 ▸ hr)
  · exact h.awake.writers q (resting_kill hq).1 ((hcalls q).2 ▸ hw)
  · obtain ⟨hrest, hlate⟩ := resting_kill hq
    by_cases hqp : q = p
    · simp [State.kill, hqp, hlate hqp]
    · have hold : s.killed q = true := by simpa [State.kill, hqp] using hk
      simpa [State.kill, hqp] using h.awake.killed q hrest hold

theorem valid_step {s s' : State P} {e : Event P} (h : Valid s) (he : Orderly s e) (hstep : step s e = .next s') :
    Valid s' := by
  cases e with
  | write p addr =>
    simp only [step] at hstep
    split at hstep
    · cases hstep
    · next hfree =>
      cases hstep
      exact h.pipewrite (by simpa using hfree) p addr.length addr he.2.2
  | read p n =>
    simp only [step] at hstep
    split at hstep
    · cases hstep
    · next hfree =>
      cases hstep
      exact h.piperead (by simpa using hfree) p n he.2.2
  | resume p =>
    simp only [step] at hstep
    split at hstep
    · cases hstep
    next hfree =>
    split at hstep
    · next n left hp =>
      have hopen : s.writeopen = true := by
        by_contra hw
        have hnone := h.writers (Bool.eq_false_iff.mpr hw) p
        simp [hp, Call.isWrite] at hnone
      cases hstep
      exact h.pipewrite (by simpa using hfree) p n left hopen
    · next n hp =>
      have hopen : s.readopen = true := by
        by_contra hr
        have hnone := h.readers (Bool.eq_false_iff.mpr hr) p
        simp [hp, Call.isRead] at hnone
      cases hstep
      exact h.piperead (by simpa using hfree) p n hopen
    · cases hstep
  | sleep p =>
    simp only [step] at hstep
    split at hstep
    · next hp => cases hstep; exact h.sleep hp
    · cases hstep
  | close writable =>
    simp only [step] at hstep
    split at hstep
    · cases hstep
    · next hfree => cases hstep; exact h.pipeclose (by simpa using hfree) he
  | kill p => cases hstep; exact h.kill p

omit [DecidableEq P] in
theorem valid_pipealloc (data : Nat → UInt8) : Valid (pipealloc (P := P) data) := by
  have hnil : (pipealloc (P := P) data).contents = [] := (RingBuffer.contents_eq_nil_iff _ _).mpr rfl
  refine ⟨⟨nofun, nofun⟩, ⟨?_, ?_⟩, ⟨nofun, nofun, nofun⟩⟩
  · rw [hnil]
    exact Nat.zero_le _
  · rw [hnil]
    rfl

variable {s s' s'' : State P} {e : Event P} {es es' : List (Event P)} {data : Nat → UInt8}

theorem valid_run (hrun : Runs step Orderly (pipealloc data) es s) : Valid s :=
  hrun.invariant (fun _ _ _ _ h he hstep => valid_step h he hstep) (valid_pipealloc data)

/-- **A pipe is a queue.** Whatever the processes do and whichever of them are woken, killed
or closed, the bytes that were read and those in the pipe are the bytes that were written,
in order, and at most `PIPESIZE` are in the pipe. -/
theorem pipe_fifo (hrun : Runs step Orderly (pipealloc data) es s) :
    s.received ++ s.contents = s.sent ∧ s.contents.length ≤ pipeSize :=
  ⟨(valid_run hrun).fifo, (valid_run hrun).fits⟩

/-- A write is given up while a reader sleeps: the writer was killed, and the pipe is full. -/
theorem missed_pipewrite {p q : P} {n : Nat} {left : List UInt8} (h : Valid s) (hbefore : s.missed q = false)
    (hafter : (s.pipewrite p n left).missed q = true) :
    s.killed p = true ∧ s.readopen = true ∧ (s.calls q).isRead = true ∧ (s.calls q).asleep = true ∧
      (s.pipewrite p n left).result p = some (-1) ∧ (s.pipewrite p n left).contents.length = pipeSize := by
  obtain ⟨fits, _, _, _, _, hfull⟩ := put_spec h.toFlow left
  unfold State.pipewrite at hafter ⊢
  split at hafter
  · cases hafter
  · next b rest hrest =>
    have hne : (s.ring.fill pipeSize left).2 ≠ [] := by rw [hrest]; exact List.cons_ne_nil b rest
    split at hafter
    · next hgive =>
      obtain ⟨hread, hasleep⟩ : (s.calls q).isRead = true ∧ (s.calls q).asleep = true := by
        simpa [hbefore] using hafter
      have hopen : s.readopen = true := by
        by_contra hr
        have hnone := h.readers (Bool.eq_false_iff.mpr hr) q
        rw [hread] at hnone
        cases hnone
      have hkilled : s.killed p = true := hgive.resolve_left (by simp [hopen])
      refine ⟨hkilled, hopen, hread, hasleep, ?_⟩
      rw [if_pos hgive]
      exact ⟨by simp [State.finish], hfull hne⟩
    · cases hafter

/-- Process `p` is in `pipewrite` when the event happens. -/
def Writes (s : State P) (p : P) : Event P → Prop
  | .write q _ => q = p
  | .resume q => q = p ∧ (s.calls p).isWrite = true
  | _ => False

theorem missed_step {q : P} (h : Valid s) (hstep : step s e = .next s') (hbefore : s.missed q = false)
    (hafter : s'.missed q = true) :
    ∃ p, Writes s p e ∧ s.killed p = true ∧ s.readopen = true ∧ (s.calls q).isRead = true ∧
      (s.calls q).asleep = true ∧ s'.result p = some (-1) ∧ s'.contents.length = pipeSize := by
  have hread (p : P) (n : Nat) : (s.piperead p n).missed q = false := by
    unfold State.piperead
    split
    · split <;> exact hbefore
    · exact hbefore
  cases e with
  | write p addr =>
    simp only [step] at hstep
    split at hstep
    · cases hstep
    · cases hstep
      exact ⟨p, rfl, missed_pipewrite h hbefore hafter⟩
  | read p n =>
    simp only [step] at hstep
    split at hstep
    · cases hstep
    · cases hstep
      rw [hread p n] at hafter
      cases hafter
  | resume p =>
    simp only [step] at hstep
    split at hstep
    · cases hstep
    split at hstep
    · next n left hp =>
      cases hstep
      exact ⟨p, ⟨rfl, by rw [hp]; rfl⟩, missed_pipewrite h hbefore hafter⟩
    · next n hp =>
      cases hstep
      rw [hread p n] at hafter
      cases hafter
    · cases hstep
  | sleep p =>
    simp only [step] at hstep
    split at hstep
    · cases hstep
      exact absurd (hbefore.symm.trans hafter) Bool.false_ne_true
    · cases hstep
  | close writable =>
    simp only [step] at hstep
    split at hstep
    · cases hstep
    · cases hstep
      cases writable with
      | true => cases hafter
      | false => exact absurd (hbefore.symm.trans hafter) Bool.false_ne_true
  | kill p =>
    cases hstep
    exact absurd (hbefore.symm.trans hafter) Bool.false_ne_true

/-- **No wakeup is lost.** A writer sleeps only while the pipe is full and the other end open, a
reader only while the other end is open and the pipe is empty; neither is killed then, unless the
`kill` came when it was about to sleep. The one exception are readers that have missed a write
(`missed`): those that slept when a killed writer, having filled the pipe, gave up, until the
readers are next woken. -/
theorem no_lost_wakeup (hrun : Runs step Orderly (pipealloc data) es s) :
    (∀ p n left, s.calls p = .write n left true →
      s.contents.length = pipeSize ∧ s.readopen = true ∧ (s.killed p = true → s.late p = true)) ∧
    (∀ p n, s.calls p = .read n true →
      s.writeopen = true ∧ (s.contents = [] ∨ s.missed p = true) ∧ (s.killed p = true → s.late p = true)) ∧
    ∀ e s' q, step s e = .next s' → s.missed q = false → s'.missed q = true →
      ∃ p, Writes s p e ∧ s.killed p = true ∧ s.readopen = true ∧ (s.calls q).isRead = true ∧
        (s.calls q).asleep = true ∧ s'.result p = some (-1) ∧ s'.contents.length = pipeSize := by
  have h := valid_run hrun
  refine ⟨fun p n left hp => ?_, fun p n hp => ?_, fun e s' q hstep => missed_step h hstep⟩
  · have hrest : Resting s p := .inl (by rw [hp]; rfl)
    obtain ⟨hfull, hopen⟩ := h.awake.writers p hrest (by rw [hp]; rfl)
    exact ⟨hfull, hopen, h.awake.killed p hrest⟩
  · have hrest : Resting s p := .inl (by rw [hp]; rfl)
    obtain ⟨hopen, hempty⟩ := h.awake.readers p hrest (by rw [hp]; rfl)
    exact ⟨hopen, hempty, h.awake.killed p hrest⟩

/-- A reader sleeps, and a writer that has been killed fills the pipe and gives up. -/
def stranded : State Bool :=
  ((((pipealloc fun _ => 0).piperead false 10).sleep false).kill true).pipewrite true
    (List.replicate 513 (0 : UInt8)).length (List.replicate 513 0)

theorem stranded_runs : Runs step Orderly (pipealloc fun _ => 0)
    [.read false 10, .sleep false, .kill true, .write true (List.replicate 513 0)] stranded :=
  .cons ⟨rfl, rfl, rfl⟩ rfl (.cons trivial rfl (.cons trivial rfl (.cons ⟨rfl, rfl, rfl⟩ rfl .nil)))

theorem pipe_fifo_stranded : stranded.received ++ stranded.contents = stranded.sent ∧
    stranded.contents.length ≤ pipeSize :=
  pipe_fifo stranded_runs

/-- The reader is asleep beside a full pipe, which it has missed. -/
theorem no_lost_wakeup_but_stranded :
    (stranded.calls false = .read 10 true ∧ stranded.ring.length = pipeSize ∧ stranded.missed false = true) ∧
    (∀ p n left, stranded.calls p = .write n left true →
      stranded.contents.length = pipeSize ∧ stranded.readopen = true ∧
        (stranded.killed p = true → stranded.late p = true)) ∧
    ∀ p n, stranded.calls p = .read n true →
      stranded.writeopen = true ∧ (stranded.contents = [] ∨ stranded.missed p = true) ∧
        (stranded.killed p = true → stranded.late p = true) :=
  ⟨by decide +kernel, (no_lost_wakeup stranded_runs).1, (no_lost_wakeup stranded_runs).2.1⟩

/-- A writer that is killed between its test and its sleep sleeps on. -/
def overslept : State Bool :=
  ((((pipealloc fun _ => 0).pipewrite true 513 (List.replicate 513 0)).kill true).sleep true)

example : (overslept.calls true).asleep = true ∧ overslept.killed true = true ∧ overslept.late true = true := by
  decide +kernel

/-! ### The end of the file -/

/-- Nothing is in the pipe, nothing more will come, and `sent` is what came. -/
structure Ended (sent : List UInt8) (s : State P) : Prop extends Valid s where
  writeopen : s.writeopen = false
  empty : s.contents = []
  sent : s.sent = sent

theorem piperead_keeps (s : State P) (p : P) (n : Nat) : (s.piperead p n).sent = s.sent ∧
    (s.piperead p n).writeopen = s.writeopen ∧ (s.contents = [] → (s.piperead p n).contents = []) := by
  unfold State.piperead
  split
  · split <;> exact ⟨rfl, rfl, id⟩
  · refine ⟨rfl, rfl, fun hnil => ?_⟩
    obtain ⟨hcontents, _, _⟩ := RingBuffer.drain_spec (s := s.ring) pipeSize_dvd n
    exact (List.append_eq_nil_iff.mp (hcontents.symm.trans hnil)).2

/-- `piperead` returns 0 only where nothing is left and the other end is closed. -/
theorem piperead_zero {s : State P} {p : P} {n : Nat} (hn : 0 < n)
    (hcall : (s.piperead p n).calls p = .none) (hzero : (s.piperead p n).result p = some 0) :
    s.contents = [] ∧ s.writeopen = false := by
  unfold State.piperead at hcall hzero
  split at hcall
  · next hempty =>
    rw [if_pos hempty] at hzero
    split at hcall
    · next hk => simp [hk, State.finish] at hzero
    · simp at hcall
  · next hsome =>
    rw [if_neg hsome] at hzero
    obtain ⟨hcontents, _, hless⟩ := RingBuffer.drain_spec (s := s.ring) pipeSize_dvd n
    have hnone : (s.ring.drain pipeSize n).2 = [] := by simpa [State.finish] using hzero
    have hnil : s.contents = [] := by
      rw [State.contents, hcontents, hless (by rw [hnone]; exact hn), hnone]
      rfl
    refine ⟨hnil, Bool.eq_false_iff.mpr fun hw => hsome ⟨(RingBuffer.contents_eq_nil_iff _ _).mp hnil, hw⟩⟩

theorem Ended.piperead {sent : List UInt8} {p : P} {n : Nat} (h : Ended sent s)
    (hvalid : Valid (s.piperead p n)) : Ended sent (s.piperead p n) := by
  obtain ⟨hsent, hw, hnil⟩ := piperead_keeps s p n
  exact ⟨hvalid, hw.trans h.writeopen, hnil h.empty, hsent.trans h.sent⟩

theorem ended_step {sent : List UInt8} (h : Ended sent s) (he : Orderly s e) (hstep : step s e = .next s') :
    Ended sent s' := by
  have hvalid := valid_step h.toValid he hstep
  cases e with
  | write p addr => exact absurd (h.writeopen.symm.trans he.2.2) Bool.false_ne_true
  | read p n =>
    simp only [step] at hstep
    split at hstep
    · cases hstep
    · cases hstep; exact h.piperead hvalid
  | resume p =>
    simp only [step] at hstep
    split at hstep
    · cases hstep
    split at hstep
    · next n left hp =>
      have hnone := h.writers h.writeopen p
      simp [hp, Call.isWrite] at hnone
    · cases hstep; exact h.piperead hvalid
    · cases hstep
  | sleep p =>
    simp only [step] at hstep
    split at hstep
    · cases hstep; exact ⟨hvalid, h.writeopen, h.empty, h.sent⟩
    · cases hstep
  | close writable =>
    simp only [step] at hstep
    split at hstep
    · cases hstep
    · cases hstep
      cases writable
      · exact ⟨hvalid, h.writeopen, h.empty, h.sent⟩
      · exact ⟨hvalid, rfl, h.empty, h.sent⟩
  | kill p => cases hstep; exact ⟨hvalid, h.writeopen, h.empty, h.sent⟩

/-- **The end of the file is the end.** When a read of some bytes returns none, all that was
ever written has been read, and that stays so whatever happens afterwards. -/
theorem eof_final {p : P} {n : Nat} (hrun : Runs step Orderly (pipealloc data) es s) (he : Orderly s e)
    (hstep : step s e = .next s') (hreads : Reads s p n e) (hn : 0 < n)
    (hcall : s'.calls p = .none) (hzero : s'.result p = some 0) (hrest : Runs step Orderly s' es' s'') :
    s''.received = s.sent ∧ s''.sent = s.sent := by
  have hvalid := valid_run hrun
  have hnext : s' = s.piperead p n := by
    cases e with
    | read q m =>
      obtain ⟨rfl, rfl⟩ := hreads
      simp only [step] at hstep
      split at hstep
      · cases hstep
      · cases hstep; rfl
    | resume q =>
      obtain ⟨rfl, hq⟩ := hreads
      simp only [step, hq] at hstep
      split at hstep
      · cases hstep
      · cases hstep; rfl
    | _ => exact hreads.elim
  obtain ⟨hnil, hw⟩ := piperead_zero hn (hnext ▸ hcall) (hnext ▸ hzero)
  obtain ⟨hsent, hw', hnil'⟩ := piperead_keeps s p n
  rw [← hnext] at hsent hw' hnil'
  have hended : Ended s.sent s' := ⟨valid_step hvalid he hstep, hw'.trans hw, hnil' hnil, hsent⟩
  have hend : Ended s.sent s'' := hrest.invariant (fun _ _ _ _ h he hstep => ended_step h he hstep) hended
  have hfifo := hend.fifo
  rw [hend.empty, List.append_nil, hend.sent] at hfifo
  exact ⟨hfifo, hend.sent⟩

/-- Two bytes are written and read, and the writer closes its end. -/
def spent : State Bool :=
  (((pipealloc fun _ => 0).pipewrite true [1, 2].length [1, 2]).piperead false 2).pipeclose true

theorem spent_runs : Runs step Orderly (pipealloc fun _ => 0) [.write true [1, 2], .read false 2, .close true] spent :=
  .cons ⟨rfl, rfl, rfl⟩ rfl (.cons ⟨rfl, rfl, rfl⟩ rfl (.cons ⟨rfl, by decide +kernel⟩ rfl .nil))

theorem eof_final_spent : (spent.piperead false 1).received = spent.sent ∧
    (spent.piperead false 1).sent = spent.sent :=
  eof_final spent_runs (e := .read false 1) (p := false) (n := 1)
    ⟨by decide +kernel, by decide +kernel, by decide +kernel⟩ rfl ⟨rfl, rfl⟩ (by decide)
    (by decide +kernel) (by decide +kernel) .nil

end CompilingToAssembly.Xv6.Pipe
