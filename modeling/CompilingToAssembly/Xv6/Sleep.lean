import CompilingToAssembly.Library.Machine

/-! `sleep` and `wakeup`, one access to a lock at a time.

`lk` protects a condition. Some processes wait for the condition, as in

  acquire(lk); while(!condition) sleep(chan, lk); ...; release(lk);

and others make it true, as in

  acquire(lk); condition = true; wakeup(chan); release(lk);

The processes take turns in any order. Between two turns of one process the others may
take or leave either lock. Each runs on a processor of its own, on which `acquire` and
`release` also count the locks and turn interrupts off and on. -/
namespace CompilingToAssembly.Xv6.Sleep
open Library

/-- What a process does at its next turn. -/
inductive Pc where
  /-- Nothing: it is somewhere else. -/
  | out
  /-- `acquire(lk)`, to wait for the condition or to make it true. -/
  | enter (waits : Bool)
  /-- `while(!condition)`. -/
  | test
  /-- In `sleep`: `acquire(&ptable.lock)`. -/
  | sleepAcquire
  /-- In `sleep`: `release(lk)`. -/
  | sleepRelease
  /-- In `sleep`: `p->chan = chan; p->state = SLEEPING; sched()`. -/
  | sleepSched
  /-- In `sleep`: to be chosen by `scheduler`. -/
  | switched
  /-- In `sleep`: `p->chan = 0; release(&ptable.lock)`. -/
  | sleepTidy
  /-- In `sleep`: `acquire(lk)`. -/
  | sleepReacquire
  /-- The condition holds. -/
  | use
  /-- `condition = true`. -/
  | set
  /-- In `wakeup`: `acquire(&ptable.lock)`. -/
  | wakeAcquire
  /-- In `wakeup`: `wakeup1(chan)`. -/
  | wakeMark
  /-- In `wakeup`: `release(&ptable.lock)`. -/
  | wakeRelease
  /-- `release(lk)`. -/
  | leave
  deriving DecidableEq

/-- Whether the process holds `lk` before its next turn. -/
def Pc.holdsLk : Pc → Bool
  | .test | .sleepAcquire | .sleepRelease | .use | .set | .wakeAcquire | .wakeMark | .wakeRelease | .leave => true
  | .out | .enter _ | .sleepSched | .switched | .sleepTidy | .sleepReacquire => false

def Pc.holdsPtable : Pc → Bool
  | .sleepRelease | .sleepSched | .sleepTidy | .wakeMark | .wakeRelease => true
  | .out | .enter _ | .test | .sleepAcquire | .switched | .sleepReacquire | .use | .set | .wakeAcquire | .leave => false

inductive ProcState where
  | sleeping
  | runnable
  | running
  deriving DecidableEq

/-- The processor that a process runs on: `ncli`, `intena` and the flag `FL_IF`. Of a process
that is not running it is what it finds when it goes on. -/
structure Cpu where
  ncli : Nat
  intena : Bool
  interrupts : Bool

def Cpu.pushcli (c : Cpu) : Cpu := ⟨c.ncli + 1, if c.ncli = 0 then c.interrupts else c.intena, false⟩

def Cpu.popcli (c : Cpu) : Except String Cpu :=
  if c.interrupts then .error "popcli - interruptible"
  else if c.ncli = 0 then .error "popcli"
  else .ok { c with ncli := c.ncli - 1, interrupts := c.ncli = 1 && c.intena }

/-- The one `chan` is that of the condition: who sleeps, sleeps on it. -/
structure State (P : Type) where
  pc : P → Pc
  state : P → ProcState
  cpu : P → Cpu
  lk : Option P
  ptable : Option P
  condition : Bool

inductive Event (P : Type) where
  | call (p : P) (waits : Bool)
  /-- Process `p`, somewhere else, turns interrupts on or off. -/
  | interrupts (p : P) (on : Bool)
  /-- The next turn of process `p`. -/
  | turn (p : P)
  /-- What process `p` makes of the condition while it holds. -/
  | use (p : P) (condition : Bool)
  /-- `scheduler` chooses process `p`. -/
  | scheduler (p : P)
  | kill (p : P)

def State.asleep {P : Type} (s : State P) (p : P) : Bool := s.state p = .sleeping

variable {P : Type} [DecidableEq P]

namespace State

def initial : State P := ⟨fun _ => .out, fun _ => .running, fun _ => ⟨0, false, true⟩, none, none, false⟩

def goto (s : State P) (p : P) (pc : Pc) : State P := { s with pc := Function.update s.pc p pc }

def setCpu (s : State P) (p : P) (c : Cpu) : State P := { s with cpu := Function.update s.cpu p c }

/-- `sched`: back to `scheduler`, which releases the lock of the table. -/
def sched (s : State P) (p : P) : Turn (State P) :=
  if s.ptable ≠ some p then .panics "sched ptable.lock"
  else if (s.cpu p).ncli ≠ 1 then .panics "sched locks"
  else if s.state p = .running then .panics "sched running"
  else if (s.cpu p).interrupts then .panics "sched interruptible"
  else .next { s.goto p .switched with ptable := none }

/-- `wakeup1`, for `chan`. -/
def wakeup1 (s : State P) : State P :=
  { s with state := fun p => if s.state p = .sleeping then .runnable else s.state p }

end State

/-- `acquire`: the lock is taken, unless somebody has it. -/
def acquire (lock : Option P) (s : State P) (p : P) (next : Option P → State P → State P) : Turn (State P) :=
  let s := s.setCpu p (s.cpu p).pushcli
  if lock = some p then .panics "acquire"
  else if lock = none then .next (next (some p) s)
  else .waits

def release (lock : Option P) (s : State P) (p : P) (next : Option P → State P → State P) : Turn (State P) :=
  if lock ≠ some p then .panics "release"
  else
    match (s.cpu p).popcli with
    | .error message => .panics message
    | .ok c => .next (next none (s.setCpu p c))

def turn (s : State P) (p : P) : Turn (State P) :=
  match s.pc p with
  | .out => .waits
  | .enter waits => acquire s.lk s p fun lk s => { s.goto p (if waits then .test else .set) with lk := lk }
  | .test => .next (s.goto p (if s.condition then .use else .sleepAcquire))
  | .sleepAcquire => acquire s.ptable s p fun lock s => { s.goto p .sleepRelease with ptable := lock }
  | .sleepRelease => release s.lk s p fun lk s => { s.goto p .sleepSched with lk := lk }
  | .sleepSched => { s with state := Function.update s.state p .sleeping }.sched p
  | .switched => .waits
  | .sleepTidy => release s.ptable s p fun lock s => { s.goto p .sleepReacquire with ptable := lock }
  | .sleepReacquire => acquire s.lk s p fun lk s => { s.goto p .test with lk := lk }
  | .use => .waits
  | .set => .next { s.goto p .wakeAcquire with condition := true }
  | .wakeAcquire => acquire s.ptable s p fun lock s => { s.goto p .wakeMark with ptable := lock }
  | .wakeMark => .next (s.goto p .wakeRelease).wakeup1
  | .wakeRelease => release s.ptable s p fun lock s => { s.goto p .leave with ptable := lock }
  | .leave => release s.lk s p fun lk s => { s.goto p .out with lk := lk }

def step (s : State P) : Event P → Turn (State P)
  | .call p waits => if s.pc p = .out then .next (s.goto p (.enter waits)) else .waits
  | .interrupts p on => if s.pc p = .out then .next (s.setCpu p { s.cpu p with interrupts := on }) else .waits
  | .turn p => turn s p
  | .use p condition => if s.pc p = .use then .next { s.goto p .leave with condition := condition } else .waits
  | .scheduler p =>
    -- the lock, which `scheduler` has acquired, is passed to the process that is chosen
    if s.pc p = .switched ∧ s.state p = .runnable ∧ s.ptable = none then
      .next { (s.goto p .sleepTidy).setCpu p ⟨1, (s.cpu p).intena, false⟩ with
        state := Function.update s.state p .running, ptable := some p }
    else .waits
  | .kill p =>
    if s.ptable = none then
      .next (if s.state p = .sleeping then { s with state := Function.update s.state p .runnable } else s)
    else .waits

/-- Every order of turns is possible. -/
def Any (_ : State P) (_ : Event P) : Prop := True

/-! ### The invariant -/

structure Valid (s : State P) : Prop where
  lk : ∀ p, s.lk = some p ↔ (s.pc p).holdsLk = true
  ptable : ∀ p, s.ptable = some p ↔ (s.pc p).holdsPtable = true
  running : ∀ p, s.state p = .running ↔ s.pc p ≠ .switched
  /-- Who is about to sleep has found the condition false, and nobody else has `lk`. -/
  tested : ∀ p, s.pc p = .sleepAcquire ∨ s.pc p = .sleepRelease → s.condition = false
  used : ∀ p, s.pc p = .use → s.condition = true
  /-- If the condition holds, somebody is on the way to wake those who sleep, and those who
  are about to. -/
  noticed : ∀ p, s.asleep p = true ∨ s.pc p = .sleepSched → s.condition = true →
    ∃ q, s.pc q = .wakeAcquire ∨ s.pc q = .wakeMark

variable {s s' : State P} {p : P} {pc : Pc}

/-- A lock changes hands as `p` goes on. -/
def Passes (holds : Pc → Bool) (was pc : Pc) (p : P) (lock lock' : Option P) : Prop :=
  (holds pc = holds was ∧ lock' = lock) ∨ (holds pc = true ∧ lock = none ∧ lock' = some p) ∨
    (holds pc = false ∧ lock = some p ∧ lock' = none)

theorem Passes.owner {holds : Pc → Bool} {lock lock' : Option P} (hp : Passes holds (s.pc p) pc p lock lock')
    (h : ∀ q, lock = some q ↔ holds (s.pc q) = true) (q : P) :
    lock' = some q ↔ holds (Function.update s.pc p pc q) = true := by
  by_cases hq : q = p
  · subst hq
    rw [Function.update_self]
    rcases hp with ⟨hsame, rfl⟩ | ⟨hholds, _, rfl⟩ | ⟨hholds, _, rfl⟩
    · rw [hsame]
      exact h q
    · simp [hholds]
    · simp [hholds]
  · rw [Function.update_of_ne hq, ← h q]
    rcases hp with ⟨_, rfl⟩ | ⟨_, rfl, rfl⟩ | ⟨_, rfl, rfl⟩
    · rfl
    · simpa using Ne.symm hq
    · simpa using Ne.symm hq

omit [DecidableEq P] in
theorem asleep_eq_true : s.asleep p = true ↔ s.state p = .sleeping := by
  simp [State.asleep]

/-- Process `p` goes on, and nothing else happens than that locks change hands. -/
theorem Valid.move (h : Valid s) (p : P) (pc : Pc) (hlk : Passes Pc.holdsLk (s.pc p) pc p s.lk s'.lk)
    (hptable : Passes Pc.holdsPtable (s.pc p) pc p s.ptable s'.ptable) (hpc : s'.pc = Function.update s.pc p pc)
    (hstate : s'.state = Function.update s.state p .running) (hcondition : s'.condition = s.condition)
    (hruns : pc ≠ .switched)
    (htested : pc = .sleepAcquire ∨ pc = .sleepRelease ∨ pc = .sleepSched → s.condition = false)
    (hused : pc = .use → s.condition = true)
    (hwake : s.pc p = .wakeAcquire ∨ s.pc p = .wakeMark → pc = .wakeAcquire ∨ pc = .wakeMark) : Valid s' := by
  have hself : s'.pc p = pc := by rw [hpc, Function.update_self]
  have hother : ∀ q, q ≠ p → s'.pc q = s.pc q := fun q hq => by rw [hpc, Function.update_of_ne hq]
  have hslept : ∀ q, s'.asleep q = true → q ≠ p ∧ s.asleep q = true := by
    intro q hq
    rw [asleep_eq_true, hstate] at hq
    by_cases hqp : q = p
    · simp [hqp] at hq
    · rw [Function.update_of_ne hqp] at hq
      exact ⟨hqp, asleep_eq_true.mpr hq⟩
  refine ⟨hpc ▸ hlk.owner h.lk, hpc ▸ hptable.owner h.ptable, fun q => ?_, fun q hq => ?_, fun q hq => ?_,
    fun q hq htrue => ?_⟩
  · rw [hstate]
    by_cases hqp : q = p
    · rw [hqp, Function.update_self, hself]
      simp [hruns]
    · rw [Function.update_of_ne hqp, hother q hqp]
      exact h.running q
  · rw [hcondition]
    by_cases hqp : q = p
    · rw [hqp, hself] at hq
      exact htested (hq.imp_right .inl)
    · rw [hother q hqp] at hq
      exact h.tested q hq
  · rw [hcondition]
    by_cases hqp : q = p
    · rw [hqp, hself] at hq
      exact hused hq
    · rw [hother q hqp] at hq
      exact h.used q hq
  · rw [hcondition] at htrue
    have hwas : s.asleep q = true ∨ s.pc q = .sleepSched := by
      refine hq.imp (fun hq => (hslept q hq).2) fun hq => ?_
      by_cases hqp : q = p
      · rw [hqp, hself] at hq
        simp [htested (.inr (.inr hq))] at htrue
      · rwa [hother q hqp] at hq
    obtain ⟨r, hr⟩ := h.noticed q hwas htrue
    by_cases hrp : r = p
    · subst hrp
      exact ⟨r, hself ▸ hwake hr⟩
    · exact ⟨r, by rwa [hother r hrp]⟩

theorem acquire_next {lock : Option P} {f : Option P → State P → State P} (h : acquire lock s p f = .next s') :
    lock = none ∧ s' = f (some p) (s.setCpu p (s.cpu p).pushcli) := by
  unfold acquire at h
  dsimp only at h
  split at h
  · cases h
  · split at h
    · next hnone =>
      cases h
      exact ⟨hnone, rfl⟩
    · cases h

theorem release_next {lock : Option P} {f : Option P → State P → State P} (h : release lock s p f = .next s') :
    lock = some p ∧ ∃ c, (s.cpu p).popcli = .ok c ∧ s' = f none (s.setCpu p c) := by
  unfold release at h
  split at h
  · cases h
  · next hp =>
    split at h
    · cases h
    · next c hc =>
      cases h
      exact ⟨not_not.mp hp, c, hc, rfl⟩

section Owners
omit [DecidableEq P]

theorem Valid.lk_unique (h : Valid s) {q : P} (hp : (s.pc p).holdsLk = true) (hq : (s.pc q).holdsLk = true) : p = q :=
  Option.some.inj (((h.lk p).mpr hp).symm.trans ((h.lk q).mpr hq))

theorem Valid.ptable_unique (h : Valid s) {q : P} (hp : (s.pc p).holdsPtable = true)
    (hq : (s.pc q).holdsPtable = true) : p = q :=
  Option.some.inj (((h.ptable p).mpr hp).symm.trans ((h.ptable q).mpr hq))

theorem Valid.switched (h : Valid s) (hp : s.asleep p = true) : s.pc p = .switched := by
  by_contra hpc
  rw [asleep_eq_true, (h.running p).mpr hpc] at hp
  cases hp

/-- Where somebody has `lk` and is not about to wake the others, nobody needs to be woken. -/
theorem Valid.unnoticed (h : Valid s) (hp : (s.pc p).holdsLk = true) (hnot : s.pc p ≠ .wakeAcquire ∧ s.pc p ≠ .wakeMark)
    (htrue : s.condition = true) (q : P) : ¬ (s.asleep q = true ∨ s.pc q = .sleepSched) := by
  intro hq
  obtain ⟨r, hr⟩ := h.noticed q hq htrue
  have hholds : (s.pc r).holdsLk = true := by
    rcases hr with hr | hr <;> rw [hr] <;> rfl
  obtain rfl := h.lk_unique hp hholds
  exact hr.elim hnot.1 hnot.2

end Owners

theorem Valid.still (h : Valid s) (hp : s.pc p ≠ .switched) : s.state = Function.update s.state p .running := by
  rw [← (h.running p).mpr hp, Function.update_eq_self]

theorem Valid.running_goto (h : Valid s) (hp : s.pc p ≠ .switched) (hpc : pc ≠ .switched) (q : P) :
    s.state q = .running ↔ Function.update s.pc p pc q ≠ .switched := by
  rw [h.running q]
  by_cases hqp : q = p
  · simp [hqp, hp, hpc]
  · rw [Function.update_of_ne hqp]

/-- `p->state = SLEEPING; sched()`. -/
theorem Valid.sched (h : Valid s) (hpc : s.pc p = .sleepSched) :
    Valid { s.goto p .switched with state := Function.update s.state p .sleeping, ptable := none } := by
  have hlock := (h.ptable p).mpr (by rw [hpc]; rfl)
  have hother : ∀ q, q ≠ p → Function.update s.pc p .switched q = s.pc q := fun q hq => Function.update_of_ne hq ..
  refine ⟨Passes.owner (.inl ⟨by rw [hpc]; rfl, rfl⟩) h.lk, Passes.owner (.inr (.inr ⟨rfl, hlock, rfl⟩)) h.ptable,
    fun q => ?_, fun q hq => ?_, fun q hq => ?_, fun q hq htrue => ?_⟩
  · by_cases hqp : q = p
    · simp [State.goto, hqp]
    · simp only [State.goto, Function.update_of_ne hqp]
      exact h.running q
  · by_cases hqp : q = p
    · simp [State.goto, hqp] at hq
    · simp only [State.goto, hother q hqp] at hq
      exact h.tested q hq
  · by_cases hqp : q = p
    · simp [State.goto, hqp] at hq
    · simp only [State.goto, hother q hqp] at hq
      exact h.used q hq
  · obtain ⟨r, hr⟩ := h.noticed p (.inr hpc) htrue
    have hrp : r ≠ p := by
      rintro rfl
      simp [hpc] at hr
    exact ⟨r, by simpa only [State.goto, hother r hrp] using hr⟩

/-- `condition = true`. -/
theorem Valid.set (h : Valid s) (hpc : s.pc p = .set) : Valid { s.goto p .wakeAcquire with condition := true } := by
  have hholds : (s.pc p).holdsLk = true := by rw [hpc]; rfl
  have hother : ∀ q, q ≠ p → Function.update s.pc p .wakeAcquire q = s.pc q := fun q hq => Function.update_of_ne hq ..
  refine ⟨Passes.owner (.inl ⟨by rw [hpc]; rfl, rfl⟩) h.lk, Passes.owner (.inl ⟨by rw [hpc]; rfl, rfl⟩) h.ptable,
    h.running_goto (by simp [hpc]) nofun, fun q hq => ?_, fun q hq => rfl,
    fun q hq _ => ⟨p, .inl (Function.update_self ..)⟩⟩
  · have hqp : q ≠ p := by
      rintro rfl
      simp [State.goto] at hq
    simp only [State.goto, hother q hqp] at hq
    -- who has just found the condition false has `lk` still
    have hq' : (s.pc q).holdsLk = true := by
      rcases hq with hq | hq <;> rw [hq] <;> rfl
    exact absurd (h.lk_unique hq' hholds) hqp

/-- `wakeup1(chan)`. -/
theorem Valid.mark (h : Valid s) (hpc : s.pc p = .wakeMark) :
    Valid (s.goto p .wakeRelease).wakeup1 := by
  have hother : ∀ q, q ≠ p → Function.update s.pc p .wakeRelease q = s.pc q := fun q hq => Function.update_of_ne hq ..
  refine ⟨Passes.owner (.inl ⟨by rw [hpc]; rfl, rfl⟩) h.lk, Passes.owner (.inl ⟨by rw [hpc]; rfl, rfl⟩) h.ptable,
    fun q => ?_, fun q hq => ?_, fun q hq => ?_, fun q hq _ => ?_⟩
  · have hrunning : (s.goto p .wakeRelease).wakeup1.state q = .running ↔ s.state q = .running := by
      by_cases hasleep : s.state q = .sleeping
      · simp [State.wakeup1, State.goto, hasleep]
      · simp [State.wakeup1, State.goto, hasleep]
    have hgoto : s.state q = .running ↔ Function.update s.pc p .wakeRelease q ≠ .switched :=
      h.running_goto (by simp [hpc]) (by simp) q
    exact hrunning.trans hgoto
  · by_cases hqp : q = p
    · simp [State.wakeup1, State.goto, hqp] at hq
    · simp only [State.wakeup1, State.goto, hother q hqp] at hq
      exact h.tested q hq
  · by_cases hqp : q = p
    · simp [State.wakeup1, State.goto, hqp] at hq
    · simp only [State.wakeup1, State.goto, hother q hqp] at hq
      exact h.used q hq
  · -- who is about to sleep has the lock of the table, and so has `p`
    have hsched : s.pc q = .sleepSched := by
      rcases hq with hq | hq
      · by_cases hasleep : s.state q = .sleeping
        · simp [State.asleep, State.wakeup1, State.goto, hasleep] at hq
        · simp [State.asleep, State.wakeup1, State.goto, hasleep] at hq
      · by_cases hqp : q = p
        · simp [State.wakeup1, State.goto, hqp] at hq
        · simpa only [State.wakeup1, State.goto, hother q hqp] using hq
    obtain rfl := h.ptable_unique (p := q) (q := p) (by rw [hsched]; rfl) (by rw [hpc]; rfl)
    simp [hpc] at hsched

theorem Valid.use (h : Valid s) (hpc : s.pc p = .use) (condition : Bool) :
    Valid { s.goto p .leave with condition := condition } := by
  have hholds : (s.pc p).holdsLk = true := by rw [hpc]; rfl
  have hother : ∀ q, q ≠ p → Function.update s.pc p .leave q = s.pc q := fun q hq => Function.update_of_ne hq ..
  have hnone := h.unnoticed hholds (by simp [hpc]) (h.used p hpc)
  refine ⟨Passes.owner (.inl ⟨by rw [hpc]; rfl, rfl⟩) h.lk, Passes.owner (.inl ⟨by rw [hpc]; rfl, rfl⟩) h.ptable,
    h.running_goto (by simp [hpc]) nofun, fun q hq => ?_, fun q hq => ?_,
    fun q hq _ => absurd (hq.imp_right fun hq => ?_) (hnone q)⟩
  all_goals
    have hqp : q ≠ p := by
      rintro rfl
      simp [State.goto] at hq
    simp only [State.goto, hother q hqp] at hq
  · exact absurd (h.lk_unique (p := q) (by rcases hq with hq | hq <;> rw [hq] <;> rfl) hholds) hqp
  · exact absurd (h.lk_unique (p := q) (by rw [hq]; rfl) hholds) hqp
  · exact hq

theorem sched_next (h : { s with state := Function.update s.state p .sleeping }.sched p = .next s') :
    s' = { s.goto p .switched with state := Function.update s.state p .sleeping, ptable := none } := by
  unfold State.sched at h
  split at h
  · cases h
  · split at h
    · cases h
    · split at h
      · cases h
      · split at h <;> cases h
        rfl

theorem Valid.kill (h : Valid s) (p : P) :
    Valid (if s.state p = .sleeping then { s with state := Function.update s.state p .runnable } else s) := by
  split
  · next hp =>
    refine ⟨h.lk, h.ptable, fun q => ?_, h.tested, h.used, fun q hq => h.noticed q (hq.imp_left fun hq => ?_)⟩
    · by_cases hqp : q = p
      · simp only [hqp, Function.update_self, ← h.running p, hp]
        simp
      · simp only [Function.update_of_ne hqp]
        exact h.running q
    · rw [asleep_eq_true] at hq ⊢
      by_cases hqp : q = p
      · exact hqp ▸ hp
      · simpa only [Function.update_of_ne hqp] using hq
  · exact h

theorem Valid.turn (h : Valid s) (hstep : turn s p = .next s') : Valid s' := by
  have hstill : s.pc p ≠ .switched → s.state = Function.update s.state p .running := h.still
  cases hpc : s.pc p <;> simp only [Sleep.turn, hpc] at hstep
  case out => cases hstep
  case switched => cases hstep
  case use => cases hstep
  case enter waits =>
    obtain ⟨hfree, rfl⟩ := acquire_next hstep
    cases waits
    · exact h.move p .set (.inr (.inl ⟨rfl, hfree, rfl⟩)) (.inl ⟨by rw [hpc]; rfl, rfl⟩) rfl (hstill (by simp [hpc]))
        rfl nofun (by simp) nofun (by simp [hpc])
    · exact h.move p .test (.inr (.inl ⟨rfl, hfree, rfl⟩)) (.inl ⟨by rw [hpc]; rfl, rfl⟩) rfl (hstill (by simp [hpc]))
        rfl nofun (by simp) nofun (by simp [hpc])
  case test =>
    cases hstep
    cases hcondition : s.condition
    · exact h.move p .sleepAcquire (.inl ⟨by rw [hpc]; rfl, rfl⟩) (.inl ⟨by rw [hpc]; rfl, rfl⟩) rfl (hstill (by simp [hpc]))
        rfl nofun (fun _ => hcondition) nofun (by simp [hpc])
    · exact h.move p .use (.inl ⟨by rw [hpc]; rfl, rfl⟩) (.inl ⟨by rw [hpc]; rfl, rfl⟩) rfl (hstill (by simp [hpc]))
        rfl nofun (by simp) (fun _ => hcondition) (by simp [hpc])
  case sleepAcquire =>
    obtain ⟨hfree, rfl⟩ := acquire_next hstep
    exact h.move p .sleepRelease (.inl ⟨by rw [hpc]; rfl, rfl⟩) (.inr (.inl ⟨rfl, hfree, rfl⟩)) rfl (hstill (by simp [hpc]))
      rfl nofun (fun _ => h.tested p (.inl hpc)) nofun (by simp [hpc])
  case sleepRelease =>
    obtain ⟨hheld, c, _, rfl⟩ := release_next hstep
    exact h.move p .sleepSched (.inr (.inr ⟨rfl, hheld, rfl⟩)) (.inl ⟨by rw [hpc]; rfl, rfl⟩) rfl (hstill (by simp [hpc]))
      rfl nofun (fun _ => h.tested p (.inr hpc)) nofun (by simp [hpc])
  case sleepSched =>
    obtain rfl := sched_next hstep
    exact h.sched hpc
  case sleepTidy =>
    obtain ⟨hheld, c, _, rfl⟩ := release_next hstep
    exact h.move p .sleepReacquire (.inl ⟨by rw [hpc]; rfl, rfl⟩) (.inr (.inr ⟨rfl, hheld, rfl⟩)) rfl (hstill (by simp [hpc]))
      rfl nofun (by simp) nofun (by simp [hpc])
  case sleepReacquire =>
    obtain ⟨hfree, rfl⟩ := acquire_next hstep
    exact h.move p .test (.inr (.inl ⟨rfl, hfree, rfl⟩)) (.inl ⟨by rw [hpc]; rfl, rfl⟩) rfl (hstill (by simp [hpc]))
      rfl nofun (by simp) nofun (by simp [hpc])
  case set =>
    cases hstep
    exact h.set hpc
  case wakeAcquire =>
    obtain ⟨hfree, rfl⟩ := acquire_next hstep
    exact h.move p .wakeMark (.inl ⟨by rw [hpc]; rfl, rfl⟩) (.inr (.inl ⟨rfl, hfree, rfl⟩)) rfl (hstill (by simp [hpc]))
      rfl nofun (by simp) nofun fun _ => .inr rfl
  case wakeMark =>
    cases hstep
    exact h.mark hpc
  case wakeRelease =>
    obtain ⟨hheld, c, _, rfl⟩ := release_next hstep
    exact h.move p .leave (.inl ⟨by rw [hpc]; rfl, rfl⟩) (.inr (.inr ⟨rfl, hheld, rfl⟩)) rfl (hstill (by simp [hpc]))
      rfl nofun (by simp) nofun (by simp [hpc])
  case leave =>
    obtain ⟨hheld, c, _, rfl⟩ := release_next hstep
    exact h.move p .out (.inr (.inr ⟨rfl, hheld, rfl⟩)) (.inl ⟨by rw [hpc]; rfl, rfl⟩) rfl (hstill (by simp [hpc]))
      rfl nofun (by simp) nofun (by simp [hpc])

theorem valid_step {e : Event P} (h : Valid s) (hstep : step s e = .next s') : Valid s' := by
  cases e with
  | call p waits =>
    simp only [step] at hstep
    split at hstep
    · next hpc =>
      cases hstep
      exact h.move p (.enter waits) (.inl ⟨by rw [hpc]; rfl, rfl⟩) (.inl ⟨by rw [hpc]; rfl, rfl⟩) rfl
        (h.still (by simp [hpc])) rfl nofun (by simp) nofun (by simp [hpc])
    · cases hstep
  | interrupts p on =>
    simp only [step] at hstep
    split at hstep
    · cases hstep
      exact ⟨h.lk, h.ptable, h.running, h.tested, h.used, h.noticed⟩
    · cases hstep
  | turn p => exact h.turn hstep
  | use p condition =>
    simp only [step] at hstep
    split at hstep
    · next hpc =>
      cases hstep
      exact h.use hpc condition
    · cases hstep
  | scheduler p =>
    simp only [step] at hstep
    split at hstep
    · next hchosen =>
      obtain ⟨hpc, _, hfree⟩ := hchosen
      cases hstep
      exact h.move p .sleepTidy (.inl ⟨by rw [hpc]; rfl, rfl⟩) (.inr (.inl ⟨rfl, hfree, rfl⟩)) rfl rfl rfl nofun
        (by simp) nofun (by simp [hpc])
    · cases hstep
  | kill p =>
    simp only [step] at hstep
    split at hstep
    · cases hstep
      exact h.kill p
    · cases hstep

omit [DecidableEq P] in
theorem valid_initial : Valid (State.initial : State P) :=
  ⟨by simp [State.initial, Pc.holdsLk], by simp [State.initial, Pc.holdsPtable], by simp [State.initial],
    by simp [State.initial], by simp [State.initial], by simp [State.initial]⟩

theorem valid_run {es : List (Event P)} (hrun : Runs step Any (State.initial : State P) es s) : Valid s :=
  hrun.invariant (P := Valid) (fun _ _ _ _ hs _ hstep => valid_step hs hstep) valid_initial

/-! ### Interrupts -/

/-- How many locks the process holds, or goes on with. -/
def Pc.locks : Pc → Nat
  | .out | .enter _ | .sleepReacquire => 0
  | .test | .sleepAcquire | .sleepSched | .switched | .sleepTidy | .use | .set | .wakeAcquire | .leave => 1
  | .sleepRelease | .wakeMark | .wakeRelease => 2

/-- The processor counts `locks` locks, and interrupts are off if there are any. -/
structure Cpu.Counts (c : Cpu) (locks : Nat) : Prop where
  ncli : c.ncli = locks
  masked : 0 < locks → c.interrupts = false

theorem Cpu.Counts.pushcli {c : Cpu} {locks : Nat} (h : c.Counts locks) : c.pushcli.Counts (locks + 1) :=
  ⟨by rw [← h.ncli]; rfl, fun _ => rfl⟩

theorem Cpu.Counts.popcli {c : Cpu} {locks : Nat} (h : c.Counts (locks + 1)) :
    ∃ c', c.popcli = .ok c' ∧ c'.Counts locks := by
  have hoff := h.masked (Nat.succ_pos locks)
  have hncli := h.ncli
  refine ⟨_, by rw [Cpu.popcli, if_neg (by simp [hoff]), if_neg (by omega)], ?_, fun hpos => ?_⟩
  · exact Nat.sub_eq_of_eq_add hncli
  · have hne : c.ncli ≠ 1 := by omega
    simp [hne]

def Masked (s : State P) : Prop := ∀ p, (s.cpu p).Counts (s.pc p).locks

theorem Masked.move (h : Masked s) (pc : Pc) {c : Cpu} (hpc : s'.pc = Function.update s.pc p pc)
    (hcpu : s'.cpu = Function.update s.cpu p c) (hc : c.Counts pc.locks) : Masked s' := by
  intro q
  rw [hpc, hcpu]
  by_cases hq : q = p
  · rw [hq, Function.update_self, Function.update_self]
    exact hc
  · rw [Function.update_of_ne hq, Function.update_of_ne hq]
    exact h q

/-- Process `p` goes on, with as many locks as before. -/
theorem Masked.goto (h : Masked s) (pc : Pc) (hpc : s'.pc = Function.update s.pc p pc) (hcpu : s'.cpu = s.cpu)
    (hlocks : pc.locks = (s.pc p).locks) : Masked s' :=
  h.move pc hpc (hcpu.trans (Function.update_eq_self p s.cpu).symm) (hlocks ▸ h p)

theorem Masked.acquire {lock : Option P} {f : Option P → State P → State P} (h : Masked s)
    (hstep : acquire lock s p f = .next s')
    (hpc : ∀ s₁, (f (some p) s₁).pc = Function.update s₁.pc p pc) (hcpu : ∀ s₁, (f (some p) s₁).cpu = s₁.cpu)
    (hlocks : pc.locks = (s.pc p).locks + 1) : Masked s' := by
  obtain ⟨_, rfl⟩ := acquire_next hstep
  exact h.move pc (hpc _) (hcpu _) (hlocks ▸ (h p).pushcli)

theorem Masked.release {lock : Option P} {f : Option P → State P → State P} (h : Masked s)
    (hstep : release lock s p f = .next s')
    (hpc : ∀ s₁, (f none s₁).pc = Function.update s₁.pc p pc) (hcpu : ∀ s₁, (f none s₁).cpu = s₁.cpu)
    (hlocks : (s.pc p).locks = pc.locks + 1) : Masked s' := by
  obtain ⟨_, c, hc, rfl⟩ := release_next hstep
  obtain ⟨c', hc', hcounts⟩ := (hlocks ▸ h p).popcli
  obtain rfl : c' = c := Except.ok.inj (hc'.symm.trans hc)
  exact h.move pc (hpc _) (hcpu _) hcounts

theorem Masked.turn (h : Masked s) (hstep : turn s p = .next s') : Masked s' := by
  cases hpc : s.pc p <;> simp only [Sleep.turn, hpc] at hstep
  case out | switched | use => cases hstep
  case enter waits =>
    refine h.acquire hstep (fun _ => rfl) (fun _ => rfl) ?_
    cases waits <;> rw [hpc] <;> rfl
  case test =>
    cases hstep
    refine h.goto _ rfl rfl ?_
    cases s.condition <;> rw [hpc] <;> rfl
  case set =>
    cases hstep
    exact h.goto .wakeAcquire rfl rfl (by rw [hpc]; rfl)
  case wakeMark =>
    cases hstep
    exact h.goto .wakeRelease rfl rfl (by rw [hpc]; rfl)
  case sleepSched =>
    obtain rfl := sched_next hstep
    exact h.goto .switched rfl rfl (by rw [hpc]; rfl)
  case sleepAcquire | sleepReacquire | wakeAcquire =>
    exact h.acquire hstep (fun _ => rfl) (fun _ => rfl) (by rw [hpc]; rfl)
  case sleepRelease | sleepTidy | wakeRelease | leave =>
    exact h.release hstep (fun _ => rfl) (fun _ => rfl) (by rw [hpc]; rfl)

theorem masked_step {e : Event P} (h : Masked s) (hstep : step s e = .next s') : Masked s' := by
  cases e with
  | call p waits =>
    simp only [step] at hstep
    split at hstep <;> cases hstep
    next hpc => exact h.goto (.enter waits) rfl rfl (by rw [hpc]; rfl)
  | interrupts p on =>
    simp only [step] at hstep
    split at hstep <;> cases hstep
    next hpc =>
    have hp := h p
    rw [hpc] at hp
    refine h.move _ (Function.update_eq_self p s.pc).symm rfl ?_
    rw [hpc]
    exact ⟨hp.ncli, fun hpos => absurd hpos (Nat.lt_irrefl 0)⟩
  | turn p => exact h.turn hstep
  | use p condition =>
    simp only [step] at hstep
    split at hstep <;> cases hstep
    next hpc => exact h.goto .leave rfl rfl (by rw [hpc]; rfl)
  | scheduler p =>
    simp only [step] at hstep
    split at hstep <;> cases hstep
    exact h.move .sleepTidy rfl rfl ⟨rfl, fun _ => rfl⟩
  | kill p =>
    simp only [step] at hstep
    split at hstep <;> cases hstep
    intro q
    split <;> exact h q

theorem masked_run {es : List (Event P)} (hrun : Runs step Any (State.initial : State P) es s) : Masked s := by
  refine hrun.invariant (P := Masked) (fun _ _ _ _ hs _ hstep => masked_step hs hstep) fun p => ?_
  exact ⟨rfl, fun hpos => absurd hpos (Nat.lt_irrefl 0)⟩

/-! ### Taking turns -/

theorem acquire_ne_panics {lock : Option P} (h : lock ≠ some p) (f : Option P → State P → State P) (m : String) :
    acquire lock s p f ≠ .panics m := by
  unfold acquire
  dsimp only
  rw [if_neg h]
  split <;> nofun

theorem acquire_free (s : State P) (p : P) (f : Option P → State P → State P) :
    ∃ s', acquire none s p f = .next s' := ⟨_, rfl⟩

theorem release_held {locks : Nat} (hc : (s.cpu p).Counts (locks + 1)) (f : Option P → State P → State P) :
    ∃ s', release (some p) s p f = .next s' := by
  obtain ⟨c, hc, _⟩ := hc.popcli
  exact ⟨f none (s.setCpu p c), by simp [release, hc]⟩

theorem release_ne_panics {locks : Nat} {lock : Option P} (h : lock = some p) (hc : (s.cpu p).Counts (locks + 1))
    (f : Option P → State P → State P) (m : String) : release lock s p f ≠ .panics m := by
  obtain ⟨s', hs'⟩ := release_held hc f
  rw [h, hs']
  nofun

/-- Of the four checks that `sched` makes none fails. -/
theorem Valid.sched_passes (h : Valid s) (hmasked : Masked s) (hpc : s.pc p = .sleepSched) :
    ∃ s', { s with state := Function.update s.state p .sleeping }.sched p = .next s' := by
  have hheld : s.ptable = some p := (h.ptable p).mpr (by rw [hpc]; rfl)
  have hcounts : (s.cpu p).Counts 1 := by
    have hp := hmasked p
    rwa [hpc] at hp
  simp [State.sched, hheld, hcounts.ncli, hcounts.masked Nat.one_pos]

theorem Valid.turn_ne_panics (h : Valid s) (hmasked : Masked s) (p : P) (m : String) : Sleep.turn s p ≠ .panics m := by
  have hlk := h.lk p
  have hptable := h.ptable p
  have hcounts := hmasked p
  cases hpc : s.pc p <;> simp only [Sleep.turn, hpc] <;> rw [hpc] at hlk hptable hcounts
  case out | switched | use | test | set | wakeMark => nofun
  case enter | sleepReacquire => exact acquire_ne_panics (mt hlk.mp nofun) _ _
  case sleepAcquire | wakeAcquire => exact acquire_ne_panics (mt hptable.mp nofun) _ _
  case sleepRelease | leave => exact release_ne_panics (hlk.mpr rfl) hcounts _ _
  case sleepTidy | wakeRelease => exact release_ne_panics (hptable.mpr rfl) hcounts _ _
  case sleepSched =>
    obtain ⟨s', hs'⟩ := h.sched_passes hmasked hpc
    rw [hs']
    nofun

/-- Who has the lock of the table can go on. -/
theorem Valid.ptable_proceeds (h : Valid s) (hmasked : Masked s) (hp : s.ptable = some p) :
    ∃ s', Sleep.turn s p = .next s' := by
  have hholds := (h.ptable p).mp hp
  have hlk := h.lk p
  have hcounts := hmasked p
  cases hpc : s.pc p <;> simp only [Sleep.turn, hpc] <;> rw [hpc] at hlk hholds hcounts
  case sleepRelease =>
    rw [hlk.mpr rfl]
    exact release_held hcounts _
  case sleepSched => exact h.sched_passes hmasked hpc
  case sleepTidy | wakeRelease =>
    rw [hp]
    exact release_held hcounts _
  case wakeMark => exact ⟨_, rfl⟩
  all_goals cases hholds

/-- Who has `lk` can go on, if the lock of the table is free. -/
theorem Valid.lk_proceeds (h : Valid s) (hmasked : Masked s) (hp : s.lk = some p) (hfree : s.ptable = none) :
    (∃ s', Sleep.turn s p = .next s') ∨ ∃ s', step s (.use p false) = .next s' := by
  have hholds := (h.lk p).mp hp
  have hptable : (s.pc p).holdsPtable ≠ true := mt (h.ptable p).mpr (by simp [hfree])
  have hcounts := hmasked p
  cases hpc : s.pc p <;> simp only [Sleep.turn, step, hpc] <;> rw [hpc] at hholds hptable hcounts
  case test | set => exact .inl ⟨_, rfl⟩
  case use => exact .inr ⟨_, rfl⟩
  case sleepAcquire | wakeAcquire =>
    rw [hfree]
    exact .inl (acquire_free ..)
  case leave =>
    rw [hp]
    exact .inl (release_held hcounts _)
  case sleepRelease | wakeMark | wakeRelease => exact absurd rfl hptable
  all_goals cases hholds

/-! ### What `sleep` and `wakeup` guarantee -/

section Run
variable {es : List (Event P)}

/-- **No wakeup is lost**: where a process sleeps and the condition holds, the process that
made it true has `lk` still and is on its way through `wakeup`. -/
theorem sleepers_noticed (hrun : Runs step Any (State.initial : State P) es s) (hp : s.asleep p = true)
    (hcondition : s.condition = true) :
    ∃ q, s.lk = some q ∧ (s.pc q = .wakeAcquire ∨ s.pc q = .wakeMark) := by
  have hvalid := valid_run hrun
  obtain ⟨q, hq⟩ := hvalid.noticed p (.inl hp) hcondition
  refine ⟨q, (hvalid.lk q).mpr ?_, hq⟩
  rcases hq with hq | hq <;> rw [hq] <;> rfl

/-- **The locks are used as they should be**: no turn of a process ends in a panic, neither of
`acquire` or `release`, which turn interrupts off and on, nor of one of the four checks in
`sched`, and no two processes are in the sections that `lk` protects. -/
theorem locks_in_order (hrun : Runs step Any (State.initial : State P) es s) :
    (∀ e m, step s e ≠ .panics m) ∧
      ∀ p q, (s.pc p).holdsLk = true → (s.pc q).holdsLk = true → p = q := by
  have hvalid := valid_run hrun
  refine ⟨fun e m => ?_, fun p q => hvalid.lk_unique⟩
  cases e with
  | turn p => exact hvalid.turn_ne_panics (masked_run hrun) p m
  | call | interrupts | use | scheduler | kill =>
    simp only [step]
    split <;> nofun

/-- **No deadlock**: as long as a process is neither somewhere else nor asleep, some process
can go on. -/
theorem sleep_deadlock_free (hrun : Runs step Any (State.initial : State P) es s) (hp : s.pc p ≠ .out)
    (hawake : s.asleep p = false) :
    ∃ q s', s.pc q ≠ .out ∧ (step s (.turn q) = .next s' ∨ step s (.use q false) = .next s' ∨
      step s (.scheduler q) = .next s') := by
  have hvalid := valid_run hrun
  have hmasked := masked_run hrun
  -- the lock of the table is taken last, so its holder waits for nobody
  cases hptable : s.ptable with
  | some q =>
    obtain ⟨s', hstep⟩ := hvalid.ptable_proceeds hmasked hptable
    refine ⟨q, s', fun hout => ?_, .inl hstep⟩
    simp [Sleep.turn, hout] at hstep
  | none =>
    cases hlk : s.lk with
    | some q =>
      rcases hvalid.lk_proceeds hmasked hlk hptable with ⟨s', hstep⟩ | ⟨s', hstep⟩
      · refine ⟨q, s', fun hout => ?_, .inl hstep⟩
        simp [Sleep.turn, hout] at hstep
      · refine ⟨q, s', fun hout => ?_, .inr (.inl hstep)⟩
        simp [step, hout] at hstep
    | none =>
      have hnolk : (s.pc p).holdsLk ≠ true := mt (hvalid.lk p).mpr (by simp [hlk])
      have hnoptable : (s.pc p).holdsPtable ≠ true := mt (hvalid.ptable p).mpr (by simp [hptable])
      cases hpc : s.pc p <;> rw [hpc] at hp hnolk hnoptable
      case enter | sleepReacquire =>
        have hturn : ∃ s', step s (.turn p) = .next s' := by
          simp only [step, Sleep.turn, hpc, hlk]
          exact acquire_free ..
        obtain ⟨s', hstep⟩ := hturn
        exact ⟨p, s', by simp [hpc], .inl hstep⟩
      case switched =>
        have hready : s.state p = .runnable := by
          have hnot := mt (hvalid.running p).mp (by simp [hpc])
          revert hawake hnot
          cases hstate : s.state p <;> simp [State.asleep, hstate]
        exact ⟨p, _, by simp [hpc], .inr (.inr (if_pos ⟨hpc, hready, hptable⟩))⟩
      case out => exact absurd rfl hp
      all_goals first | exact absurd rfl hnolk | exact absurd rfl hnoptable

end Run

/-! ### A sleeper and a waker

One process finds the condition false and sleeps; the other makes it true. -/

instance (s : State P) (e : Event P) : Decidable (Any s e) := .isTrue trivial

def dozing : List (Event Bool) :=
  [.call true true, .turn true, .turn true, .turn true, .turn true, .turn true, .call false false, .turn false,
    .turn false]

def dozingState : State Bool := (Runs.go step Any .initial dozing).getD .initial

theorem dozing_runs : Runs step Any (State.initial : State Bool) dozing dozingState :=
  Runs.of_go (by decide +kernel)

theorem sleepers_noticed_dozing :
    ∃ q, dozingState.lk = some q ∧ (dozingState.pc q = .wakeAcquire ∨ dozingState.pc q = .wakeMark) :=
  sleepers_noticed (p := true) dozing_runs (by decide +kernel) (by decide +kernel)

theorem locks_in_order_dozing : (∀ e m, step dozingState e ≠ .panics m) ∧
    ∀ p q, (dozingState.pc p).holdsLk = true → (dozingState.pc q).holdsLk = true → p = q :=
  locks_in_order dozing_runs

theorem sleep_deadlock_free_dozing : ∃ q s', dozingState.pc q ≠ .out ∧
    (step dozingState (.turn q) = .next s' ∨ step dozingState (.use q false) = .next s' ∨
      step dozingState (.scheduler q) = .next s') :=
  sleep_deadlock_free (p := false) dozing_runs (by decide +kernel) (by decide +kernel)

end CompilingToAssembly.Xv6.Sleep
