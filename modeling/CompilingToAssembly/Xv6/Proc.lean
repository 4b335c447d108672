import CompilingToAssembly.Library.Machine

/-! `proc.c`: the process table, and the processors that run what is in it.

What happens between two acquisitions of `ptable.lock` is one event. An event names the
processor it happens on; the process it happens in is `myproc()`, the one that the
processor runs. A process that calls `sched` is left at the point where `scheduler`
returns to it, and goes on from there, the lock still held, when it is chosen again. -/
namespace CompilingToAssembly.Xv6.Proc
open Library

inductive ProcState where
  | unused
  | embryo
  | sleeping
  | runnable
  | running
  | zombie
  deriving DecidableEq

/-- What a process sleeps on. `wait` sleeps on the caller's own entry of the table, every
other caller of `sleep` on something else. -/
inductive Chan (n : Nat) where
  | proc (p : Fin n)
  | other (address : Nat)
  deriving DecidableEq

/-- Where a process goes on when it gets a processor. -/
inductive Resume where
  /-- In `yield` or `forkret`, which release the lock. -/
  | release
  /-- In `sleep`, called with another lock. -/
  | sleep
  /-- In `sleep`, called by `wait`. -/
  | wait
  deriving DecidableEq

/-- How far a call of `fork` has got with `np`. -/
inductive Fork (n : Nat) where
  /-- `allocproc` has found the entry and is to allocate the kernel stack. -/
  | found (np : Fin n)
  /-- `allocproc` has returned, and the memory is to be copied. -/
  | allocated (np : Fin n)
  /-- All that is left is `np->state = RUNNABLE`. -/
  | copied (np : Fin n)
  deriving DecidableEq

/-- An entry of the table. `kstack` says that the entry owns a kernel stack. -/
structure Entry (n : Nat) where
  state : ProcState
  pid : Nat
  parent : Option (Fin n)
  chan : Option (Chan n)
  killed : Bool
  kstack : Bool
  resume : Resume
  fork : Option (Fork n)

/-- `proc`, and the entry at which the loop of `scheduler` goes on. -/
structure Cpu (n : Nat) where
  proc : Option (Fin n)
  next : Nat

/-- `exited` and `reaped` list the processes that have called `exit` and those whose
number `wait` has returned. -/
structure State (C : Type) (n : Nat) where
  proc : Fin n → Entry n
  nextpid : Nat
  initproc : Fin n
  cpu : C → Cpu n
  exited : List Nat
  reaped : List Nat

inductive Event (C : Type) where
  /-- `fork` calls `allocproc`, which looks for an entry. -/
  | allocproc (c : C)
  /-- `allocproc` calls `kalloc`, which may fail. -/
  | kalloc (c : C) (ok : Bool)
  /-- `fork` calls `copyuvm`, which may fail. -/
  | copyuvm (c : C) (ok : Bool)
  /-- `fork` makes the child runnable. -/
  | start (c : C)
  | exit (c : C)
  | wait (c : C)
  | sleep (c : C) (address : Nat)
  | yield (c : C)
  | wakeup (address : Nat)
  | kill (pid : Nat)
  /-- `trap` has no other answer to what the process does in user space. -/
  | trap (c : C)
  | scheduler (c : C)

variable {C : Type} {n : Nat}

/-! ### The entries -/

def Entry.free : Entry n := ⟨.unused, 0, none, none, false, false, .release, none⟩

/-- What `wait` leaves of the entry of a process that has exited. -/
def Entry.reap (e : Entry n) : Entry n :=
  { e with kstack := false, pid := 0, parent := none, killed := false, state := .unused }

def wakeup1 (chan : Option (Chan n)) (proc : Fin n → Entry n) : Fin n → Entry n := fun p =>
  if (proc p).state = .sleeping ∧ (proc p).chan = chan then { proc p with state := .runnable } else proc p

/-- The body of the loop in `exit` that passes the children on. -/
def passChild (curproc initproc : Fin n) (proc : Fin n → Entry n) (p : Fin n) : Fin n → Entry n :=
  if (proc p).parent = some curproc then
    let proc := Function.update proc p { proc p with parent := some initproc }
    if (proc p).state = .zombie then wakeup1 (some (.proc initproc)) proc else proc
  else proc

def passChildren (curproc initproc : Fin n) (proc : Fin n → Entry n) : Fin n → Entry n :=
  (List.finRange n).foldl (passChild curproc initproc) proc

namespace State

/-- What `userinit` leaves, with every processor in `scheduler`. -/
def userinit (h : 0 < n) : State C n where
  proc := Function.update (fun _ => .free) ⟨0, h⟩
    ⟨.runnable, 1, none, none, false, true, .release, none⟩
  nextpid := 2
  initproc := ⟨0, h⟩
  cpu := fun _ => ⟨none, 0⟩
  exited := []
  reaped := []

def set (s : State C n) (p : Fin n) (e : Entry n) : State C n := { s with proc := Function.update s.proc p e }

/-- The first entry of the table with a property. -/
def first (s : State C n) (property : Fin n → Entry n → Bool) : Option (Fin n) :=
  (List.finRange n).find? fun p => property p (s.proc p)

def isChild (curproc : Fin n) (e : Entry n) : Bool := e.parent = some curproc

def isZombieChild (curproc : Fin n) (e : Entry n) : Bool := isChild curproc e && (e.state = .zombie)

variable [DecidableEq C]

def setCpu (s : State C n) (c : C) (cpu : Cpu n) : State C n := { s with cpu := Function.update s.cpu c cpu }

/-- `sched`, for the process on processor `c`: back to `scheduler`, which sets `c->proc` to 0. -/
def sched (s : State C n) (c : C) : State C n := s.setCpu c { s.cpu c with proc := none }

/-- The body of the loop of `wait`. -/
def waitLoop (s : State C n) (c : C) (curproc : Fin n) : State C n :=
  match s.first fun _ e => isZombieChild curproc e with
  | some p => { s.set p (s.proc p).reap with reaped := s.reaped ++ [(s.proc p).pid] }
  | none =>
    let havekids := (s.first fun _ e => isChild curproc e).isSome
    if !havekids || (s.proc curproc).killed then s
    else (s.set curproc { s.proc curproc with
      chan := some (.proc curproc), state := .sleeping, resume := .wait }).sched c

/-- The process that goes on at `p` has the processor, and still the lock. -/
def goOn (s : State C n) (c : C) (p : Fin n) : State C n :=
  match (s.proc p).resume with
  | .release => s
  | .sleep => s.set p { s.proc p with chan := none }
  | .wait => (s.set p { s.proc p with chan := none }).waitLoop c p

/-- The process on `c`, where it is in no call of `fork`: `fork` does nothing that sleeps. -/
def curproc (s : State C n) (c : C) : Option (Fin n) :=
  (s.cpu c).proc.filter fun p => (s.proc p).fork = none

/-- The process that the loop of `scheduler` on `c` comes to next, before the end of the table. -/
def chosen (s : State C n) (c : C) : Option (Fin n) :=
  s.first fun p e => decide ((s.cpu c).next ≤ p.val) && (e.state = .runnable)

/-- The process on `c` and how far its call of `fork` has got. -/
def forking (s : State C n) (c : C) : Option (Fin n × Fork n) :=
  (s.cpu c).proc.bind fun p => (s.proc p).fork.map fun f => (p, f)

end State

open State

variable [DecidableEq C]

def step (s : State C n) : Event C → Turn (State C n)
  | .allocproc c =>
    match s.curproc c with
    | none => .waits
    | some p =>
      match s.first fun _ e => e.state = .unused with
      | none => .next s
      | some np =>
        let s := { s.set np { s.proc np with state := .embryo, pid := s.nextpid } with nextpid := s.nextpid + 1 }
        .next (s.set p { s.proc p with fork := some (.found np) })
  | .kalloc c ok =>
    match s.forking c with
    | some (p, .found np) =>
      if ok then
        let s := s.set np { s.proc np with kstack := true, resume := .release }
        .next (s.set p { s.proc p with fork := some (.allocated np) })
      else
        let s := s.set np { s.proc np with state := .unused }
        .next (s.set p { s.proc p with fork := none })
    | _ => .waits
  | .copyuvm c ok =>
    match s.forking c with
    | some (p, .allocated np) =>
      if ok then
        let s := s.set np { s.proc np with parent := some p }
        .next (s.set p { s.proc p with fork := some (.copied np) })
      else
        let s := s.set np { s.proc np with kstack := false, state := .unused }
        .next (s.set p { s.proc p with fork := none })
    | _ => .waits
  | .start c =>
    match s.forking c with
    | some (p, .copied np) =>
      let s := s.set np { s.proc np with state := .runnable }
      .next (s.set p { s.proc p with fork := none })
    | _ => .waits
  | .exit c =>
    match s.curproc c with
    | none => .waits
    | some p =>
      if p = s.initproc then .panics "init exiting"
      else
        let proc := wakeup1 ((s.proc p).parent.map .proc) s.proc
        let proc := passChildren p s.initproc proc
        let s := { s with proc := Function.update proc p { proc p with state := .zombie } }
        .next ({ s with exited := s.exited ++ [(s.proc p).pid] }.sched c)
  | .wait c =>
    match s.curproc c with
    | none => .waits
    | some p => .next (s.waitLoop c p)
  | .sleep c address =>
    match s.curproc c with
    | none => .waits
    | some p => .next ((s.set p { s.proc p with
        chan := some (.other address), state := .sleeping, resume := .sleep }).sched c)
  | .yield c =>
    match (s.cpu c).proc with
    | none => .waits
    | some p => .next ((s.set p { s.proc p with state := .runnable, resume := .release }).sched c)
  | .wakeup address => .next { s with proc := wakeup1 (some (.other address)) s.proc }
  | .kill pid =>
    match s.first fun _ e => e.pid = pid with
    | none => .next s
    | some p =>
      let e := { s.proc p with killed := true }
      .next (s.set p (if e.state = .sleeping then { e with state := .runnable } else e))
  | .trap c =>
    match s.curproc c with
    | none => .waits
    | some p => .next (s.set p { s.proc p with killed := true })
  | .scheduler c =>
    match (s.cpu c).proc with
    | some _ => .waits
    | none =>
      match s.chosen c with
      -- the end of the table: the lock is released, and the loop starts again
      | none => .next (s.setCpu c ⟨none, 0⟩)
      | some p =>
        let s := (s.set p { s.proc p with state := .running }).setCpu c ⟨some p, p.val + 1⟩
        .next (s.goOn c p)

/-- `nextpid` is an `int`: its overflow would be undefined. -/
def Orderly (s : State C n) : Event C → Prop
  | .allocproc _ => s.nextpid < 2 ^ 31 - 1
  | _ => True

end CompilingToAssembly.Xv6.Proc
