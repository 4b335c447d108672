import CompilingToAssembly.Xv6.Processes

/-! What one event does to an entry of the process table, and who is marked as killed.

`kill` marks the entry that has the number it is called with, whether or not there is a
process in it, and a free entry has the number 0. -/
namespace CompilingToAssembly.Xv6.Proc
open Library State

variable {C : Type} {n : Nat} {s s' : State C n} {es : List (Event C)} {e : Event C} {c : C} {p q : Fin n}

/-! ### The fate of an entry -/

/-- A call of `fork` gives its entry back. -/
def Fails : Event C → Prop
  | .kalloc _ ok => ok = false
  | .copyuvm _ ok => ok = false
  | _ => False

/-- The entry `p` is marked as killed. -/
def Strikes (s : State C n) (p : Fin n) : Event C → Prop
  | .kill pid => pid = (s.proc p).pid
  | .trap c => s.curproc c = some p
  | _ => False

/-- A processor that runs nobody takes `p`. -/
def Chooses (s : State C n) (p : Fin n) : Event C → Prop
  | .scheduler c => (s.cpu c).proc = none ∧ s.chosen c = some p
  | _ => False

/-- An entry stays with its process. -/
structure Keeps (a b : Entry n) : Prop where
  pid : b.pid = a.pid
  killed : b.killed = a.killed
  unused : b.state = .unused → a.state = .unused
  runnable : a.state = .runnable → b.state = .runnable

/-- What the event `e` in `s` can make of the entry `q`. -/
inductive Fate (s : State C n) (e : Event C) (q : Fin n) (a b : Entry n) : Prop where
  | keeps : Keeps a b → Fate s e q a b
  /-- `allocproc` takes the entry, and leaves `killed` as it finds it. -/
  | given : a.state = .unused → b.state = .embryo → b.killed = a.killed → Fate s e q a b
  | failed : Fails e → a.state = .embryo → b.killed = a.killed → Fate s e q a b
  /-- `wait` has found the process. -/
  | cleared : a.state = .zombie → b.pid = 0 → b.killed = false → Fate s e q a b
  | struck : Strikes s q e → b.pid = a.pid → b.killed = true → (b.state = .unused → a.state = .unused) →
      (a.state = .runnable → b.state = .runnable) → Fate s e q a b
  | chosen : Chooses s q e → b.pid = a.pid → b.killed = a.killed → b.state ≠ .unused → Fate s e q a b

theorem Keeps.refl (a : Entry n) : Keeps a a := ⟨rfl, rfl, id, id⟩

/-- The process on a processor does something. -/
theorem Keeps.of_running {a b : Entry n} (h : a.state = .running) (hpid : b.pid = a.pid) (hkilled : b.killed = a.killed)
    (hb : b.state ≠ .unused) : Keeps a b :=
  ⟨hpid, hkilled, fun hunused => absurd hunused hb, fun hrunnable => by simp [h] at hrunnable⟩

theorem Rouses.keeps {a b : Entry n} (h : Rouses a b) : Keeps a b := by
  refine ⟨h.pid, h.killed, fun hb => ?_, fun ha => ?_⟩
  · rcases h.state with hs | ⟨_, hs⟩
    · exact hs ▸ hb
    · simp [hs] at hb
  · rcases h.state with hs | ⟨hs, _⟩
    · exact hs.trans ha
    · simp [hs] at ha

theorem Fate.of_same {a b d : Entry n} (hd : Fate s e q b d) (h : a.state = b.state) (hpid : b.pid = a.pid)
    (hkilled : b.killed = a.killed) : Fate s e q a d := by
  cases hd with
  | keeps hd => exact .keeps ⟨hd.pid.trans hpid, hd.killed.trans hkilled, h ▸ hd.unused, h ▸ hd.runnable⟩
  | given hfree hembryo hsame => exact .given (h.trans hfree) hembryo (hsame.trans hkilled)
  | failed hfails hembryo hsame => exact .failed hfails (h.trans hembryo) (hsame.trans hkilled)
  | cleared hzombie hzero hfalse => exact .cleared (h.trans hzombie) hzero hfalse
  | struck hstrikes hsame hmark hunused hrunnable =>
    exact .struck hstrikes (hsame.trans hpid) hmark (h ▸ hunused) (h ▸ hrunnable)
  | chosen hchooses hsame hmark hused => exact .chosen hchooses (hsame.trans hpid) (hmark.trans hkilled) hused

theorem Fate.refl (a : Entry n) : Fate s e q a a := .keeps (.refl a)

/-- What happens to one entry happens to no other. -/
theorem fate_set {s₁ : State C n} {a : Entry n} (hp : Fate s e p (s₁.proc p) a) (q : Fin n) :
    Fate s e q (s₁.proc q) ((s₁.set p a).proc q) := by
  by_cases hq : q = p
  · subst hq
    simpa only [State.set, Function.update_self] using hp
  · simpa only [State.set, Function.update_of_ne hq] using Fate.refl _

theorem Fate.fork {a b : Entry n} (h : Fate s e q a b) (stage : Option (Fork n)) :
    Fate s e q a { b with fork := stage } := by
  cases h with
  | keeps h => exact .keeps ⟨h.pid, h.killed, h.unused, h.runnable⟩
  | given hfree hembryo hsame => exact .given hfree hembryo hsame
  | failed hfails hembryo hsame => exact .failed hfails hembryo hsame
  | cleared hzombie hzero hfalse => exact .cleared hzombie hzero hfalse
  | struck hstrikes hsame hmark hunused hrunnable => exact .struck hstrikes hsame hmark hunused hrunnable
  | chosen hchooses hsame hmark hused => exact .chosen hchooses hsame hmark hused

theorem fate_fork {np : Fin n} {a : Entry n} (hnp : Fate s e np (s.proc np) a) (p : Fin n)
    (stage : Option (Fork n)) (q : Fin n) :
    Fate s e q (s.proc q) (((s.set np a).set p { (s.set np a).proc p with fork := stage }).proc q) := by
  have hset := fate_set hnp q
  by_cases hq : q = p
  · subst hq
    simpa only [State.set, Function.update_self] using hset.fork stage
  · simpa only [State.set, Function.update_of_ne hq] using hset

section Steps
variable [DecidableEq C]

theorem fate_waitLoop {s₁ : State C n} (hp : (s₁.proc p).state = .running) (c : C) (q : Fin n) :
    Fate s e q (s₁.proc q) ((s₁.waitLoop c p).proc q) := by
  unfold State.waitLoop
  split
  · next r hr =>
    have hchild := first_some hr
    simp only [isZombieChild, Bool.and_eq_true, decide_eq_true_eq] at hchild
    exact fate_set (.cleared hchild.2 rfl rfl) q
  · dsimp only
    split
    · exact .refl _
    · rw [sched_proc]
      refine fate_set (.keeps ?_) q
      exact .of_running hp rfl rfl fun h => by cases h

theorem fate_goOn {s₁ : State C n} (hp : (s₁.proc p).state = .running) (c : C) (q : Fin n) :
    Fate s e q (s₁.proc q) ((s₁.goOn c p).proc q) := by
  have hsame : ((s₁.set p { s₁.proc p with chan := none }).proc p) = { s₁.proc p with chan := none } :=
    Function.update_self ..
  have hawake : Fate s e q (s₁.proc q) ((s₁.set p { s₁.proc p with chan := none }).proc q) := by
    refine fate_set (.keeps ?_) q
    exact .of_running hp rfl rfl (by simp [hp])
  unfold State.goOn
  split
  · exact .refl _
  · exact hawake
  · have hwait : Fate s e q ((s₁.set p { s₁.proc p with chan := none }).proc q) _ :=
      fate_waitLoop (by rw [hsame]; exact hp) c q
    by_cases hq : q = p
    · subst hq
      rw [hsame] at hwait
      exact hwait.of_same rfl rfl rfl
    · rwa [show (s₁.set p { s₁.proc p with chan := none }).proc q = s₁.proc q from Function.update_of_ne hq ..] at hwait

theorem fate_allocproc (hstep : step s (.allocproc c) = .next s') (q : Fin n) :
    Fate s (.allocproc c) q (s.proc q) (s'.proc q) := by
  simp only [step] at hstep
  split at hstep
  · cases hstep
  · next p _ =>
    split at hstep <;> cases hstep
    · exact .refl _
    · next np hnp =>
      have hunused := first_some hnp
      rw [decide_eq_true_eq] at hunused
      have hgiven : Fate s (.allocproc c) np (s.proc np) { s.proc np with state := .embryo, pid := s.nextpid } :=
        .given hunused rfl rfl
      exact fate_fork hgiven p (some (.found np)) q

theorem fate_kalloc {ok : Bool} (h : Valid s) (hstep : step s (.kalloc c ok) = .next s') (q : Fin n) :
    Fate s (.kalloc c ok) q (s.proc q) (s'.proc q) := by
  simp only [step] at hstep
  split at hstep
  · next p np hp =>
    obtain ⟨_, hembryo, _⟩ := h.found (forking_eq_some.mp hp).2
    split at hstep <;> cases hstep
    · refine fate_fork (.keeps ?_) p _ q
      exact ⟨rfl, rfl, id, id⟩
    · next hok =>
      have hfailed : Fate s (.kalloc c ok) np (s.proc np) { s.proc np with state := .unused } :=
        .failed (Bool.eq_false_of_not_eq_true hok) hembryo rfl
      exact fate_fork hfailed p none q
  · cases hstep

theorem fate_copyuvm {ok : Bool} (h : Valid s) (hstep : step s (.copyuvm c ok) = .next s') (q : Fin n) :
    Fate s (.copyuvm c ok) q (s.proc q) (s'.proc q) := by
  simp only [step] at hstep
  split at hstep
  · next p np hp =>
    obtain ⟨_, hembryo, _⟩ := h.found (forking_eq_some.mp hp).2
    split at hstep <;> cases hstep
    · refine fate_fork (.keeps ?_) p _ q
      exact ⟨rfl, rfl, id, id⟩
    · next hok =>
      have hfailed : Fate s (.copyuvm c ok) np (s.proc np) { s.proc np with kstack := false, state := .unused } :=
        .failed (Bool.eq_false_of_not_eq_true hok) hembryo rfl
      exact fate_fork hfailed p none q
  · cases hstep

theorem fate_start (hstep : step s (.start c) = .next s') (q : Fin n) :
    Fate s (.start c) q (s.proc q) (s'.proc q) := by
  simp only [step] at hstep
  split at hstep <;> cases hstep
  next p np _ =>
  refine fate_fork (.keeps ?_) p _ q
  exact ⟨rfl, rfl, (fun h => by cases h), fun _ => rfl⟩

theorem fate_exit (h : Valid s) (hstep : step s (.exit c) = .next s') (q : Fin n) :
    Fate s (.exit c) q (s.proc q) (s'.proc q) := by
  simp only [step] at hstep
  split at hstep
  · cases hstep
  · next p hp =>
    have hrunning := h.placed.running (curproc_eq_some.mp hp).1
    split at hstep <;> cases hstep
    have hrouses := (exits_passChildren s p).rouses
    rw [sched_proc]
    change Fate s _ q (s.proc q) (exitProc p _ q)
    by_cases hq : q = p
    · subst hq
      rw [exitProc_self]
      exact .keeps (.of_running hrunning (hrouses q).pid (hrouses q).killed fun h => by cases h)
    · rw [exitProc_of_ne hq]
      have hkeeps := (hrouses q).keeps
      exact .keeps ⟨hkeeps.pid, hkeeps.killed, hkeeps.unused, hkeeps.runnable⟩

theorem fate_sleep {address : Nat} (h : Valid s) (hstep : step s (.sleep c address) = .next s') (q : Fin n) :
    Fate s (.sleep c address) q (s.proc q) (s'.proc q) := by
  simp only [step] at hstep
  split at hstep <;> cases hstep
  next p hp =>
  rw [sched_proc]
  refine fate_set (.keeps ?_) q
  exact .of_running (h.placed.running (curproc_eq_some.mp hp).1) rfl rfl fun h => by cases h

theorem fate_yield (h : Valid s) (hstep : step s (.yield c) = .next s') (q : Fin n) :
    Fate s (.yield c) q (s.proc q) (s'.proc q) := by
  simp only [step] at hstep
  split at hstep <;> cases hstep
  next p hp =>
  rw [sched_proc]
  refine fate_set (.keeps ?_) q
  exact .of_running (h.placed.running hp) rfl rfl fun h => by cases h

theorem fate_kill {pid : Nat} (hstep : step s (.kill pid) = .next s') (q : Fin n) :
    Fate s (.kill pid) q (s.proc q) (s'.proc q) := by
  simp only [step] at hstep
  split at hstep
  · cases hstep
    exact .refl _
  · next p hp =>
    have hpid := first_some hp
    rw [decide_eq_true_eq] at hpid
    cases hstep
    refine fate_set ?_ q
    split
    · exact .struck hpid.symm rfl rfl (fun h => by cases h) fun _ => rfl
    · exact .struck hpid.symm rfl rfl id id

theorem fate_trap (hstep : step s (.trap c) = .next s') (q : Fin n) :
    Fate s (.trap c) q (s.proc q) (s'.proc q) := by
  simp only [step] at hstep
  split at hstep <;> cases hstep
  next p hp =>
  have hstruck : Fate s (.trap c) p (s.proc p) { s.proc p with killed := true } := .struck hp rfl rfl id id
  exact fate_set hstruck q

theorem fate_scheduler (hstep : step s (.scheduler c) = .next s') (q : Fin n) :
    Fate s (.scheduler c) q (s.proc q) (s'.proc q) := by
  simp only [step] at hstep
  split at hstep
  · cases hstep
  · next hc =>
    split at hstep <;> cases hstep
    · exact .refl _
    · next p hp =>
      generalize hs₁ : (s.set p { s.proc p with state := .running }).setCpu c ⟨some p, p.val + 1⟩ = s₁
      have hself : s₁.proc p = { s.proc p with state := .running } := by
        subst hs₁
        exact Function.update_self ..
      have hgoes : Fate s (.scheduler c) q (s₁.proc q) ((s₁.goOn c p).proc q) := fate_goOn (by rw [hself]) c q
      by_cases hq : q = p
      · subst hq
        rw [hself] at hgoes
        -- the process runs, so that of all that may happen to it only one does
        cases hgoes with
        | keeps h => exact .chosen ⟨hc, hp⟩ h.pid h.killed fun hunused => by cases h.unused hunused
        | given hfree _ _ => cases hfree
        | failed hfails _ _ => exact hfails.elim
        | cleared hzombie _ _ => cases hzombie
        | struck hstrikes _ _ _ _ => exact hstrikes.elim
        | chosen hchooses hsame hmark hused => exact .chosen hchooses hsame hmark hused
      · rwa [show s₁.proc q = s.proc q by subst hs₁; exact Function.update_of_ne hq ..] at hgoes

theorem fate_step (h : Valid s) (hstep : step s e = .next s') (q : Fin n) : Fate s e q (s.proc q) (s'.proc q) := by
  cases e with
  | allocproc c => exact fate_allocproc hstep q
  | kalloc c ok => exact fate_kalloc h hstep q
  | copyuvm c ok => exact fate_copyuvm h hstep q
  | start c => exact fate_start hstep q
  | exit c => exact fate_exit h hstep q
  | wait c =>
    simp only [step] at hstep
    split at hstep <;> cases hstep
    next p hp => exact fate_waitLoop (h.placed.running (curproc_eq_some.mp hp).1) c q
  | sleep c address => exact fate_sleep h hstep q
  | yield c => exact fate_yield h hstep q
  | wakeup address =>
    cases hstep
    exact .keeps (rouses_wakeup1 _ _ q).keeps
  | kill pid => exact fate_kill hstep q
  | trap c => exact fate_trap hstep q
  | scheduler c => exact fate_scheduler hstep q

/-! ### Who is marked as killed -/

/-- No call of `fork` fails once it has found an entry. -/
def Unfailing (s : State C n) (e : Event C) : Prop := Orderly s e ∧ ¬ Fails e

/-- Besides, nobody calls `kill` with 0. -/
def Careful (s : State C n) (e : Event C) : Prop := Unfailing s e ∧ e ≠ .kill 0

/-- The entries nobody uses have the number 0. -/
def Blank (s : State C n) : Prop := ∀ p, (s.proc p).state = .unused → (s.proc p).pid = 0

/-- The entries nobody uses are not marked. -/
def Unmarked (s : State C n) : Prop := ∀ p, (s.proc p).killed = true → (s.proc p).state ≠ .unused

theorem blank_step (hvalid : Valid s) (h : Blank s) (he : ¬ Fails e) (hstep : step s e = .next s') : Blank s' := by
  intro p hp
  cases fate_step hvalid hstep p with
  | keeps hk => rw [hk.pid, h p (hk.unused hp)]
  | given _ hembryo _ => simp [hembryo] at hp
  | failed hfails _ _ => exact absurd hfails he
  | cleared _ hzero _ => exact hzero
  | struck _ hsame _ hunused _ => rw [hsame, h p (hunused hp)]
  | chosen _ _ _ hused => exact absurd hp hused

omit [DecidableEq C] in
/-- Neither `trap` nor `kill`, with any other number than 0, marks an entry nobody uses. -/
theorem Strikes.used (h : Strikes s p e) (hvalid : Valid s) (hblank : Blank s) (he : e ≠ .kill 0) :
    (s.proc p).state ≠ .unused := by
  intro hfree
  cases e with
  | kill pid =>
    have hpid : pid = (s.proc p).pid := h
    rw [hblank p hfree] at hpid
    exact he (by rw [hpid])
  | trap c =>
    have hrunning := hvalid.placed.running (curproc_eq_some.mp h).1
    simp [hfree] at hrunning
  | _ => exact h

theorem unmarked_step (hvalid : Valid s) (hblank : Blank s) (h : Unmarked s) (he : Careful s e)
    (hstep : step s e = .next s') : Unmarked s' := by
  intro p hp
  cases fate_step hvalid hstep p with
  | keeps hk => exact mt hk.unused (h p (hk.killed ▸ hp))
  | given hfree _ hsame => exact absurd hfree (h p (hsame ▸ hp))
  | failed hfails _ _ => exact absurd hfails he.1.2
  | cleared _ _ hfalse => simp [hfalse] at hp
  | struck hstrikes _ _ hunused _ => exact mt hunused (hstrikes.used hvalid hblank he.2)
  | chosen _ _ _ hused => exact hused

omit [DecidableEq C] in
theorem blank_userinit (h : 0 < n) : Blank (State.userinit h : State C n) ∧ Unmarked (State.userinit h : State C n) := by
  have hproc : ∀ p, (State.userinit h : State C n).proc p =
      if p = ⟨0, h⟩ then ⟨.runnable, 1, none, none, false, true, .release, none⟩ else .free := by
    intro p
    simp only [State.userinit, Function.update_apply]
  constructor <;> intro p hp <;> rw [hproc] at hp ⊢ <;> split at hp <;> simp_all [Entry.free]

theorem blank_run (h : 0 < n) (hrun : Runs step Unfailing (State.userinit h : State C n) es s) : Valid s ∧ Blank s := by
  refine hrun.invariant (P := fun s => Valid s ∧ Blank s) (fun _ _ _ _ hs he hstep => ?_)
    ⟨valid_userinit h, (blank_userinit h).1⟩
  exact ⟨valid_step hs.1 hstep, blank_step hs.1 hs.2 he.2 hstep⟩

theorem unmarked_run (h : 0 < n) (hrun : Runs step Careful (State.userinit h : State C n) es s) : Unmarked s := by
  have hinv := hrun.invariant (P := fun s => Valid s ∧ Blank s ∧ Unmarked s) (fun _ _ _ _ hs he hstep => ?_)
    ⟨valid_userinit h, blank_userinit h⟩
  · exact hinv.2.2
  · exact ⟨valid_step hs.1 hstep, blank_step hs.1 hs.2.1 he.1.2 hstep, unmarked_step hs.1 hs.2.1 hs.2.2 he hstep⟩

/-- **`kill` strikes who it is meant for**: while no call of `fork` fails and nobody calls
`kill` with 0, an entry is marked as killed only if there is a process in it, and that
process has trapped or somebody has called `kill` with its number. -/
theorem killed_by_number (h : 0 < n) (hrun : Runs step Careful (State.userinit h : State C n) es s)
    (hp : (s.proc p).killed = true) :
    (s.proc p).state ≠ .unused ∧
      ∃ es₁ e es₂ s₁, es = es₁ ++ e :: es₂ ∧ Runs step Careful (State.userinit h : State C n) es₁ s₁ ∧
        (s₁.proc p).pid = (s.proc p).pid ∧ (s₁.proc p).state ≠ .unused ∧
        (e = .kill (s.proc p).pid ∨ ∃ c, e = .trap c ∧ s₁.curproc c = some p) := by
  have hused := unmarked_run h hrun p hp
  refine ⟨hused, ?_⟩
  -- the first step after which this process, and not an earlier one in its entry, is marked
  let Marked (t : State C n) : Prop := (t.proc p).killed = true ∧ (t.proc p).pid = (s.proc p).pid
  have hstart : ¬ Marked (State.userinit h) := fun hm => by
    have hkilled := hm.1
    simp only [State.userinit, Function.update_apply] at hkilled
    split at hkilled <;> cases hkilled
  obtain ⟨_, hend⟩ | ⟨es₁, e, es₂, s₁, s₂, hsplit, hrun₁, _, hbefore, he, hstep, hafter⟩ :=
    hrun.first_exit (P := fun t => ¬ Marked t) hstart
  · exact absurd ⟨hp, rfl⟩ hend
  obtain ⟨hkilled, hpid⟩ := not_not.mp hafter
  obtain ⟨hvalid, hblank⟩ := blank_run h (hrun₁.mono fun _ _ _ he => he.1)
  cases fate_step hvalid hstep p with
  | keeps hk => exact absurd ⟨hk.killed ▸ hkilled, hk.pid ▸ hpid⟩ hbefore
  | given hfree _ hsame => exact absurd hfree (unmarked_run h hrun₁ p (hsame ▸ hkilled))
  | failed hfails _ _ => exact absurd hfails he.1.2
  | cleared _ _ hfalse => simp [hfalse] at hkilled
  | chosen _ hsame hmark _ => exact absurd ⟨hmark ▸ hkilled, hsame ▸ hpid⟩ hbefore
  | struck hstrikes hsame _ _ _ =>
    have hsame₁ : (s₁.proc p).pid = (s.proc p).pid := hsame.symm.trans hpid
    refine ⟨es₁, e, es₂, s₁, hsplit, hrun₁, hsame₁, hstrikes.used hvalid hblank he.2, ?_⟩
    cases e with
    | kill pid => exact .inl (by rw [← hsame₁, show pid = (s₁.proc p).pid from hstrikes])
    | trap c => exact .inr ⟨c, rfl, hstrikes⟩
    | _ => exact hstrikes.elim

omit [DecidableEq C] in
theorem first_congr {property property' : Fin n → Entry n → Bool}
    (h : ∀ q, property q (s.proc q) = property' q (s'.proc q)) : s.first property = s'.first property' := by
  unfold State.first
  congr 1
  funext q
  exact h q

omit [DecidableEq C] in
/-- The entry that `kill(0)` finds is the one that `fork` takes next. -/
theorem first_blank (h : Valid s) (hblank : Blank s) :
    (s.first fun _ e => decide (e.pid = 0)) = s.first fun _ e => decide (e.state = .unused) := by
  refine first_congr fun q => decide_eq_decide.mpr ⟨fun hq => ?_, hblank q⟩
  by_contra hused
  have hkind : (s.kin q).kind ≠ .free := by
    rw [kin_kind]
    revert hused
    cases (s.proc q).state <;> simp [ProcState.kind]
  have hpos : 0 < (s.proc q).pid := h.accounts.pos hkind
  omega

/-- The mark goes only with the process that has it. -/
theorem killed_step (h : Valid s) (hq : (s.proc q).killed = true) (hzombie : (s.proc q).state ≠ .zombie)
    (hstep : step s e = .next s') : (s'.proc q).killed = true := by
  cases fate_step h hstep q with
  | keeps hk => exact hk.killed.trans hq
  | given _ _ hsame => exact hsame.trans hq
  | failed _ _ hsame => exact hsame.trans hq
  | cleared hz _ _ => exact absurd hz hzombie
  | struck _ _ hmark _ _ => exact hmark
  | chosen _ _ hsame _ => exact hsame.trans hq

theorem killed_run (h : Valid s) (hq : (s.proc q).killed = true)
    (hrun : Runs step (fun s e => Orderly s e ∧ (s.proc q).state ≠ .zombie) s es s') : (s'.proc q).killed = true := by
  have hinv := hrun.invariant (P := fun s => Valid s ∧ (s.proc q).killed = true) (fun _ _ _ _ hs he hstep => ?_) ⟨h, hq⟩
  · exact hinv.2
  · exact ⟨valid_step hs.1 hstep, killed_step hs.1 hs.2 he.2 hstep⟩

/-- A call of `fork` in which nothing fails. -/
theorem fork_succeeds {np : Fin n} (hc : s.curproc c = some p) (hnp : s.first (fun _ e => e.state = .unused) = some np)
    (hne : p ≠ np) (hpid : s.nextpid < 2 ^ 31 - 1) :
    ∃ s', Runs step Unfailing s [.allocproc c, .kalloc c true, .copyuvm c true, .start c] s' ∧
      s'.proc np = { s.proc np with
        state := .runnable, pid := s.nextpid, parent := some p, kstack := true, resume := .release } := by
  obtain ⟨hcpu, _⟩ := curproc_eq_some.mp hc
  let s₁ : State C n := State.set { s.set np { s.proc np with state := .embryo, pid := s.nextpid } with
    nextpid := s.nextpid + 1 } p { s.proc p with fork := some (.found np) }
  let s₂ := (s₁.set np { s₁.proc np with kstack := true, resume := .release }).set p
    { s₁.proc p with fork := some (.allocated np) }
  let s₃ := (s₂.set np { s₂.proc np with parent := some p }).set p { s₂.proc p with fork := some (.copied np) }
  let s₄ := (s₃.set np { s₃.proc np with state := .runnable }).set p { s₃.proc p with fork := none }
  have h₁ : s₁.forking c = some (p, .found np) := forking_eq_some.mpr ⟨hcpu, by simp [s₁, State.set]⟩
  have h₂ : s₂.forking c = some (p, .allocated np) := forking_eq_some.mpr ⟨hcpu, by simp [s₂, State.set]⟩
  have h₃ : s₃.forking c = some (p, .copied np) := forking_eq_some.mpr ⟨hcpu, by simp [s₃, State.set]⟩
  have hstep₁ : step s (.allocproc c) = .next s₁ := by simp [step, hc, hnp, s₁, State.set, hne]
  have hstep₂ : step s₁ (.kalloc c true) = .next s₂ := by simp [step, h₁, s₂, State.set, hne]
  have hstep₃ : step s₂ (.copyuvm c true) = .next s₃ := by simp [step, h₂, s₃, State.set, hne]
  have hstep₄ : step s₃ (.start c) = .next s₄ := by simp [step, h₃, s₄, State.set, hne]
  refine ⟨s₄, .cons ⟨hpid, id⟩ hstep₁ (.cons ⟨trivial, by simp [Fails]⟩ hstep₂
    (.cons ⟨trivial, by simp [Fails]⟩ hstep₃ (.cons ⟨trivial, id⟩ hstep₄ .nil))), ?_⟩
  simp [s₁, s₂, s₃, s₄, State.set, hne.symm]

/-- **`kill(0)` kills a process that is yet to be born**: it marks the free entry that `fork`
takes next. The mark is there as long as no process in that entry has exited, so that the
first to be born there is killed; a `fork` right away gives one. -/
theorem kill_zero_kills_next_child (h : 0 < n) (hrun : Runs step Unfailing (State.userinit h : State C n) es s)
    (hc : s.curproc c = some p) (hfree : ∃ q, (s.proc q).state = .unused) (hpid : s.nextpid < 2 ^ 31 - 1) :
    ∃ np s₁, step s (.kill 0) = .next s₁ ∧ (s₁.proc np).state = .unused ∧
      (∀ es₂ s₂, Runs step (fun s e => Orderly s e ∧ (s.proc np).state ≠ .zombie) s₁ es₂ s₂ →
        (s₂.proc np).killed = true) ∧
      ∃ s', Runs step Unfailing s₁ [.allocproc c, .kalloc c true, .copyuvm c true, .start c] s' ∧
        (s'.proc np).parent = some p ∧ (s'.proc np).state = .runnable ∧ (s'.proc np).pid = s.nextpid ∧
          (s'.proc np).killed = true := by
  obtain ⟨hvalid, hblank⟩ := blank_run h hrun
  obtain ⟨q, hq⟩ := hfree
  obtain ⟨np, hnp⟩ : ∃ np, (s.first fun _ e => decide (e.state = .unused)) = some np := by
    cases hfirst : s.first fun _ e => decide (e.state = .unused) with
    | none => simpa [hq] using first_none hfirst q
    | some np => exact ⟨np, rfl⟩
  have hunused := first_some hnp
  rw [decide_eq_true_eq] at hunused
  obtain ⟨hcpu, hfork⟩ := curproc_eq_some.mp hc
  have hne : p ≠ np := by
    rintro rfl
    simp [hvalid.placed.running hcpu] at hunused
  -- the mark is all that `kill` changes
  generalize hs₁ : s.set np { s.proc np with killed := true } = s₁
  have hkill : step s (.kill 0) = .next s₁ := by
    rw [← hs₁]
    simp [step, first_blank hvalid hblank, hnp, hunused]
  have hmarked : s₁.proc np = { s.proc np with killed := true } := by
    subst hs₁
    exact Function.update_self ..
  have hother : ∀ q, q ≠ np → s₁.proc q = s.proc q := by
    intro q hq
    subst hs₁
    exact Function.update_of_ne hq ..
  have hstate : ∀ q, (s.proc q).state = (s₁.proc q).state := by
    intro q
    by_cases hq : q = np
    · rw [hq, hmarked]
    · rw [hother q hq]
  have hnp₁ : (s₁.first fun _ e => decide (e.state = .unused)) = some np :=
    (first_congr fun q => by rw [hstate q]).symm.trans hnp
  have hc₁ : s₁.curproc c = some p := by
    refine curproc_eq_some.mpr ⟨?_, ?_⟩
    · subst hs₁
      exact hcpu
    · rw [hother p hne, hfork]
  have hpid₁ : s₁.nextpid = s.nextpid := by
    subst hs₁
    rfl
  obtain ⟨s', hforks, hborn⟩ := fork_succeeds hc₁ hnp₁ hne (hpid₁ ▸ hpid)
  refine ⟨np, s₁, hkill, by rw [hmarked, hunused], fun es₂ s₂ hrun₂ => ?_, s', hforks, ?_⟩
  · exact killed_run (valid_step hvalid hkill) (by rw [hmarked]) hrun₂
  · rw [hborn, hmarked, hpid₁]
    exact ⟨rfl, rfl, rfl, rfl⟩

end Steps

/-! ### The first child, killed and born killed -/

theorem kill_child_runs : Runs step Careful booted (birth ++ [.kill 2]) (after booted (birth ++ [.kill 2])) := by
  refine (after_runs (by decide +kernel)).mono fun s e he ho => ⟨⟨ho, ?_⟩, ?_⟩
  · revert e
    simp [birth, Fails]
  · revert e
    simp [birth]

theorem killed_by_number_child :
    ((after booted (birth ++ [.kill 2])).proc child).state ≠ .unused ∧
      ∃ es₁ e es₂ s₁, birth ++ [.kill 2] = es₁ ++ e :: es₂ ∧ Runs step Careful booted es₁ s₁ ∧
        (s₁.proc child).pid = ((after booted (birth ++ [.kill 2])).proc child).pid ∧
        (s₁.proc child).state ≠ .unused ∧
        (e = .kill ((after booted (birth ++ [.kill 2])).proc child).pid ∨
          ∃ c, e = .trap c ∧ s₁.curproc c = some child) :=
  killed_by_number (Nat.succ_pos 2) kill_child_runs (by decide +kernel)

theorem first_runs : Runs step Unfailing booted [.scheduler true] (after booted [.scheduler true]) := by
  refine (after_runs (by decide +kernel)).mono fun s e he ho => ⟨ho, ?_⟩
  revert e
  simp [Fails]

theorem kill_zero_kills_first_child : ∃ np s₁, step (after booted [.scheduler true]) (.kill 0) = .next s₁ ∧
    (s₁.proc np).state = .unused ∧
    (∀ es₂ s₂, Runs step (fun s e => Orderly s e ∧ (s.proc np).state ≠ .zombie) s₁ es₂ s₂ →
      (s₂.proc np).killed = true) ∧
    ∃ s', Runs step Unfailing s₁ [.allocproc true, .kalloc true true, .copyuvm true true, .start true] s' ∧
      (s'.proc np).parent = some ⟨0, Nat.succ_pos 2⟩ ∧ (s'.proc np).state = .runnable ∧
        (s'.proc np).pid = (after booted [.scheduler true]).nextpid ∧ (s'.proc np).killed = true :=
  kill_zero_kills_next_child (Nat.succ_pos 2) first_runs (by decide +kernel) ⟨child, by decide +kernel⟩
    (by decide +kernel)

end CompilingToAssembly.Xv6.Proc
