import CompilingToAssembly.Xv6.Family

/-! Whole runs of the process table.

Whatever the processors do, each process runs on at most one of them, the family is in
order, and a process that sleeps in `wait` has a child and none that has exited. -/
namespace CompilingToAssembly.Xv6.Proc
open Library State

variable {C : Type} {n : Nat}

/-! ### What the invariants say -/

structure Placed (s : State C n) : Prop where
  running : ∀ {c p}, (s.cpu c).proc = some p → (s.proc p).state = .running
  placed : ∀ {p}, (s.proc p).state = .running → ∃ c, (s.cpu c).proc = some p
  alone : ∀ {c c' p}, (s.cpu c).proc = some p → (s.cpu c').proc = some p → c = c'

/-- A process that sleeps on an entry of the table sleeps in `wait`, on its own entry: it
has a child, and none of its children is a zombie. -/
structure Asleep (s : State C n) : Prop where
  chan : ∀ {p}, (s.proc p).state = .sleeping → (s.proc p).chan ≠ none
  wait : ∀ {p q}, (s.proc p).state = .sleeping → (s.proc p).chan = some (.proc q) → q = p ∧
    (∃ r, (s.proc r).parent = some p) ∧ ∀ r, (s.proc r).parent = some p → (s.proc r).state ≠ .zombie

structure Valid (s : State C n) : Prop where
  placed : Placed s
  asleep : Asleep s
  family : Family s.initproc s.kin
  accounts : Accounts s.kin s.nextpid s.exited s.reaped

section Steps
variable {s s' : State C n} {c : C} {p np q : Fin n}

theorem kin_set (s : State C n) (p : Fin n) (e : Entry n) : (s.set p e).kin = Function.update s.kin p e.kin := by
  funext q
  by_cases hq : q = p
  · subst hq
    simp [State.kin, State.set]
  · simp [State.kin, State.set, hq]

theorem kin_kind (s : State C n) (p : Fin n) : (s.kin p).kind = (s.proc p).state.kind := rfl

theorem first_some {property : Fin n → Entry n → Bool} (h : s.first property = some p) : property p (s.proc p) = true := by
  simpa using List.find?_some h

theorem first_none {property : Fin n → Entry n → Bool} (h : s.first property = none) (p : Fin n) :
    property p (s.proc p) = false := by
  simpa using List.find?_eq_none.mp h p (List.mem_finRange p)

theorem curproc_eq_some : s.curproc c = some p ↔ (s.cpu c).proc = some p ∧ (s.proc p).fork = none := by
  simp [State.curproc, Option.filter_eq_some_iff]

theorem forking_eq_some {f : Fork n} :
    s.forking c = some (p, f) ↔ (s.cpu c).proc = some p ∧ (s.proc p).fork = some f := by
  simp only [State.forking, Option.bind_eq_some_iff, Option.map_eq_some_iff, Prod.mk.injEq]
  constructor
  · rintro ⟨_, hproc, _, hfork, rfl, rfl⟩
    exact ⟨hproc, hfork⟩
  · rintro ⟨hproc, hfork⟩
    exact ⟨p, hproc, f, hfork, rfl, rfl⟩

theorem Valid.live (h : Valid s) (hc : (s.cpu c).proc = some p) : (s.kin p).kind = .live := by
  rw [kin_kind, h.placed.running hc]
  rfl

/-- Nothing happens to the family. -/
theorem Valid.of_kin (h : Valid s) (hplaced : Placed s') (hasleep : Asleep s') (hkin : s'.kin = s.kin)
    (hinit : s'.initproc = s.initproc) (hnext : s'.nextpid = s.nextpid) (hexited : s'.exited = s.exited)
    (hreaped : s'.reaped = s.reaped) : Valid s' := by
  refine ⟨hplaced, hasleep, ?_, ?_⟩
  · rw [hinit, hkin]
    exact h.family
  · rw [hkin, hnext, hexited, hreaped]
    exact h.accounts

theorem Placed.of_same (h : Placed s) (hcpu : ∀ c, (s'.cpu c).proc = (s.cpu c).proc)
    (hstate : ∀ p, (s'.proc p).state = .running ↔ (s.proc p).state = .running) : Placed s' where
  running hc := (hstate _).mpr (h.running (hcpu _ ▸ hc))
  placed hp := by
    obtain ⟨c, hc⟩ := h.placed ((hstate _).mp hp)
    exact ⟨c, (hcpu c).trans hc⟩
  alone hc hc' := h.alone (hcpu _ ▸ hc) (hcpu _ ▸ hc')

/-- Nobody falls asleep, and who sleeps in `wait` keeps the children and gets no zombie. -/
theorem Asleep.of_awake (h : Asleep s)
    (hsub : ∀ p, (s'.proc p).state = .sleeping → (s.proc p).state = .sleeping ∧ (s'.proc p).chan = (s.proc p).chan)
    (hkids : ∀ p r, (s'.proc p).state = .sleeping → (s'.proc p).chan = some (.proc p) →
      ((s.proc r).parent = some p → (s'.proc r).parent = some p) ∧
        ((s'.proc r).parent = some p → (s'.proc r).state = .zombie →
          (s.proc r).parent = some p ∧ (s.proc r).state = .zombie)) : Asleep s' where
  chan hp := by
    obtain ⟨hslept, hchan⟩ := hsub _ hp
    rw [hchan]
    exact h.chan hslept
  wait {p q} hp hq := by
    obtain ⟨hslept, hchan⟩ := hsub p hp
    obtain ⟨rfl, ⟨r, hr⟩, hnone⟩ := h.wait hslept (hchan ▸ hq)
    refine ⟨rfl, ⟨r, (hkids q r hp hq).1 hr⟩, fun r hr hzombie => ?_⟩
    obtain ⟨hparent, hwas⟩ := (hkids q r hp hq).2 hr hzombie
    exact hnone r hparent hwas

/-! ### `fork` -/

theorem Valid.fork (h : Valid s) (hc : (s.cpu c).proc = some p) (hown : Owns s.kin p np) (e : Entry n)
    (stage : Option (Fork n)) (nextpid : Nat) (hleaves : Leaves p np stage e.kin) (hfork : e.fork = (s.proc np).fork)
    (hstate : (s.proc np).state ≠ .zombie ∧ e.state ≠ .running ∧ e.state ≠ .sleeping)
    (hpid : (e.pid = s.nextpid ∧ nextpid = s.nextpid + 1) ∨
      (e.pid = (s.proc np).pid ∧ nextpid = s.nextpid ∧ (s.proc np).state ≠ .unused)) :
    Valid { (s.set np e).set p { (s.set np e).proc p with fork := stage } with nextpid := nextpid } := by
  have hlive := h.live hc
  have hdead := h.family.owns_not_live hown
  have hne : p ≠ np := fun heq => hdead (heq ▸ hlive)
  have hsame : (s.set np e).proc p = s.proc p := Function.update_of_ne hne ..
  rw [hsame]
  generalize hs' : ({ (s.set np e).set p { s.proc p with fork := stage } with nextpid := nextpid } : State C n) = s'
  have hkin : s'.kin = Function.update (Function.update s.kin np e.kin) p { s.kin p with fork := stage } := by
    rw [← kin_set]
    subst hs'
    exact kin_set ..
  have hforks := h.family.forks hlive hown hleaves (hfork.trans (h.family.fork_eq_none hdead))
  rw [← hkin] at hforks
  have hcaller : s'.proc p = { s.proc p with fork := stage } := by
    subst hs'
    exact Function.update_self ..
  have hnew : s'.proc np = e := by
    subst hs'
    exact (Function.update_of_ne hne.symm ..).trans (Function.update_self ..)
  have hother : ∀ q, q ≠ p → q ≠ np → s'.proc q = s.proc q := by
    intro q hq hqnp
    subst hs'
    exact (Function.update_of_ne hq ..).trans (Function.update_of_ne hqnp ..)
  have hawake : ∀ q, q ≠ np → (s'.proc q).state = (s.proc q).state ∧ (s'.proc q).chan = (s.proc q).chan ∧
      (s'.proc q).parent = (s.proc q).parent := by
    intro q hq
    by_cases hqp : q = p
    · rw [hqp, hcaller]
      exact ⟨rfl, rfl, rfl⟩
    · rw [hother q hqp hq]
      exact ⟨rfl, rfl, rfl⟩
  have hrunning := h.placed.running hc
  refine ⟨h.placed.of_same (fun c => by rw [← hs']; rfl) fun q => ?_, h.asleep.of_awake ?_ ?_, ?_, ?_⟩
  · by_cases hq : q = np
    · rw [hq, hnew]
      refine ⟨fun hr => absurd hr hstate.2.1, fun hr => ?_⟩
      rw [kin_kind, hr] at hdead
      exact absurd rfl hdead
    · rw [(hawake q hq).1]
  · intro q hq
    have hqnp : q ≠ np := by
      rintro rfl
      exact hstate.2.2 (hnew ▸ hq)
    rw [(hawake q hqnp).1] at hq
    exact ⟨hq, (hawake q hqnp).2.1⟩
  · intro q r hq _
    -- the caller, to whom the new process may belong, is awake
    have hqp : q ≠ p := by
      rintro rfl
      rw [hcaller] at hq
      simp [hrunning] at hq
    by_cases hr : r = np
    · subst hr
      rw [hnew]
      exact ⟨fun hold => absurd (h.family.owns_parent hown hold) hqp,
        fun hnow _ => absurd (hleaves.parent_eq hnow) hqp⟩
    · obtain ⟨hst, _, hpar⟩ := hawake r hr
      rw [hst, hpar]
      exact ⟨id, fun hp hz => ⟨hp, hz⟩⟩
  · have hinit : s'.initproc = s.initproc := by rw [← hs']; rfl
    rw [hinit]
    exact h.family.fork hlive hown hforks
  · have haccounts : Accounts s'.kin nextpid s.exited s.reaped := by
      refine h.accounts.fork ?_ hforks ?_
      · rw [kin_kind]
        revert hstate
        cases (s.proc np).state <;> simp [ProcState.kind]
      · refine hpid.imp_right fun hold => ⟨hold.1, hold.2.1, ?_⟩
        have hused := hold.2.2
        rw [kin_kind]
        revert hused
        cases (s.proc np).state <;> simp [ProcState.kind]
    subst hs'
    exact haccounts

/-! ### The processors -/

/-- A process wakes up, if anything. -/
structure Rouses (e e' : Entry n) : Prop where
  state : e'.state = e.state ∨ (e.state = .sleeping ∧ e'.state = .runnable)
  chan : e'.chan = e.chan
  killed : e'.killed = e.killed
  pid : e'.pid = e.pid
  parent : e'.parent = e.parent
  kstack : e'.kstack = e.kstack
  fork : e'.fork = e.fork

theorem Rouses.refl (e : Entry n) : Rouses e e := ⟨.inl rfl, rfl, rfl, rfl, rfl, rfl, rfl⟩

theorem Rouses.kin {e e' : Entry n} (h : Rouses e e') : e'.kin = e.kin := by
  have hkind : e'.state.kind = e.state.kind := by
    rcases h.state with hs | ⟨hs, hs'⟩
    · rw [hs]
    · rw [hs, hs']
      rfl
  simp only [Entry.kin, hkind, h.pid, h.parent, h.kstack, h.fork]

theorem rouses_wakeup1 (chan : Option (Chan n)) (proc : Fin n → Entry n) (q : Fin n) :
    Rouses (proc q) (wakeup1 chan proc q) := by
  unfold wakeup1
  split
  · next hasleep => exact ⟨.inr ⟨hasleep.1, rfl⟩, rfl, rfl, rfl, rfl, rfl, rfl⟩
  · exact .refl _

theorem Valid.rouse (h : Valid s) {proc : Fin n → Entry n} (hr : ∀ q, Rouses (s.proc q) (proc q)) :
    Valid { s with proc := proc } := by
  refine h.of_kin (h.placed.of_same (fun _ => rfl) fun q => ?_) (h.asleep.of_awake ?_ ?_)
    (funext fun q => (hr q).kin) rfl rfl rfl rfl
  · rcases (hr q).state with hs | ⟨hs, hs'⟩
    · rw [hs]
    · simp [hs, hs']
  · intro q hq
    rcases (hr q).state with hs | ⟨_, hs⟩
    · exact ⟨hs ▸ hq, (hr q).chan⟩
    · simp [hs] at hq
  · intro q r _ _
    rw [(hr r).parent]
    refine ⟨id, fun hparent hzombie => ⟨hparent, ?_⟩⟩
    rcases (hr r).state with hs | ⟨_, hs⟩
    · exact hs ▸ hzombie
    · simp [hs] at hzombie

/-- Something else changes in an entry. -/
theorem Valid.touch (h : Valid s) (p : Fin n) {e : Entry n} (he : e.kin = (s.proc p).kin)
    (hstate : e.state = (s.proc p).state) (hchan : e.state = .sleeping → e.chan = (s.proc p).chan) :
    Valid (s.set p e) := by
  have hother : ∀ q, q ≠ p → (s.set p e).proc q = s.proc q := fun q hq => Function.update_of_ne hq ..
  have hself : (s.set p e).proc p = e := Function.update_self ..
  have hsame : ∀ q, ((s.set p e).proc q).state = (s.proc q).state := by
    intro q
    by_cases hq : q = p
    · rw [hq, hself, hstate]
    · rw [hother q hq]
  have hkin : (s.set p e).kin = s.kin := by
    rw [kin_set, he]
    exact Function.update_eq_self ..
  refine h.of_kin (h.placed.of_same (fun _ => rfl) fun q => by rw [hsame]) (h.asleep.of_awake ?_ ?_) hkin rfl rfl rfl rfl
  · intro q hq
    refine ⟨(hsame q).symm.trans hq, ?_⟩
    by_cases hqp : q = p
    · rw [hqp, hself] at hq ⊢
      exact hchan hq
    · rw [hother q hqp]
  · intro q r _ _
    have hparent : ((s.set p e).proc r).parent = (s.proc r).parent := congrArg Kin.parent (congrFun hkin r)
    rw [hparent, hsame]
    exact ⟨id, fun hparent hzombie => ⟨hparent, hzombie⟩⟩

variable [DecidableEq C]

theorem sched_proc (s : State C n) (c : C) : (s.sched c).proc = s.proc := rfl

theorem Placed.leave (h : Placed s) (hc : (s.cpu c).proc = some p)
    (hcpu : s'.cpu = Function.update s.cpu c { s.cpu c with proc := none }) (hp : (s'.proc p).state ≠ .running)
    (hother : ∀ q, q ≠ p → ((s'.proc q).state = .running ↔ (s.proc q).state = .running)) : Placed s' := by
  have hcpus : ∀ {c' q}, (s'.cpu c').proc = some q → c' ≠ c ∧ (s.cpu c').proc = some q := by
    intro c' q hq
    rw [hcpu] at hq
    by_cases hc' : c' = c
    · simp [hc'] at hq
    · rw [Function.update_of_ne hc'] at hq
      exact ⟨hc', hq⟩
  refine ⟨fun {c' q} hq => ?_, fun {q} hq => ?_, fun hq hq' => h.alone (hcpus hq).2 (hcpus hq').2⟩
  · obtain ⟨hc', hq⟩ := hcpus hq
    have hqp : q ≠ p := by
      rintro rfl
      exact hc' (h.alone hq hc)
    exact (hother q hqp).mpr (h.running hq)
  · have hqp : q ≠ p := by
      rintro rfl
      exact hp hq
    obtain ⟨c', hc'⟩ := h.placed ((hother q hqp).mp hq)
    have hne : c' ≠ c := by
      rintro rfl
      rw [hc] at hc'
      exact hqp (Option.some.inj hc').symm
    refine ⟨c', ?_⟩
    rw [hcpu, Function.update_of_ne hne, hc']

/-- The process on `c` calls `sched`, not to run on. -/
theorem Valid.giveUp (h : Valid s) (hc : (s.cpu c).proc = some p) {e : Entry n} (he : e.kin = (s.proc p).kin)
    (hstate : e.state ≠ .running) (hchan : e.state = .sleeping → e.chan ≠ none)
    (hwait : ∀ q, e.chan = some (.proc q) → e.state = .sleeping → q = p ∧ (∃ r, (s.proc r).parent = some p) ∧
      ∀ r, (s.proc r).parent = some p → (s.proc r).state ≠ .zombie) :
    Valid ((s.set p e).sched c) := by
  have hother : ∀ q, q ≠ p → ((s.set p e).sched c).proc q = s.proc q := fun q hq => Function.update_of_ne hq ..
  have hself : ((s.set p e).sched c).proc p = e := Function.update_self ..
  have hkin : ((s.set p e).sched c).kin = s.kin := by
    refine (kin_set s p e).trans ?_
    rw [he]
    exact Function.update_eq_self ..
  have hparent : ∀ r, (((s.set p e).sched c).proc r).parent = (s.proc r).parent := fun r =>
    congrArg Kin.parent (congrFun hkin r)
  have hzombie : ∀ r, (((s.set p e).sched c).proc r).state = .zombie → (s.proc r).state = .zombie := by
    intro r hr
    by_cases hrp : r = p
    · have hkind := congrArg Kin.kind he
      rw [hrp, hself] at hr
      rw [hrp]
      simp only [Entry.kin, hr, h.placed.running hc, ProcState.kind] at hkind
      cases hkind
    · rwa [hother r hrp] at hr
  refine h.of_kin (h.placed.leave hc rfl ?_ fun q hq => by rw [hother q hq]) ⟨fun {q} hq => ?_, fun {q r} hq hr => ?_⟩ hkin
    rfl rfl rfl rfl
  · rwa [hself]
  · by_cases hqp : q = p
    · rw [hqp, hself] at hq ⊢
      exact hchan hq
    · rw [hother q hqp] at hq ⊢
      exact h.asleep.chan hq
  · have hkids : r = q ∧ (∃ k, (s.proc k).parent = some q) ∧
        ∀ k, (s.proc k).parent = some q → (s.proc k).state ≠ .zombie := by
      by_cases hqp : q = p
      · rw [hqp, hself] at hq hr
        rw [hqp]
        exact hwait r hr hq
      · rw [hother q hqp] at hq hr
        exact h.asleep.wait hq hr
    obtain ⟨hrq, ⟨k, hk⟩, hnone⟩ := hkids
    refine ⟨hrq, ⟨k, (hparent k).trans hk⟩, fun k hk hz => ?_⟩
    rw [hparent] at hk
    exact hnone k hk (hzombie k hz)

theorem Valid.dispatch (h : Valid s) (hc : (s.cpu c).proc = none) (hp : (s.proc p).state = .runnable) (i : Nat) :
    Valid ((s.set p { s.proc p with state := .running }).setCpu c ⟨some p, i⟩) := by
  generalize hs' : (s.set p { s.proc p with state := .running }).setCpu c ⟨some p, i⟩ = s'
  have hself : s'.proc p = { s.proc p with state := .running } := by
    subst hs'
    exact Function.update_self ..
  have hother : ∀ q, q ≠ p → s'.proc q = s.proc q := by
    intro q hq
    subst hs'
    exact Function.update_of_ne hq ..
  have hcpu : s'.cpu = Function.update s.cpu c ⟨some p, i⟩ := by
    subst hs'
    rfl
  have hkin : s'.kin = s.kin := by
    funext q
    by_cases hq : q = p
    · subst hq
      simp only [State.kin, hself, Entry.kin, hp, ProcState.kind]
    · simp only [State.kin, hother q hq]
  have hwas : ∀ {q}, (s'.proc q).state = .sleeping ∨ (s'.proc q).state = .zombie → s'.proc q = s.proc q := by
    intro q hq
    apply hother
    rintro rfl
    simp [hself] at hq
  have hnot : ∀ c', (s.cpu c').proc ≠ some p := by
    intro c' hc'
    simpa [hp] using h.placed.running hc'
  refine h.of_kin ⟨fun {c' q} hq => ?_, fun {q} hq => ?_, fun {c₁ c₂ q} h₁ h₂ => ?_⟩ (h.asleep.of_awake ?_ ?_) hkin ?_ ?_
    ?_ ?_
  · rw [hcpu] at hq
    by_cases hc' : c' = c
    · subst hc'
      rw [Function.update_self] at hq
      cases hq
      rw [hself]
    · rw [Function.update_of_ne hc'] at hq
      rw [hother q fun heq => hnot c' (heq ▸ hq)]
      exact h.placed.running hq
  · rw [hcpu]
    by_cases hqp : q = p
    · exact ⟨c, by rw [Function.update_self, hqp]⟩
    · rw [hother q hqp] at hq
      obtain ⟨c', hc'⟩ := h.placed.placed hq
      have hne : c' ≠ c := by
        rintro rfl
        simp [hc] at hc'
      exact ⟨c', by rw [Function.update_of_ne hne, hc']⟩
  · rw [hcpu, Function.update_apply] at h₁ h₂
    split at h₁ <;> split at h₂
    · next h₁' h₂' => exact h₁'.trans h₂'.symm
    · cases h₁
      exact absurd h₂ (hnot _)
    · cases h₂
      exact absurd h₁ (hnot _)
    · exact h.placed.alone h₁ h₂
  · intro q hq
    have hsame := hwas (.inl hq)
    rw [hsame] at hq ⊢
    exact ⟨hq, rfl⟩
  · intro q r _ _
    have hparent : (s'.proc r).parent = (s.proc r).parent := congrArg Kin.parent (congrFun hkin r)
    refine ⟨fun hr => hparent.trans hr, fun hr hzombie => ⟨hparent.symm.trans hr, ?_⟩⟩
    rw [← hwas (.inr hzombie), hzombie]
  all_goals
    subst hs'
    rfl

/-! ### `wait` -/

omit [DecidableEq C] in
theorem Valid.reap (h : Valid s) (hc : (s.cpu c).proc = some p) (hparent : (s.proc q).parent = some p)
    (hq : (s.proc q).state = .zombie) :
    Valid { s.set q (s.proc q).reap with reaped := s.reaped ++ [(s.proc q).pid] } := by
  have hkind : (s.kin q).kind = .zombie := by
    rw [kin_kind, hq]
    rfl
  have hkin := kin_set s q (s.proc q).reap
  have hself : (s.set q (s.proc q).reap).proc q = (s.proc q).reap := Function.update_self ..
  have hother : ∀ r, r ≠ q → (s.set q (s.proc q).reap).proc r = s.proc r := fun r hr => Function.update_of_ne hr ..
  have hsame : ∀ r, ((s.set q (s.proc q).reap).proc r).state ≠ .unused → r ≠ q := by
    rintro r hr rfl
    exact hr (by rw [hself]; rfl)
  refine ⟨h.placed.of_same (fun _ => rfl) fun r => ?_, h.asleep.of_awake ?_ ?_, ?_, ?_⟩
  · change ((s.set q (s.proc q).reap).proc r).state = .running ↔ _
    by_cases hr : r = q
    · rw [hr, hself, hq]
      simp [Entry.reap]
    · rw [hother r hr]
  · intro r hr
    have hrq := hsame r (by change _ = _ at hr; rw [hr]; nofun)
    change ((s.set q (s.proc q).reap).proc r).state = .sleeping at hr
    change _ ∧ ((s.set q (s.proc q).reap).proc r).chan = _
    rw [hother r hrq] at hr ⊢
    exact ⟨hr, rfl⟩
  · intro r k hr _
    change ((s.set q (s.proc q).reap).proc r).state = .sleeping at hr
    change (_ → ((s.set q (s.proc q).reap).proc k).parent = _) ∧
      (((s.set q (s.proc q).reap).proc k).parent = _ → ((s.set q (s.proc q).reap).proc k).state = _ → _)
    by_cases hk : k = q
    · -- the parent of the child that goes is the caller, who is awake
      subst hk
      have hrk := hsame r (by rw [hr]; nofun)
      rw [hother r hrk] at hr
      rw [hself, hparent]
      refine ⟨fun heq => ?_, fun heq => ?_⟩
      · cases heq
        rw [h.placed.running hc] at hr
        cases hr
      · simp [Entry.reap] at heq
    · rw [hother k hk]
      exact ⟨id, fun hp hz => ⟨hp, hz⟩⟩
  · have := h.family.reap hkind
    rw [show reapKin (s.kin q) = (s.proc q).reap.kin from rfl, ← hkin] at this
    exact this
  · have := h.accounts.reap hkind
    rw [show reapKin (s.kin q) = (s.proc q).reap.kin from rfl, ← hkin] at this
    exact this

theorem Valid.waitLoop (h : Valid s) (hc : (s.cpu c).proc = some p) : Valid (s.waitLoop c p) := by
  unfold State.waitLoop
  split
  · next q hq =>
    have hchild := first_some hq
    simp only [isZombieChild, isChild, Bool.and_eq_true, decide_eq_true_eq] at hchild
    exact h.reap hc hchild.1 hchild.2
  · next hnone =>
    have hno : ∀ r, (s.proc r).parent = some p → (s.proc r).state ≠ .zombie := by
      intro r hr hzombie
      simpa [isZombieChild, isChild, hr, hzombie] using first_none hnone r
    dsimp only
    split
    · exact h
    · next hgo =>
      simp only [Bool.or_eq_true, Bool.not_eq_true', not_or, Bool.not_eq_false] at hgo
      obtain ⟨r, hr⟩ := Option.isSome_iff_exists.mp hgo.1
      have hkid := first_some hr
      simp only [isChild, decide_eq_true_eq] at hkid
      refine h.giveUp hc ?_ nofun (fun _ => Option.some_ne_none _) fun q hq _ => ?_
      · simp only [Entry.kin, h.placed.running hc, ProcState.kind]
      · cases hq
        exact ⟨rfl, ⟨r, hkid⟩, hno⟩

theorem Valid.goOn (h : Valid s) (hc : (s.cpu c).proc = some p) : Valid (s.goOn c p) := by
  have hrunning := h.placed.running hc
  have hawake := h.touch p (e := { s.proc p with chan := none }) rfl rfl fun hp => by simp [hrunning] at hp
  unfold State.goOn
  split
  · exact h
  · exact hawake
  · exact hawake.waitLoop hc

/-! ### `exit` -/

/-- What the loop in `exit` has done when it has seen the entries `seen`. -/
structure Passes (curproc initproc : Fin n) (seen : List (Fin n)) (proc proc' : Fin n → Entry n) : Prop where
  parent : ∀ q, (proc' q).parent =
    if q ∈ seen ∧ (proc q).parent = some curproc then some initproc else (proc q).parent
  rouses : ∀ q, Rouses (proc q) { proc' q with parent := (proc q).parent }
  woken : ∀ r ∈ seen, (proc r).parent = some curproc → (proc r).state = .zombie →
    ∀ q, (proc' q).state = .sleeping → (proc' q).chan ≠ some (.proc initproc)

theorem Rouses.trans {e e' e'' : Entry n} (h : Rouses e e') (h' : Rouses e' e'') : Rouses e e'' := by
  refine ⟨?_, h'.chan.trans h.chan, h'.killed.trans h.killed, h'.pid.trans h.pid, h'.parent.trans h.parent, h'.kstack.trans h.kstack,
    h'.fork.trans h.fork⟩
  rcases h'.state with hs' | ⟨hs', hr'⟩
  · rcases h.state with hs | ⟨hs, hr⟩
    · exact .inl (hs'.trans hs)
    · exact .inr ⟨hs, hs'.trans hr⟩
  · rcases h.state with hs | ⟨hs, hr⟩
    · exact .inr ⟨hs.symm.trans hs', hr'⟩
    · simp [hr] at hs'

theorem Rouses.zombie {e e' : Entry n} (h : Rouses e e') : e'.state = .zombie ↔ e.state = .zombie := by
  rcases h.state with hs | ⟨hs, hs'⟩
  · rw [hs]
  · simp [hs, hs']

theorem Rouses.sleeping {e e' : Entry n} (h : Rouses e e') (hs' : e'.state = .sleeping) : e.state = .sleeping := by
  rcases h.state with hs | ⟨hs, _⟩
  · exact hs.symm.trans hs'
  · exact hs

theorem Rouses.running {e e' : Entry n} (h : Rouses e e') : e'.state = .running ↔ e.state = .running := by
  rcases h.state with hs | ⟨hs, hs'⟩
  · rw [hs]
  · simp [hs, hs']

theorem wakeup1_chan {chan : Option (Chan n)} {proc : Fin n → Entry n} {q : Fin n}
    (h : (wakeup1 chan proc q).state = .sleeping) : (wakeup1 chan proc q).chan ≠ chan := by
  unfold wakeup1 at h ⊢
  split at h
  · cases h
  · next hnot =>
    rw [if_neg hnot]
    exact fun hchan => hnot ⟨h, hchan⟩

/-- The entry `p` belongs to the caller: it is passed on. -/
theorem Passes.pass {curproc initproc p : Fin n} {seen : List (Fin n)} {proc mid : Fin n → Entry n}
    (h : Passes curproc initproc seen proc mid) (hp : (proc p).parent = some curproc)
    {proc' : Fin n → Entry n}
    (hrouses : ∀ q, Rouses (Function.update mid p { mid p with parent := some initproc } q) (proc' q))
    (hwoken : (mid p).state = .zombie → ∀ q, (proc' q).state = .sleeping → (proc' q).chan ≠ some (.proc initproc)) :
    Passes curproc initproc (seen ++ [p]) proc proc' := by
  have hstep : ∀ q, Rouses (mid q) { proc' q with parent := (mid q).parent } := by
    intro q
    have hq := hrouses q
    by_cases hqp : q = p
    · subst hqp
      rw [Function.update_self] at hq
      exact ⟨hq.state, hq.chan, hq.killed, hq.pid, rfl, hq.kstack, hq.fork⟩
    · rw [Function.update_of_ne hqp] at hq
      exact ⟨hq.state, hq.chan, hq.killed, hq.pid, rfl, hq.kstack, hq.fork⟩
  refine ⟨fun q => ?_, fun q => ?_, fun r hr hparent hzombie q hq => ?_⟩
  · rw [(hrouses q).parent]
    by_cases hqp : q = p
    · rw [hqp, Function.update_self, if_pos ⟨by simp, hp⟩]
    · rw [Function.update_of_ne hqp, h.parent q]
      simp [hqp]
  · have hq := hstep q
    have hmid := h.rouses q
    exact hmid.trans ⟨hq.state, hq.chan, hq.killed, hq.pid, rfl, hq.kstack, hq.fork⟩
  · rcases List.mem_append.mp hr with hr | hr
    · rw [(hstep q).chan]
      exact h.woken r hr hparent hzombie q ((hstep q).sleeping hq)
    · rw [List.mem_singleton.mp hr] at hzombie
      exact hwoken ((h.rouses p).zombie.mpr hzombie) q hq

theorem passes_foldl (curproc initproc : Fin n) (seen : List (Fin n))
    (proc : Fin n → Entry n) :
    Passes curproc initproc seen proc (seen.foldl (passChild curproc initproc) proc) := by
  induction seen using List.reverseRecOn with
  | nil => exact ⟨by simp, fun q => .refl _, by simp⟩
  | append_singleton seen p ih =>
    rw [List.foldl_append, List.foldl_cons, List.foldl_nil]
    generalize seen.foldl (passChild curproc initproc) proc = mid at ih
    have hmid := ih.parent p
    unfold passChild
    split
    · next hchild =>
      have hp : (proc p).parent = some curproc := by
        rw [hchild] at hmid
        split at hmid
        · next hseen => exact hseen.2
        · exact hmid.symm
      dsimp only
      split
      · exact ih.pass hp (rouses_wakeup1 _ _) fun _ q => wakeup1_chan
      · next hzombie =>
        exact ih.pass hp (fun q => .refl _) fun hz => absurd (by rw [Function.update_self]; exact hz) hzombie
    · next hother =>
      -- if the caller was its parent, the entry was seen before
      have hseen : (proc p).parent = some curproc → p ∈ seen := by
        intro hp
        by_contra hnot
        rw [if_neg fun h => hnot h.1] at hmid
        exact hother (hmid.trans hp)
      refine ⟨fun q => ?_, ih.rouses, fun r hr hparent => ?_⟩
      · rw [ih.parent q]
        refine if_congr ⟨fun h => ⟨List.mem_append_left _ h.1, h.2⟩, fun h => ⟨?_, h.2⟩⟩ rfl rfl
        rcases List.mem_append.mp h.1 with hq | hq
        · exact hq
        · rw [List.mem_singleton.mp hq] at h ⊢
          exact hseen h.2
      · rcases List.mem_append.mp hr with hr | hr
        · exact ih.woken r hr hparent
        · rw [List.mem_singleton.mp hr] at hparent ⊢
          exact ih.woken p (hseen hparent) hparent

/-- What `exit` has done to the table when it calls `sched`, but for the caller's state. -/
structure Exits (s : State C n) (p : Fin n) (proc : Fin n → Entry n) : Prop where
  rouses : ∀ q, Rouses (s.proc q) { proc q with parent := (s.proc q).parent }
  parent : ∀ q, (proc q).parent = if (s.proc q).parent = some p then some s.initproc else (s.proc q).parent
  /-- The caller's parent is awake. -/
  told : ∀ q r, (proc q).state = .sleeping → (s.proc p).parent = some r → (proc q).chan ≠ some (.proc r)
  /-- Where a zombie is passed on, the first process is. -/
  passed : ∀ r, (s.proc r).parent = some p → (s.proc r).state = .zombie →
    ∀ q, (proc q).state = .sleeping → (proc q).chan ≠ some (.proc s.initproc)

omit [DecidableEq C] in
theorem exits_passChildren (s : State C n) (p : Fin n) :
    Exits s p (passChildren p s.initproc (wakeup1 ((s.proc p).parent.map .proc) s.proc)) := by
  have hwake := fun q => rouses_wakeup1 ((s.proc p).parent.map .proc) s.proc q
  have hpass := passes_foldl p s.initproc (List.finRange n) (wakeup1 ((s.proc p).parent.map .proc) s.proc)
  rw [← passChildren] at hpass
  refine ⟨fun q => ?_, fun q => ?_, fun q r hslept hr => ?_, fun r hr hzombie => ?_⟩
  · have hq := hpass.rouses q
    exact (hwake q).trans ⟨hq.state, hq.chan, hq.killed, hq.pid, (hwake q).parent.symm, hq.kstack, hq.fork⟩
  · rw [hpass.parent q, (hwake q).parent]
    simp
  · have hwoken := wakeup1_chan ((hpass.rouses q).sleeping hslept)
    rw [← (hpass.rouses q).chan] at hwoken
    exact fun hchan => hwoken (hchan.trans (by rw [hr]; rfl))
  · refine hpass.woken r (List.mem_finRange r) ?_ ((hwake r).zombie.mpr hzombie)
    rw [(hwake r).parent, hr]

/-- The table of a process that has called `exit`. -/
def exitProc (p : Fin n) (proc : Fin n → Entry n) : Fin n → Entry n :=
  Function.update proc p { proc p with state := .zombie }

section Exits
variable {proc : Fin n → Entry n}

omit [DecidableEq C] in
theorem exitProc_of_ne (hq : q ≠ p) : exitProc p proc q = proc q := Function.update_of_ne hq ..

omit [DecidableEq C] in
theorem exitProc_self : exitProc p proc p = { proc p with state := .zombie } := Function.update_self ..

omit [DecidableEq C] in
theorem exitProc_parent : (exitProc p proc q).parent = (proc q).parent := by
  by_cases hq : q = p
  · rw [hq, exitProc_self]
  · rw [exitProc_of_ne hq]

omit [DecidableEq C] in
theorem exitProc_sleeping (hq : (exitProc p proc q).state = .sleeping) :
    q ≠ p ∧ (proc q).state = .sleeping ∧ exitProc p proc q = proc q := by
  have hqp : q ≠ p := by
    rintro rfl
    rw [exitProc_self] at hq
    cases hq
  rw [exitProc_of_ne hqp] at hq
  exact ⟨hqp, hq, exitProc_of_ne hqp⟩

omit [DecidableEq C] in
theorem Exits.kin (h : Exits s p proc) :
    (fun q => (exitProc p proc q).kin) = exitKin p s.initproc s.kin := by
  funext q
  have hrest : (exitProc p proc q).pid = (s.proc q).pid ∧ (exitProc p proc q).kstack = (s.proc q).kstack ∧
      (exitProc p proc q).fork = (s.proc q).fork ∧
      (exitProc p proc q).state.kind = if q = p then .zombie else (s.proc q).state.kind := by
    by_cases hq : q = p
    · rw [hq, exitProc_self, if_pos rfl]
      exact ⟨(h.rouses p).pid, (h.rouses p).kstack, (h.rouses p).fork, rfl⟩
    · rw [exitProc_of_ne hq, if_neg hq]
      exact ⟨(h.rouses q).pid, (h.rouses q).kstack, (h.rouses q).fork, congrArg Kin.kind (h.rouses q).kin⟩
  rw [Entry.kin, hrest.1, hrest.2.1, hrest.2.2.1, hrest.2.2.2, exitProc_parent, h.parent q]
  rfl

omit [DecidableEq C] in
/-- Who sleeps in `wait` gets no zombie: the parents that would have been woken. -/
theorem Exits.asleep (h : Exits s p proc) (hasleep : Asleep s) (hproc : s'.proc = exitProc p proc)
    (hirrefl : (s.proc p).parent ≠ some p) : Asleep s' := by
  refine hasleep.of_awake ?_ ?_
  · intro q hq
    rw [hproc] at hq ⊢
    obtain ⟨_, hslept, hsame⟩ := exitProc_sleeping hq
    rw [hsame]
    exact ⟨(h.rouses q).sleeping hslept, (h.rouses q).chan⟩
  · intro q r hq hchan
    rw [hproc] at hq hchan ⊢
    obtain ⟨hqp, hslept, hsame⟩ := exitProc_sleeping hq
    rw [hsame] at hchan
    rw [exitProc_parent, h.parent r]
    refine ⟨fun hr => ?_, fun hr hzombie => ?_⟩
    · rw [hr, if_neg fun heq => hqp (Option.some.inj heq)]
    · by_cases hrp : r = p
      · -- the caller's parent was asleep in `wait`, and has been woken
        rw [hrp, if_neg hirrefl] at hr
        exact absurd hchan (h.told q q hslept hr)
      · rw [exitProc_of_ne hrp] at hzombie
        have hwas := (h.rouses r).zombie.mp hzombie
        split at hr
        · next hchild =>
          -- a zombie has been passed on to the first process, which has been woken
          cases hr
          exact absurd hchan (h.passed r hchild hwas _ hslept)
        · exact ⟨hr, hwas⟩

theorem Valid.exit (h : Valid s) (hc : (s.cpu c).proc = some p) (hfork : (s.proc p).fork = none)
    (hinit : p ≠ s.initproc) (hexits : Exits s p proc) :
    Valid (State.sched { s with
      proc := exitProc p proc
      exited := s.exited ++ [(proc p).pid] } c) := by
  have hlive := h.live hc
  have hirrefl : (s.proc p).parent ≠ some p := (h.family.descends (.inl hlive)).irrefl h.family.root
  refine ⟨h.placed.leave hc rfl ?_ fun q hq => ?_, hexits.asleep h.asleep rfl hirrefl, ?_, ?_⟩
  · simp only [sched_proc, exitProc_self]
    exact nofun
  · simp only [sched_proc, exitProc_of_ne hq]
    exact (hexits.rouses q).running
  · have hfamily := h.family.exit hlive hfork hinit
    rw [← hexits.kin] at hfamily
    exact hfamily
  · have haccounts : Accounts (exitKin p s.initproc s.kin) s.nextpid (s.exited ++ [(s.kin p).pid]) s.reaped :=
      h.accounts.exit hlive
    rw [← hexits.kin, show (s.kin p).pid = (proc p).pid from (hexits.rouses p).pid.symm] at haccounts
    exact haccounts

end Exits

/-! ### Runs -/

omit [DecidableEq C] in
theorem valid_userinit (h : 0 < n) : Valid (State.userinit h : State C n) := by
  have hproc : ∀ q, (State.userinit h : State C n).proc q =
      if q = ⟨0, h⟩ then ⟨.runnable, 1, none, none, false, true, .release, none⟩ else .free := by
    intro q
    simp only [State.userinit, Function.update_apply]
  have hkin : (State.userinit h : State C n).kin = fun q =>
      if q = ⟨0, h⟩ then ⟨.live, 1, none, true, none⟩ else ⟨.free, 0, none, false, none⟩ := by
    funext q
    rw [State.kin, hproc]
    split <;> rfl
  have hawake : ∀ q, ((State.userinit h : State C n).proc q).state ≠ .running ∧
      ((State.userinit h : State C n).proc q).state ≠ .sleeping := by
    intro q
    rw [hproc]
    split <;> exact ⟨nofun, nofun⟩
  refine ⟨⟨nofun, fun hp => absurd hp (hawake _).1, nofun⟩,
    ⟨fun hp => absurd hp (hawake _).2, fun hp => absurd hp (hawake _).2⟩, ?_, ?_⟩
  · rw [hkin]
    constructor <;> grind [State.userinit, Descends]
  · rw [hkin]
    constructor <;> grind [State.userinit]

omit [DecidableEq C] in
theorem Valid.found (h : Valid s) {f : Fork n} (hf : (s.proc p).fork = some f) :
    Owns s.kin p f.np ∧ (s.proc f.np).state = .embryo ∧ (s.proc f.np).parent = f.parent p ∧
      (s.proc f.np).kstack = f.kstack :=
  ⟨.inr ⟨f, hf, rfl⟩, ProcState.kind_eq_embryo.mp (h.family.forker (p := p) hf).2, h.family.unborn (p := p) hf⟩

theorem valid_step {e : Event C} (h : Valid s) (hstep : step s e = .next s') : Valid s' := by
  cases e with
  | allocproc c =>
    simp only [step] at hstep
    split at hstep
    · cases hstep
    · next p hp =>
      obtain ⟨hc, hfork⟩ := curproc_eq_some.mp hp
      split at hstep
      · cases hstep
        exact h
      · next np hnp =>
        have hunused := first_some hnp
        rw [decide_eq_true_eq] at hunused
        have hfree : (s.kin np).kind = .free := by
          rw [kin_kind, hunused]
          rfl
        obtain ⟨hparent, hstack⟩ := h.family.free hfree
        cases hstep
        exact h.fork hc (.inl ⟨hfork, hfree⟩) { s.proc np with state := .embryo, pid := s.nextpid } (some (.found np))
          (s.nextpid + 1) (.unborn rfl rfl hparent hstack) rfl (by simp [hunused]) (.inl ⟨rfl, rfl⟩)
  | kalloc c ok =>
    simp only [step] at hstep
    split at hstep
    · next p np hp =>
      obtain ⟨hc, hf⟩ := forking_eq_some.mp hp
      obtain ⟨hown, hembryo, hparent, hstack⟩ := h.found hf
      split at hstep <;> cases hstep
      · exact h.fork hc hown { s.proc np with kstack := true, resume := .release } (some (.allocated np)) s.nextpid
          (.unborn rfl (ProcState.kind_eq_embryo.mpr hembryo) hparent rfl) rfl (by simp_all [Fork.np])
          (.inr ⟨rfl, rfl, by simp_all [Fork.np]⟩)
      · exact h.fork hc hown { s.proc np with state := .unused } none s.nextpid
          (.freed rfl hparent hstack) rfl (by simp_all [Fork.np]) (.inr ⟨rfl, rfl, by simp_all [Fork.np]⟩)
    · cases hstep
  | copyuvm c ok =>
    simp only [step] at hstep
    split at hstep
    · next p np hp =>
      obtain ⟨hc, hf⟩ := forking_eq_some.mp hp
      obtain ⟨hown, hembryo, hparent, hstack⟩ := h.found hf
      split at hstep <;> cases hstep
      · exact h.fork hc hown { s.proc np with parent := some p } (some (.copied np)) s.nextpid
          (.unborn rfl (ProcState.kind_eq_embryo.mpr hembryo) rfl hstack) rfl (by simp_all [Fork.np])
          (.inr ⟨rfl, rfl, by simp_all [Fork.np]⟩)
      · exact h.fork hc hown { s.proc np with kstack := false, state := .unused } none s.nextpid
          (.freed rfl hparent rfl) rfl (by simp_all [Fork.np]) (.inr ⟨rfl, rfl, by simp_all [Fork.np]⟩)
    · cases hstep
  | start c =>
    simp only [step] at hstep
    split at hstep
    · next p np hp =>
      obtain ⟨hc, hf⟩ := forking_eq_some.mp hp
      obtain ⟨hown, hembryo, hparent, hstack⟩ := h.found hf
      cases hstep
      exact h.fork hc hown { s.proc np with state := .runnable } none s.nextpid
        (.born rfl hparent hstack) rfl (by simp_all [Fork.np]) (.inr ⟨rfl, rfl, by simp_all [Fork.np]⟩)
    · cases hstep
  | exit c =>
    simp only [step] at hstep
    split at hstep
    · cases hstep
    · next p hp =>
      obtain ⟨hc, hfork⟩ := curproc_eq_some.mp hp
      split at hstep
      · cases hstep
      · next hinit =>
        cases hstep
        have hexit := h.exit hc hfork hinit (exits_passChildren s p)
        simpa [exitProc] using hexit
  | wait c =>
    simp only [step] at hstep
    split at hstep
    · cases hstep
    · next p hp =>
      cases hstep
      exact h.waitLoop (curproc_eq_some.mp hp).1
  | sleep c address =>
    simp only [step] at hstep
    split at hstep
    · cases hstep
    · next p hp =>
      have hc := (curproc_eq_some.mp hp).1
      cases hstep
      refine h.giveUp hc ?_ (by simp) (fun _ => Option.some_ne_none _) (by simp)
      simp only [Entry.kin, h.placed.running hc, ProcState.kind]
  | yield c =>
    simp only [step] at hstep
    split at hstep
    · cases hstep
    · next p hc =>
      cases hstep
      refine h.giveUp hc ?_ (by simp) (by simp) (by simp)
      simp only [Entry.kin, h.placed.running hc, ProcState.kind]
  | wakeup address =>
    cases hstep
    exact h.rouse fun q => rouses_wakeup1 _ _ q
  | kill pid =>
    simp only [step] at hstep
    split at hstep
    · cases hstep
      exact h
    · next p hp =>
      cases hstep
      refine (h.touch p (e := { s.proc p with killed := true }) rfl rfl fun _ => rfl).rouse fun q => ?_
      by_cases hq : q = p
      · subst hq
        simp only [State.set, Function.update_self]
        split
        · next hasleep => exact ⟨.inr ⟨hasleep, rfl⟩, rfl, rfl, rfl, rfl, rfl, rfl⟩
        · exact .refl _
      · simp only [State.set, Function.update_of_ne hq]
        exact .refl _
  | trap c =>
    simp only [step] at hstep
    split at hstep
    · cases hstep
    · next p _ =>
      cases hstep
      exact h.touch p rfl rfl fun _ => rfl
  | scheduler c =>
    simp only [step] at hstep
    split at hstep
    · cases hstep
    · next hc =>
      split at hstep
      · cases hstep
        refine h.of_kin (h.placed.of_same (fun c' => ?_) fun _ => .rfl)
          (h.asleep.of_awake (fun _ hp => ⟨hp, rfl⟩) fun _ _ _ _ => ⟨id, fun hp hz => ⟨hp, hz⟩⟩) rfl rfl rfl rfl rfl
        by_cases hc' : c' = c
        · subst hc'
          simp [State.setCpu, hc]
        · simp [State.setCpu, hc']
      · next p hp =>
        have hrunnable := first_some hp
        simp only [Bool.and_eq_true, decide_eq_true_eq] at hrunnable
        cases hstep
        refine (h.dispatch hc hrunnable.2 (p.val + 1)).goOn ?_
        simp [State.setCpu]

theorem valid_run {es : List (Event C)} (h : 0 < n) (hrun : Runs step Orderly (State.userinit h) es s) : Valid s :=
  hrun.invariant (P := Valid) (fun _ _ _ _ hs _ hstep => valid_step hs hstep) (valid_userinit h)

end Steps

end CompilingToAssembly.Xv6.Proc
