import CompilingToAssembly.Xv6.Lifecycle

/-! What the kernel's processes can rely on, in every run of the process table. -/
namespace CompilingToAssembly.Xv6.Proc
open Library State

variable {C : Type} [DecidableEq C] {n : Nat} {s s' : State C n} {es : List (Event C)} {c : C} {p q : Fin n}

/-! ### Where processes run -/

/-- **A process runs on one processor**, with a kernel stack of its own, and no processor
runs a process in any other state. -/
theorem running_iff_placed (h : 0 < n) (hrun : Runs step Orderly (State.userinit h : State C n) es s) (p : Fin n) :
    (s.proc p).state = .running ↔ (s.proc p).kstack = true ∧ ∃! c, (s.cpu c).proc = some p := by
  have hvalid := valid_run h hrun
  constructor
  · intro hp
    obtain ⟨c, hc⟩ := hvalid.placed.placed hp
    exact ⟨hvalid.family.stack (p := p) (.inl (hvalid.live hc)), c, hc, fun _ hc' => hvalid.placed.alone hc' hc⟩
  · rintro ⟨_, c, hc, _⟩
    exact hvalid.placed.running hc

/-! ### The family -/

/-- **The processes are a tree**: from each that has not been waited for the parents lead to
the first, and all of them are alive. -/
theorem processes_form_tree (h : 0 < n) (hrun : Runs step Orderly (State.userinit h : State C n) es s) (p : Fin n)
    (hp : (s.proc p).state ≠ .unused ∧ (s.proc p).state ≠ .embryo) :
    Descends s.initproc s.kin p ∧
      ∀ q, (s.proc p).parent = some q →
        (s.proc q).state = .sleeping ∨ (s.proc q).state = .runnable ∨ (s.proc q).state = .running := by
  have hvalid := valid_run h hrun
  refine ⟨hvalid.family.descends ?_, fun q hq => ?_⟩
  · rw [kin_kind]
    revert hp
    cases (s.proc p).state <;> simp [ProcState.kind]
  · have hlive := hvalid.family.parent (p := p) hq
    rw [kin_kind] at hlive
    revert hlive
    cases (s.proc q).state <;> simp [ProcState.kind]

/-! ### `exit` and `wait` -/

/-- **Every `exit` is told to one `wait`**: the numbers of the processes that have exited are
different, each has been returned by one `wait` or is in the table for its parent to find,
and no parent is asleep in `wait` meanwhile. -/
theorem exits_reach_wait (h : 0 < n) (hrun : Runs step Orderly (State.userinit h : State C n) es s) :
    s.exited.Nodup ∧ s.reaped.Nodup ∧
      (∀ i, i ∈ s.exited ↔ i ∈ s.reaped ∨ ∃ p, (s.proc p).state = .zombie ∧ (s.proc p).pid = i) ∧
      ∀ p, (s.proc p).state = .zombie → (s.proc p).pid ∉ s.reaped ∧
        ∃ q, (s.proc p).parent = some q ∧ ¬ ((s.proc q).state = .sleeping ∧ (s.proc q).chan = some (.proc q)) := by
  have hvalid := valid_run h hrun
  have hkind : ∀ p, (s.kin p).kind = .zombie ↔ (s.proc p).state = .zombie := by
    intro p
    rw [kin_kind]
    cases (s.proc p).state <;> simp [ProcState.kind]
  refine ⟨hvalid.accounts.exited_nodup, hvalid.accounts.reaped_nodup, fun i => ?_, fun p hp => ?_⟩
  · rw [hvalid.accounts.settled]
    refine or_congr_right (exists_congr fun p => ?_)
    rw [hkind]
    rfl
  · have hzombie := (hkind p).mpr hp
    refine ⟨hvalid.accounts.pending hzombie, ?_⟩
    have hinit : p ≠ s.initproc := by
      rintro rfl
      simp [hvalid.family.init] at hzombie
    obtain ⟨q, hq⟩ := Option.ne_none_iff_exists'.mp ((hvalid.family.descends (.inr hzombie)).parent_ne_none hinit)
    exact ⟨q, hq, fun hasleep => (hvalid.asleep.wait hasleep.1 hasleep.2).2.2 p hq hp⟩

/-! ### Two processors and three entries

The first process forks a child, which runs on the other processor and exits while its
parent is in `wait`. -/

instance (s : State C n) (e : Event C) : Decidable (Orderly s e) :=
  match e with
  | .allocproc _ => inferInstanceAs (Decidable (s.nextpid < 2 ^ 31 - 1))
  | .kalloc _ _ => .isTrue trivial
  | .copyuvm _ _ => .isTrue trivial
  | .start _ => .isTrue trivial
  | .exit _ => .isTrue trivial
  | .wait _ => .isTrue trivial
  | .sleep _ _ => .isTrue trivial
  | .yield _ => .isTrue trivial
  | .wakeup _ => .isTrue trivial
  | .kill _ => .isTrue trivial
  | .trap _ => .isTrue trivial
  | .scheduler _ => .isTrue trivial

def booted : State Bool 3 := State.userinit (Nat.succ_pos 2)

def after (s : State Bool 3) (es : List (Event Bool)) : State Bool 3 := (Runs.go step Orderly s es).getD s

theorem after_runs {s : State Bool 3} {es : List (Event Bool)} (h : (Runs.go step Orderly s es).isSome) :
    Runs step Orderly s es (after s es) :=
  Runs.of_go h

def child : Fin 3 := ⟨1, Nat.one_lt_succ_succ 1⟩

def birth : List (Event Bool) :=
  [.scheduler true, .allocproc true, .kalloc true true, .copyuvm true true, .start true]

def youth : List (Event Bool) := birth ++ [.scheduler false, .wait true]

def death : List (Event Bool) := youth ++ [.exit false]

theorem youth_runs : Runs step Orderly booted youth (after booted youth) := after_runs (by decide +kernel)

theorem death_runs : Runs step Orderly booted death (after booted death) := after_runs (by decide +kernel)

theorem running_iff_placed_youth : ((after booted youth).proc child).kstack = true ∧
    ∃! c, ((after booted youth).cpu c).proc = some child :=
  (running_iff_placed (Nat.succ_pos 2) youth_runs child).mp (by decide +kernel)

theorem processes_form_tree_death : Descends (after booted death).initproc (after booted death).kin child ∧
    ∀ q, ((after booted death).proc child).parent = some q →
      ((after booted death).proc q).state = .sleeping ∨ ((after booted death).proc q).state = .runnable ∨
        ((after booted death).proc q).state = .running :=
  processes_form_tree (Nat.succ_pos 2) death_runs child (by decide +kernel)

theorem exits_reach_wait_death :
    (after booted death).exited.Nodup ∧ (after booted death).reaped.Nodup ∧
      (∀ i, i ∈ (after booted death).exited ↔ i ∈ (after booted death).reaped ∨
        ∃ p, ((after booted death).proc p).state = .zombie ∧ ((after booted death).proc p).pid = i) ∧
      ∀ p, ((after booted death).proc p).state = .zombie →
        ((after booted death).proc p).pid ∉ (after booted death).reaped ∧
          ∃ q, ((after booted death).proc p).parent = some q ∧
            ¬ (((after booted death).proc q).state = .sleeping ∧
              ((after booted death).proc q).chan = some (.proc q)) :=
  exits_reach_wait (Nat.succ_pos 2) death_runs

end CompilingToAssembly.Xv6.Proc
