import CompilingToAssembly.Xv6.Proc

/-! The processes as a family: who is alive, who is whose parent, and who has exited.

`sleep`, `wakeup`, `yield` and `scheduler` leave all this as it is; the states a live process goes
through are one `Kind` here. -/
namespace CompilingToAssembly.Xv6.Proc
open Library

inductive Kind where
  | free
  | embryo
  | live
  | zombie
  deriving DecidableEq

def ProcState.kind : ProcState → Kind
  | .unused => .free
  | .embryo => .embryo
  | .sleeping => .live
  | .runnable => .live
  | .running => .live
  | .zombie => .zombie

theorem ProcState.kind_eq_embryo {state : ProcState} : state.kind = .embryo ↔ state = .embryo := by
  cases state <;> simp [ProcState.kind]

structure Kin (n : Nat) where
  kind : Kind
  pid : Nat
  parent : Option (Fin n)
  kstack : Bool
  fork : Option (Fork n)

variable {C : Type} {n : Nat}

def Entry.kin (e : Entry n) : Kin n := ⟨e.state.kind, e.pid, e.parent, e.kstack, e.fork⟩

def State.kin (s : State C n) : Fin n → Kin n := fun p => (s.proc p).kin

/-- The entry that `fork` is making a process of. -/
def Fork.np : Fork n → Fin n
  | .found np => np
  | .allocated np => np
  | .copied np => np

/-- The parent that the entry has so far. -/
def Fork.parent (p : Fin n) : Fork n → Option (Fin n)
  | .found _ => none
  | .allocated _ => none
  | .copied _ => some p

def Fork.kstack : Fork n → Bool
  | .found _ => false
  | .allocated _ => true
  | .copied _ => true

/-- From `p` the parents lead to the first process. -/
inductive Descends (initproc : Fin n) (k : Fin n → Kin n) : Fin n → Prop where
  | init : Descends initproc k initproc
  | child {p q : Fin n} : (k p).parent = some q → Descends initproc k q → Descends initproc k p

/-- The processes are a tree with the first at its root and every parent alive, and each
entry that is neither free nor a process belongs to one call of `fork`. A kernel stack is
there for every process, also for one that has exited, and for no free entry. -/
structure Family (initproc : Fin n) (k : Fin n → Kin n) : Prop where
  init : (k initproc).kind = .live
  root : (k initproc).parent = none
  parent : ∀ {p q}, (k p).parent = some q → (k q).kind = .live
  descends : ∀ {p}, (k p).kind = .live ∨ (k p).kind = .zombie → Descends initproc k p
  free : ∀ {p}, (k p).kind = .free → (k p).parent = none ∧ (k p).kstack = false
  stack : ∀ {p}, (k p).kind = .live ∨ (k p).kind = .zombie → (k p).kstack = true
  forker : ∀ {p f}, (k p).fork = some f → (k p).kind = .live ∧ (k f.np).kind = .embryo
  unborn : ∀ {p f}, (k p).fork = some f → (k f.np).parent = f.parent p ∧ (k f.np).kstack = f.kstack
  forked : ∀ {q}, (k q).kind = .embryo → ∃ p f, (k p).fork = some f ∧ f.np = q
  once : ∀ {p p' f f'}, (k p).fork = some f → (k p').fork = some f' → f.np = f'.np → p = p'

/-- `np` is free, or the call of `fork` in `p` is about it. -/
def Owns (k : Fin n → Kin n) (p np : Fin n) : Prop :=
  ((k p).fork = none ∧ (k np).kind = .free) ∨ ∃ f, (k p).fork = some f ∧ f.np = np

/-- What `fork` in `p` leaves in the entry `np`: free again, a process, or still in the
making. -/
inductive Leaves (p np : Fin n) : Option (Fork n) → Kin n → Prop where
  | freed {e} : e.kind = .free → e.parent = none → e.kstack = false → Leaves p np none e
  | born {e} : e.kind = .live → e.parent = some p → e.kstack = true → Leaves p np none e
  | unborn {f e} : f.np = np → e.kind = .embryo → e.parent = f.parent p → e.kstack = f.kstack →
    Leaves p np (some f) e

section Steps
variable {initproc p np q : Fin n} {k : Fin n → Kin n}

theorem Descends.parent_ne_none (h : Descends initproc k p) (hp : p ≠ initproc) : (k p).parent ≠ none := by
  cases h with
  | init => exact absurd rfl hp
  | child hq _ => simp [hq]

theorem Descends.irrefl (h : Descends initproc k p) (hroot : (k initproc).parent = none) : (k p).parent ≠ some p := by
  induction h with
  | init => simp [hroot]
  | child hq _ ih =>
    intro hp
    rw [hq] at hp
    cases hp
    exact ih hq

theorem Family.fork_eq_none (h : Family initproc k) (hp : (k p).kind ≠ .live) : (k p).fork = none := by
  cases hf : (k p).fork with
  | none => rfl
  | some f => exact absurd (h.forker hf).1 hp

theorem Family.owns_not_live (h : Family initproc k) (hown : Owns k p np) : (k np).kind ≠ .live := by
  rcases hown with ⟨_, hfree⟩ | ⟨f, hf, rfl⟩
  · simp [hfree]
  · simp [(h.forker hf).2]

/-- A call of `fork` is about the entry only if it is the one in `p`. -/
theorem Family.owns_iff (h : Family initproc k) (hown : Owns k p np) {f : Fork n} (hq : (k q).fork = some f) :
    f.np = np ↔ q = p := by
  rcases hown with ⟨hnone, hfree⟩ | ⟨f', hf', rfl⟩
  · have hembryo := (h.forker hq).2
    constructor
    · rintro rfl
      rw [hfree] at hembryo
      cases hembryo
    · rintro rfl
      rw [hnone] at hq
      cases hq
  · refine ⟨h.once hq hf', ?_⟩
    rintro rfl
    rw [hf'] at hq
    cases hq
    rfl

theorem Leaves.parent_eq {e : Kin n} {fork : Option (Fork n)} (he : Leaves p np fork e) (hq : e.parent = some q) :
    q = p := by
  cases he with
  | freed _ hparent _ => simp [hparent] at hq
  | born _ hparent _ => simpa [hparent, eq_comm] using hq
  | @unborn f _ _ _ hparent _ => cases f <;> simp_all [Fork.parent]

theorem Family.owns_parent (h : Family initproc k) (hown : Owns k p np) (hq : (k np).parent = some q) : q = p := by
  rcases hown with ⟨_, hfree⟩ | ⟨f, hf, rfl⟩
  · simp [(h.free hfree).1] at hq
  · rw [(h.unborn hf).1] at hq
    cases f <;> simp_all [Fork.parent]

/-- A step of `fork` changes how far the caller is, and the new entry's place in the family. -/
structure Forks (k : Fin n → Kin n) (p np : Fin n) (fork : Option (Fork n)) (e : Kin n) (k' : Fin n → Kin n) :
    Prop where
  leaves : Leaves p np fork e
  new : k' np = e
  caller : (k' p).fork = fork
  calls : ∀ {q}, q ≠ p → (k' q).fork = (k q).fork
  kin : ∀ {q}, q ≠ np → (k' q).kind = (k q).kind ∧ (k' q).pid = (k q).pid ∧ (k' q).parent = (k q).parent ∧
    (k' q).kstack = (k q).kstack

theorem Family.forks (h : Family initproc k) (hp : (k p).kind = .live) (hown : Owns k p np) {e : Kin n}
    {fork : Option (Fork n)} (he : Leaves p np fork e) (hfork : e.fork = none) :
    Forks k p np fork e (Function.update (Function.update k np e) p { k p with fork := fork }) := by
  have hdead := h.owns_not_live hown
  have hne : p ≠ np := fun heq => hdead (heq ▸ hp)
  refine ⟨he, ?_, by simp, fun hq => ?_, fun hq => ?_⟩
  · rw [Function.update_of_ne hne.symm, Function.update_self]
  · next q =>
    rw [Function.update_of_ne hq]
    by_cases hqnp : q = np
    · rw [hqnp, Function.update_self, hfork, h.fork_eq_none hdead]
    · rw [Function.update_of_ne hqnp]
  · next q =>
    by_cases hqp : q = p
    · rw [hqp, Function.update_self]
      exact ⟨rfl, rfl, rfl, rfl⟩
    · rw [Function.update_of_ne hqp, Function.update_of_ne hq]
      exact ⟨rfl, rfl, rfl, rfl⟩

section Fork
variable {e : Kin n} {stage : Option (Fork n)} {k' : Fin n → Kin n}

theorem Forks.live (hf : Forks k p np stage e k') (h : Family initproc k) (hown : Owns k p np)
    (hq : (k q).kind = .live) : (k' q).kind = .live := by
  rw [(hf.kin fun heq => h.owns_not_live hown (heq ▸ hq)).1, hq]

theorem Forks.descends (hf : Forks k p np stage e k') (h : Family initproc k) (hown : Owns k p np)
    (hq : Descends initproc k q) (hqnp : q ≠ np) : Descends initproc k' q := by
  induction hq with
  | init => exact .init
  | @child q r hr _ ih =>
    -- the new entry is nobody's parent
    have hrnp : r ≠ np := fun heq => h.owns_not_live hown (heq ▸ h.parent hr)
    exact .child ((hf.kin hqnp).2.2.1.trans hr) (ih hrnp)

theorem Forks.owns_iff (hf : Forks k p np stage e k') (h : Family initproc k) (hown : Owns k p np) {f : Fork n}
    (hq : (k' q).fork = some f) : f.np = np ↔ q = p := by
  by_cases hqp : q = p
  · subst hqp
    rw [hf.caller] at hq
    subst hq
    cases hf.leaves with
    | unborn hnp => exact ⟨fun _ => rfl, fun _ => hnp⟩
  · rw [hf.calls hqp] at hq
    exact h.owns_iff hown hq

/-- Every call of `fork`, the caller's among them, finds its entry as it left it. -/
theorem Forks.unborn (hf : Forks k p np stage e k') (h : Family initproc k) (hp : (k p).kind = .live)
    (hown : Owns k p np) {f : Fork n} (hq : (k' q).fork = some f) :
    ((k' q).kind = .live ∧ (k' f.np).kind = .embryo) ∧
      (k' f.np).parent = f.parent q ∧ (k' f.np).kstack = f.kstack := by
  have hnp := hf.owns_iff h hown hq
  by_cases hqp : q = p
  · subst hqp
    rw [hf.caller] at hq
    subst hq
    rw [hnp.mpr rfl, hf.new]
    cases hf.leaves with
    | unborn _ hkind hparent hstack => exact ⟨⟨hf.live h hown hp, hkind⟩, hparent, hstack⟩
  · obtain ⟨hkind, _, hparent, hstack⟩ := hf.kin fun heq => hqp (hnp.mp heq)
    rw [hf.calls hqp] at hq
    rw [hkind, hparent, hstack]
    exact ⟨⟨hf.live h hown (h.forker hq).1, (h.forker hq).2⟩, h.unborn hq⟩

theorem Family.fork (h : Family initproc k) (hp : (k p).kind = .live) (hown : Owns k p np)
    (hf : Forks k p np stage e k') : Family initproc k' := by
  have hne : p ≠ np := fun heq => h.owns_not_live hown (heq ▸ hp)
  constructor
  case init => exact hf.live h hown h.init
  case parent =>
    intro q r hr
    by_cases hq : q = np
    · rw [hq, hf.new] at hr
      rw [hf.leaves.parent_eq hr]
      exact hf.live h hown hp
    · rw [(hf.kin hq).2.2.1] at hr
      exact hf.live h hown (h.parent hr)
  case root =>
    have hnp : initproc ≠ np := fun heq => h.owns_not_live hown (heq ▸ h.init)
    rw [(hf.kin hnp).2.2.1, h.root]
  case descends =>
    intro q hq
    by_cases hqnp : q = np
    · rw [hqnp]
      refine .child (q := p) ?_ (hf.descends h hown (h.descends (.inl hp)) hne)
      rw [hqnp, hf.new] at hq
      rw [hf.new]
      cases hf.leaves <;> simp_all
    · rw [(hf.kin hqnp).1] at hq
      exact hf.descends h hown (h.descends hq) hqnp
  case free =>
    intro q hq
    by_cases hqnp : q = np
    · rw [hqnp, hf.new] at hq ⊢
      cases hf.leaves <;> simp_all
    · obtain ⟨hkind, _, hparent, hstack⟩ := hf.kin hqnp
      rw [hkind] at hq
      rw [hparent, hstack]
      exact h.free hq
  case stack =>
    intro q hq
    by_cases hqnp : q = np
    · rw [hqnp, hf.new] at hq ⊢
      cases hf.leaves <;> simp_all
    · obtain ⟨hkind, _, _, hstack⟩ := hf.kin hqnp
      rw [hkind] at hq
      rw [hstack]
      exact h.stack hq
  case forker => exact fun hq => (hf.unborn h hp hown hq).1
  case unborn => exact fun hq => (hf.unborn h hp hown hq).2
  case forked =>
    intro q hq
    by_cases hqnp : q = np
    · rw [hqnp, hf.new] at hq
      have hcaller := hf.caller
      cases hf.leaves with
      | freed hkind | born hkind => simp [hkind] at hq
      | @unborn f _ hnp => exact ⟨p, f, hcaller, hnp.trans hqnp.symm⟩
    · rw [(hf.kin hqnp).1] at hq
      obtain ⟨r, f, hr, hnp⟩ := h.forked hq
      have hrp : r ≠ p := fun heq => hqnp (hnp.symm.trans ((h.owns_iff hown hr).mpr heq))
      exact ⟨r, f, (hf.calls hrp).trans hr, hnp⟩
  case once =>
    intro q r f g hq hr hnp
    by_cases hqp : q = p
    · exact hqp.trans ((hf.owns_iff h hown hr).mp (hnp ▸ (hf.owns_iff h hown hq).mpr hqp)).symm
    · have hrp : r ≠ p := fun heq => hqp ((hf.owns_iff h hown hq).mp (hnp ▸ (hf.owns_iff h hown hr).mpr heq))
      rw [hf.calls hqp] at hq
      rw [hf.calls hrp] at hr
      exact h.once hq hr hnp

end Fork

/-! ### `exit` and `wait` -/

/-- The children go to the first process, and the caller is left to be waited for. -/
def exitKin (p initproc : Fin n) (k : Fin n → Kin n) : Fin n → Kin n := fun q =>
  { k q with
    parent := if (k q).parent = some p then some initproc else (k q).parent
    kind := if q = p then .zombie else (k q).kind }

def reapKin (e : Kin n) : Kin n := { e with kind := .free, pid := 0, parent := none, kstack := false }

theorem Descends.exit (h : Descends initproc k q) : Descends initproc (exitKin p initproc k) q := by
  induction h with
  | init => exact .init
  | @child q r hr _ ih =>
    by_cases hrp : r = p
    · exact .child (by simp [exitKin, hr, hrp]) .init
    · exact .child (by simp [exitKin, hr, hrp]) ih

theorem Family.exit (h : Family initproc k) (hp : (k p).kind = .live) (hfork : (k p).fork = none)
    (hinit : p ≠ initproc) : Family initproc (exitKin p initproc k) := by
  have hlive : ∀ {q}, q ≠ p → (k q).kind = .live → (exitKin p initproc k q).kind = .live := fun hq hl => by
    simp [exitKin, hq, hl]
  have hcaller : ∀ {q f}, (k q).fork = some f → q ≠ p := by
    rintro q f hf rfl
    simp [hfork] at hf
  have hembryo : ∀ {q}, (k q).kind = .embryo → q ≠ p := by
    rintro q hq rfl
    simp [hp] at hq
  constructor
  case init => exact hlive hinit.symm h.init
  case parent =>
    intro q r hr
    simp only [exitKin] at hr
    split at hr
    · cases hr
      exact hlive hinit.symm h.init
    · next hother =>
      have hrp : r ≠ p := fun heq => hother (heq ▸ hr)
      exact hlive hrp (h.parent hr)
  case root =>
    simp [exitKin, h.root]
  case descends =>
    intro q hkind
    have hwas : (k q).kind = .live ∨ (k q).kind = .zombie := by
      by_cases hqp : q = p
      · exact .inl (hqp ▸ hp)
      · simpa [exitKin, hqp] using hkind
    exact (h.descends hwas).exit
  case free =>
    intro q hq
    have hqp : q ≠ p := by
      rintro rfl
      simp [exitKin] at hq
    simp only [exitKin, if_neg hqp] at hq ⊢
    simp [h.free hq]
  case stack =>
    intro q hq
    by_cases hqp : q = p
    · subst hqp
      exact h.stack (.inl hp)
    · simp only [exitKin, if_neg hqp] at hq
      exact h.stack hq
  case forker =>
    intro q f hf
    have hnp := (h.forker hf).2
    refine ⟨hlive (hcaller hf) (h.forker hf).1, ?_⟩
    simp [exitKin, hembryo hnp, hnp]
  case unborn =>
    intro q f hf
    obtain ⟨hparent, hstack⟩ := h.unborn hf
    have hqp := hcaller hf
    refine ⟨?_, hstack⟩
    simp only [exitKin, hparent]
    cases f <;> simp [Fork.parent, hqp]
  case forked =>
    intro q hq
    have hqp : q ≠ p := by
      rintro rfl
      simp [exitKin] at hq
    simp only [exitKin, if_neg hqp] at hq
    exact h.forked hq
  case once => exact fun hf hg hnp => h.once hf hg hnp

theorem Descends.reap (hr : Descends initproc k p) (h : Family initproc k) (hq : (k q).kind = .zombie) (hpq : p ≠ q) :
    Descends initproc (Function.update k q (reapKin (k q))) p := by
  induction hr with
  | init => exact .init
  | @child p r hr _ ih =>
    have hrq : r ≠ q := by
      rintro rfl
      simp [h.parent hr] at hq
    refine .child ?_ (ih hrq)
    rwa [Function.update_of_ne hpq]

theorem Family.reap (h : Family initproc k) (hq : (k q).kind = .zombie) :
    Family initproc (Function.update k q (reapKin (k q))) := by
  have hlive : ∀ {r}, (k r).kind = .live → (Function.update k q (reapKin (k q)) r).kind = .live := by
    intro r hr
    rwa [Function.update_of_ne]
    rintro rfl
    simp [hq] at hr
  have hforks : ∀ r, (Function.update k q (reapKin (k q)) r).fork = (k r).fork := by
    intro r
    by_cases hrq : r = q
    · rw [hrq, Function.update_self]
      rfl
    · rw [Function.update_of_ne hrq]
  have hembryo : ∀ {r}, (k r).kind = .embryo → Function.update k q (reapKin (k q)) r = k r := by
    intro r hr
    apply Function.update_of_ne
    rintro rfl
    simp [hq] at hr
  constructor
  case init => exact hlive h.init
  case parent =>
    intro r r' hr
    by_cases hrq : r = q
    · simp [hrq, reapKin] at hr
    · rw [Function.update_of_ne hrq] at hr
      exact hlive (h.parent hr)
  case root =>
    have hinit : initproc ≠ q := by
      rintro rfl
      simp [h.init] at hq
    rw [Function.update_of_ne hinit, h.root]
  case descends =>
    intro r hr
    by_cases hrq : r = q
    · simp [hrq, reapKin] at hr
    · rw [Function.update_of_ne hrq] at hr
      exact (h.descends hr).reap h hq hrq
  case free =>
    intro r hr
    by_cases hrq : r = q
    · simp [hrq, reapKin]
    · rw [Function.update_of_ne hrq] at hr ⊢
      exact h.free hr
  case stack =>
    intro r hr
    by_cases hrq : r = q
    · simp [hrq, reapKin] at hr
    · rw [Function.update_of_ne hrq] at hr ⊢
      exact h.stack hr
  case forker =>
    intro r f hf
    rw [hforks] at hf
    exact ⟨hlive (h.forker hf).1, by rw [hembryo (h.forker hf).2, (h.forker hf).2]⟩
  case unborn =>
    intro r f hf
    rw [hforks] at hf
    rw [hembryo (h.forker hf).2]
    exact h.unborn hf
  case forked =>
    intro r hr
    have hrq : r ≠ q := by
      rintro rfl
      simp [reapKin] at hr
    rw [Function.update_of_ne hrq] at hr
    obtain ⟨p, f, hf, hnp⟩ := h.forked hr
    exact ⟨p, f, (hforks p).trans hf, hnp⟩
  case once =>
    intro r r' f f' hf hf'
    rw [hforks] at hf hf'
    exact h.once hf hf'

end Steps

/-! ### The numbers of the processes -/

/-- The numbers are given out once. A process that has exited is in the table until `wait`
has returned its number, and that happens once. -/
structure Accounts (k : Fin n → Kin n) (nextpid : Nat) (exited reaped : List Nat) : Prop where
  bound : ∀ p, (k p).pid < nextpid
  pos : ∀ {p}, (k p).kind ≠ .free → 0 < (k p).pid
  inj : ∀ {p q}, (k p).kind ≠ .free → (k q).kind ≠ .free → (k p).pid = (k q).pid → p = q
  old : ∀ {i}, i ∈ exited → i < nextpid
  exited_nodup : exited.Nodup
  reaped_nodup : reaped.Nodup
  present : ∀ {p}, (k p).pid ∈ exited → (k p).kind = .free ∨ (k p).kind = .zombie
  settled : ∀ {i}, i ∈ exited ↔ i ∈ reaped ∨ ∃ p, (k p).kind = .zombie ∧ (k p).pid = i
  pending : ∀ {p}, (k p).kind = .zombie → (k p).pid ∉ reaped

section Accounts
variable {initproc p np q : Fin n} {k k' : Fin n → Kin n} {nextpid nextpid' : Nat} {exited reaped : List Nat}
  {e : Kin n} {stage : Option (Fork n)}

theorem Accounts.fork (h : Accounts k nextpid exited reaped) (hnp : (k np).kind ≠ .zombie)
    (hf : Forks k p np stage e k')
    (hpid : (e.pid = nextpid ∧ nextpid' = nextpid + 1) ∨
      (e.pid = (k np).pid ∧ nextpid' = nextpid ∧ (k np).kind ≠ .free)) : Accounts k' nextpid' exited reaped := by
  have hle : nextpid ≤ nextpid' := by omega
  have hbound := h.bound np
  -- the number is new, or the entry had it before
  have hpos : 0 < e.pid := by
    rcases hpid with ⟨hnew, _⟩ | ⟨hold, _, hkind⟩
    · omega
    · exact hold ▸ h.pos hkind
  have hapart : ∀ q, q ≠ np → (k q).kind ≠ .free → (k q).pid ≠ e.pid := by
    intro q hq hkind heq
    rcases hpid with ⟨hnew, _⟩ | ⟨hold, _, hnpkind⟩
    · exact absurd (h.bound q) (by omega)
    · exact hq (h.inj hkind hnpkind (heq.trans hold))
  have habsent : e.pid ∉ exited := by
    rcases hpid with ⟨hnew, _⟩ | ⟨hold, _, hkind⟩
    · intro hmem
      have := h.old hmem
      omega
    · intro hmem
      exact (h.present (hold ▸ hmem)).elim hkind hnp
  have hlive : e.kind ≠ .zombie := by
    cases hf.leaves <;> simp_all
  have hzombie : ∀ q, (k' q).kind = .zombie ↔ (k q).kind = .zombie := by
    intro q
    by_cases hq : q = np
    · rw [hq, hf.new]
      exact ⟨fun hz => absurd hz hlive, fun hz => absurd hz hnp⟩
    · rw [(hf.kin hq).1]
  have hsame : ∀ q, (k q).kind = .zombie → (k' q).pid = (k q).pid := fun q hq =>
    (hf.kin fun heq => hnp (heq ▸ hq)).2.1
  refine ⟨fun q => ?_, fun {q} hq => ?_, fun {q r} hq hr heq => ?_, fun hi => (h.old hi).trans_le hle, h.exited_nodup,
    h.reaped_nodup, fun {q} hq => ?_, fun {i} => ?_, fun {q} hq => ?_⟩
  · by_cases hqnp : q = np
    · rw [hqnp, hf.new]
      omega
    · rw [(hf.kin hqnp).2.1]
      exact (h.bound q).trans_le hle
  · by_cases hqnp : q = np
    · rwa [hqnp, hf.new]
    · rw [(hf.kin hqnp).1] at hq
      rw [(hf.kin hqnp).2.1]
      exact h.pos hq
  · by_cases hqnp : q = np <;> by_cases hrnp : r = np
    · exact hqnp.trans hrnp.symm
    · rw [hqnp, hf.new, (hf.kin hrnp).2.1] at heq
      rw [(hf.kin hrnp).1] at hr
      exact absurd heq.symm (hapart r hrnp hr)
    · rw [hrnp, hf.new, (hf.kin hqnp).2.1] at heq
      rw [(hf.kin hqnp).1] at hq
      exact absurd heq (hapart q hqnp hq)
    · rw [(hf.kin hqnp).1] at hq
      rw [(hf.kin hrnp).1] at hr
      rw [(hf.kin hqnp).2.1, (hf.kin hrnp).2.1] at heq
      exact h.inj hq hr heq
  · by_cases hqnp : q = np
    · rw [hqnp, hf.new] at hq
      exact absurd hq habsent
    · rw [(hf.kin hqnp).2.1] at hq
      rw [(hf.kin hqnp).1]
      exact h.present hq
  · rw [h.settled]
    refine or_congr_right (exists_congr fun q => ?_)
    rw [hzombie]
    exact and_congr_right fun hq => by rw [hsame q hq]
  · rw [hzombie] at hq
    rw [hsame q hq]
    exact h.pending hq

theorem Accounts.exit (h : Accounts k nextpid exited reaped) (hp : (k p).kind = .live) :
    Accounts (exitKin p initproc k) nextpid (exited ++ [(k p).pid]) reaped := by
  have hused : (k p).kind ≠ .free := by simp [hp]
  have hnot : (k p).pid ∉ exited := fun hmem => by
    rcases h.present hmem with hkind | hkind <;> simp [hp] at hkind
  have hfree : ∀ q, (exitKin p initproc k q).kind = .free ↔ (k q).kind = .free := by
    intro q
    by_cases hq : q = p
    · simp [exitKin, hq, hp]
    · simp [exitKin, hq]
  have hzombie : ∀ q, (exitKin p initproc k q).kind = .zombie ↔ q = p ∨ (k q).kind = .zombie := by
    intro q
    by_cases hq : q = p <;> simp [exitKin, hq]
  refine ⟨h.bound, fun hq => h.pos (mt (hfree _).mpr hq), fun hq hr => h.inj (mt (hfree _).mpr hq) (mt (hfree _).mpr hr),
    fun {i} hi => ?_, ?_, h.reaped_nodup, fun {q} hq => ?_, fun {i} => ?_, fun {q} hq => ?_⟩
  · rcases List.mem_append.mp hi with hi | hi
    · exact h.old hi
    · rw [List.mem_singleton.mp hi]
      exact h.bound p
  · exact h.exited_nodup.append (List.nodup_singleton _) (by simpa using hnot)
  · rw [hfree, hzombie]
    change (k q).pid ∈ _ at hq
    rcases List.mem_append.mp hq with hq | hq
    · exact (h.present hq).imp_right .inr
    · by_cases hkind : (k q).kind = .free
      · exact .inl hkind
      · exact .inr (.inl (h.inj hkind hused (List.mem_singleton.mp hq)))
  · rw [List.mem_append, List.mem_singleton, h.settled, or_assoc]
    refine or_congr_right ⟨?_, ?_⟩
    · rintro (⟨q, hq, hi⟩ | hi)
      · exact ⟨q, (hzombie q).mpr (.inr hq), hi⟩
      · exact ⟨p, (hzombie p).mpr (.inl rfl), hi.symm⟩
    · rintro ⟨q, hq, hi⟩
      rcases (hzombie q).mp hq with rfl | hq
      · exact .inr hi.symm
      · exact .inl ⟨q, hq, hi⟩
  · rcases (hzombie q).mp hq with rfl | hq
    · exact fun hmem => hnot (h.settled.mpr (.inl hmem))
    · exact h.pending hq

theorem Accounts.reap (h : Accounts k nextpid exited reaped) (hq : (k q).kind = .zombie) :
    Accounts (Function.update k q (reapKin (k q))) nextpid exited (reaped ++ [(k q).pid]) := by
  have hused : (k q).kind ≠ .free := by simp [hq]
  have hself : Function.update k q (reapKin (k q)) q = reapKin (k q) := Function.update_self ..
  -- all others stay
  have hother : ∀ {r}, (Function.update k q (reapKin (k q)) r).kind ≠ .free →
      r ≠ q ∧ Function.update k q (reapKin (k q)) r = k r := by
    intro r hr
    have hrq : r ≠ q := by
      rintro rfl
      simp [reapKin] at hr
    exact ⟨hrq, Function.update_of_ne hrq ..⟩
  refine ⟨fun r => ?_, fun {r} hr => ?_, fun {r r'} hr hr' heq => ?_, h.old, h.exited_nodup, ?_, fun {r} hr => ?_,
    fun {i} => ?_, fun {r} hr => ?_⟩
  · by_cases hrq : r = q
    · rw [hrq, hself]
      exact (Nat.zero_le _).trans_lt (h.bound q)
    · rw [Function.update_of_ne hrq]
      exact h.bound r
  · have hsame := (hother hr).2
    rw [hsame] at hr ⊢
    exact h.pos hr
  · have hsame := (hother hr).2
    have hsame' := (hother hr').2
    rw [hsame] at hr heq
    rw [hsame'] at hr' heq
    exact h.inj hr hr' heq
  · exact h.reaped_nodup.append (List.nodup_singleton _) (by simpa using h.pending hq)
  · by_cases hrq : r = q
    · rw [hrq, hself]
      exact .inl rfl
    · rw [Function.update_of_ne hrq] at hr ⊢
      exact h.present hr
  · rw [h.settled, List.mem_append, List.mem_singleton, or_assoc]
    refine or_congr_right ⟨?_, ?_⟩
    · rintro ⟨r, hr, hi⟩
      by_cases hrq : r = q
      · exact .inl (hrq ▸ hi.symm)
      · exact .inr ⟨r, by rw [Function.update_of_ne hrq]; exact ⟨hr, hi⟩⟩
    · rintro (hi | ⟨r, hr, hi⟩)
      · exact ⟨q, hq, hi.symm⟩
      · have hr' := (hother (r := r) (by simp [hr])).2
        rw [hr'] at hr hi
        exact ⟨r, hr, hi⟩
  · obtain ⟨hrq, hsame⟩ := hother (r := r) (by simp [hr])
    rw [hsame] at hr ⊢
    rw [List.mem_append, List.mem_singleton, not_or]
    exact ⟨h.pending hr, fun heq => hrq (h.inj (by simp [hr]) hused heq)⟩

end Accounts

end CompilingToAssembly.Xv6.Proc
