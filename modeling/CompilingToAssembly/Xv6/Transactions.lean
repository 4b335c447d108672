import CompilingToAssembly.Xv6.Recovery

/-! System calls as transactions.

Whatever the processes do and whenever the power fails, after recovery the home blocks
hold what all updates up to some moment made of them, a moment at which no system call
was under way (`crash_atomic`); recovery comes to an end (`recovery_completes`); and
without a failure a block that is read holds the last update of it (`reads_latest`). -/
namespace CompilingToAssembly.Xv6.Log
open Library

variable {P : Type} {sb : Superblock}

/-- The updates of `log_write`, on the blocks `m`. -/
def update (m : Nat → Block) : Event P → Nat → Block
  | .logWrite _ b data => Function.update m b data
  | _ => m

/-- The blocks after all updates of `es`. -/
def contents (m : Nat → Block) (es : List (Event P)) : Nat → Block := es.foldl update m

/-- No system call and no commit is under way. -/
def Quiet (s : State P) : Prop := s.todo = [] ∧ s.outstanding = 0

/-! ### What an event does to the store -/

theorem contents_append (m : Nat → Block) (es : List (Event P)) (e : Event P) :
    contents m (es ++ [e]) = update (contents m es) e := by
  simp [contents]

theorem follow_proceed (s : State P) (t : Store) : follow s t .proceed =
    if s.todo.head? = some .writeHead ∧ s.lh ≠ [] then { t with durable := t.volatile } else t := rfl

theorem follow_volatile {s : State P} {t : Store} {e : Event P} (hcrash : e ≠ .crash) :
    (follow s t e).volatile = update t.volatile e := by
  cases e with
  | crash => exact absurd rfl hcrash
  | proceed => rw [follow_proceed]; split <;> rfl
  | _ => rfl

/-- The durable contents change by a commit only. -/
theorem follow_durable (s : State P) (t : Store) (e : Event P) : (follow s t e).durable = t.durable ∨
    (s.todo ≠ [] ∧ (follow s t e).durable = t.volatile) := by
  cases e with
  | proceed =>
    rw [follow_proceed]
    split
    · next h => exact .inr ⟨fun hnil => by simp [hnil] at h, rfl⟩
    · exact .inl rfl
  | _ => exact .inl rfl

/-- Nothing but an update makes a difference to a store whose contents are durable. -/
theorem follow_settled (s : State P) (d : Nat → Block) {e : Event P} (he : ∀ p b data, e ≠ .logWrite p b data) :
    follow s ⟨d, d⟩ e = ⟨d, d⟩ := by
  cases e with
  | logWrite p b data => exact absurd rfl (he p b data)
  | proceed => rw [follow_proceed]; split <;> rfl
  | _ => rfl

theorem Stage.running_of_todo {s : State P} {t : Store} (h : Stage sb s t) (htodo : s.todo = []) :
    Running sb s := by
  cases h with
  | running h => exact h
  | copying _ h => simp [h.todo] at htodo
  | installing _ h => simp [h.todo] at htodo
  | erasing h => simp [h.todo] at htodo
  | closing h => simp [h.todo] at htodo
  | booting h => simp [h.todo] at htodo

theorem valid_boot [Fintype P] {disk : Nat → Block} (hdisk : takeHead (disk sb.logstart) = []) :
    Valid sb (boot (P := P) disk) ⟨disk, disk⟩ := by
  refine ⟨.nil, ⟨?_, ?_, fun _ _ _ => rfl⟩, fun hr => absurd hr (by simp [boot]), by simp [boot, inProgress],
    .booting ⟨⟨rfl, .inr rfl⟩, rfl, rfl, rfl, nofun, fun _ _ => rfl⟩⟩
  · show Loggable sb (takeHead (disk sb.logstart))
    rw [hdisk]
    exact .nil
  · show ∀ i b, (takeHead (disk sb.logstart))[i]? = some b → disk (slot sb i) = disk b
    simp [hdisk]

/-- Where the log is quiet all updates are durable. -/
theorem Valid.settled [Fintype P] {s : State P} {t : Store} (h : Valid sb s t) (hq : Quiet s) {b : Nat} (hb : Home sb b) :
    t.volatile b = t.durable b := by
  have hrun := h.stage.running_of_todo hq.1
  have hnot : b ∉ s.lh := by
    rw [hrun.idle hq.2]
    exact List.not_mem_nil
  rw [← h.reads hrun.recovering b hb, hrun.cached.view_eq hnot, h.durable.home_eq hrun.head hb]

section Runs
variable [DecidableEq P]

/-- What a kernel can come to after `mkfs`, which leaves the header empty. -/
def Reachable (sb : Superblock) (s : State P) : Prop :=
  ∃ disk es, takeHead (disk sb.logstart) = [] ∧ Runs (step sb) (Orderly sb) (boot disk) es s

/-- The events `es₁` are a beginning of `es` at whose end no system call is under way,
and reach beyond every moment of `es` at which the log was quiet. -/
structure Cut (sb : Superblock) (s₀ : State P) (es es₁ : List (Event P)) : Prop where
  initial : es₁ <+: es
  whole : ∃ s₁, Runs (step sb) (Orderly sb) s₀ es₁ s₁ ∧ s₁.outstanding = 0
  last : ∀ as s₁, as <+: es → Runs (step sb) (Orderly sb) s₀ as s₁ → Quiet s₁ → as <+: es₁

variable {s s' s₀ : State P} {t : Store} {es es₁ : List (Event P)} {e : Event P}

/-- One more event, after which the log is not quiet. -/
theorem Cut.extend (h : Cut sb s₀ es es₁) (hrun : Runs (step sb) (Orderly sb) s₀ (es ++ [e]) s')
    (hbusy : ¬ Quiet s') : Cut sb s₀ (es ++ [e]) es₁ := by
  refine ⟨h.initial.trans (List.prefix_append _ _), h.whole, fun as s₁ has hras hq => ?_⟩
  rcases List.prefix_concat_iff.mp has with rfl | has
  · exact absurd (hrun.unique hras ▸ hq) hbusy
  · exact h.last as s₁ has hras hq

theorem Cut.all (hrun : Runs (step sb) (Orderly sb) s₀ es s) (hout : s.outstanding = 0) : Cut sb s₀ es es :=
  ⟨List.prefix_rfl, ⟨s, hrun, hout⟩, fun _ _ has _ _ => has⟩

/-- Without a crash, recovery does not start again. -/
theorem step_recovering (hcrash : e ≠ .crash) (hstep : step sb s e = .next s')
    (hr : s.recovering = false) : s'.recovering = false := by
  cases e with
  | crash => exact absurd rfl hcrash
  | proceed =>
    simp only [step] at hstep
    split at hstep
    · cases hstep
    · next a rest _ => cases hstep; cases a <;> first | exact hr | rfl
  | recycle b =>
    simp only [step] at hstep
    split at hstep
    · cases hstep; exact hr
    · cases hstep
  | bread b => cases hstep; exact hr
  | logWrite p b data =>
    obtain ⟨rfl, _⟩ := of_step_logWrite hstep
    exact hr
  | _ =>
    simp only [step] at hstep
    repeat' split at hstep
    all_goals cases hstep
    all_goals exact hr

variable [Fintype P]

theorem Valid.run (h : Valid sb s t) (hrun : Runs (step sb) (Orderly sb) s es s') : ∃ t', Valid sb s' t' := by
  refine hrun.invariant (P := fun s => ∃ t, Valid sb s t) ?_ ⟨t, h⟩
  intro s e s' _ hs he hstep
  obtain ⟨t, ht⟩ := hs
  exact ⟨_, valid_step ht he hstep⟩

/-- Where nothing is logged all stays as it is on the disk. -/
theorem Valid.stays {d : Nat → Block} (h : Valid sb s ⟨d, d⟩) (hrun : Runs (step sb) (Orderly sb) s es s')
    (hes : ∀ e ∈ es, ∀ p b data, e ≠ .logWrite p b data) : Valid sb s' ⟨d, d⟩ := by
  refine hrun.invariant (P := fun s => Valid sb s ⟨d, d⟩) ?_ h
  intro s e s' he hs hallowed hstep
  have hnext := valid_step hs hallowed hstep
  rwa [follow_settled s d (hes e he)] at hnext

theorem Reachable.valid (h : Reachable sb s) : ∃ t, Valid sb s t := by
  obtain ⟨disk, es, hdisk, hrun⟩ := h
  exact (valid_boot hdisk).run hrun

/-! ### A run from a quiet moment -/

/-- The store along such a run, without a crash: its volatile contents are those of all
updates, its durable contents those up to a cut. -/
structure Follows (sb : Superblock) (s₀ : State P) (es : List (Event P)) (s : State P) (t : Store) : Prop where
  run : Runs (step sb) (Orderly sb) s₀ es s
  valid : Valid sb s t
  calm : s.recovering = false
  volatile : ∀ b, Home sb b → t.volatile b = contents s₀.view es b
  durable : ∃ es₁, Cut sb s₀ es es₁ ∧ ∀ b, Home sb b → t.durable b = contents s₀.view es₁ b

theorem Follows.start (h : Valid sb s t) (hq : Quiet s) : Follows sb s [] s t := by
  have hrun := h.stage.running_of_todo hq.1
  have hvolatile (b : Nat) (hb : Home sb b) : t.volatile b = s.view b := (h.reads hrun.recovering b hb).symm
  exact ⟨.nil, h, hrun.recovering, hvolatile, [], .all .nil hq.2,
    fun b hb => (h.settled hq hb).symm.trans (hvolatile b hb)⟩

theorem Follows.extend (h : Follows sb s₀ es s t) (he : Orderly sb s e) (hcrash : e ≠ .crash)
    (hstep : step sb s e = .next s') : Follows sb s₀ (es ++ [e]) s' (follow s t e) := by
  have hrun := h.run.append (.one he hstep)
  have hvalid := valid_step h.valid he hstep
  have hvolatile (b : Nat) (hb : Home sb b) :
      (follow s t e).volatile b = contents s₀.view (es ++ [e]) b := by
    rw [follow_volatile hcrash, contents_append]
    cases e with
    | logWrite p c data =>
      by_cases hbc : b = c
      · subst hbc
        simp [update]
      · simp only [update, Function.update_of_ne hbc]
        exact h.volatile b hb
    | _ => exact h.volatile b hb
  refine ⟨hrun, hvalid, step_recovering hcrash hstep h.calm, hvolatile, ?_⟩
  by_cases hq : Quiet s'
  · exact ⟨_, .all hrun hq.2, fun b hb => (hvalid.settled hq hb).symm.trans (hvolatile b hb)⟩
  · rcases follow_durable s t e with hsame | ⟨htodo, hcommit⟩
    · obtain ⟨es₁, hcut, hd⟩ := h.durable
      exact ⟨es₁, hcut.extend hrun hq, fun b hb => by rw [hsame]; exact hd b hb⟩
    · -- the header was written just now, by the only process at work
      have hout : s.outstanding = 0 := by
        rcases h.valid.stage.running_or_alone with hs | hs
        · exact absurd hs.todo htodo
        · exact hs.1
      exact ⟨es, (Cut.all h.run hout).extend hrun hq, fun b hb => by rw [hcommit]; exact h.volatile b hb⟩

theorem Follows.runs {done : List (Event P)} (h : Follows sb s₀ done s t)
    (hrun : Runs (step sb) (Orderly sb) s es s') (hcrash : .crash ∉ es) : ∃ t, Follows sb s₀ (done ++ es) s' t := by
  induction hrun generalizing done t with
  | nil => exact ⟨t, by rwa [List.append_nil]⟩
  | @cons s s₁ s' e es he hstep _ ih =>
    rw [List.mem_cons, not_or] at hcrash
    obtain ⟨t', ht'⟩ := ih (h.extend he (Ne.symm hcrash.1) hstep) hcrash.2
    rw [List.append_assoc] at ht'
    exact ⟨t', ht'⟩

theorem Follows.of_runs (h₀ : Reachable sb s₀) (hq : Quiet s₀) (hrun : Runs (step sb) (Orderly sb) s₀ es s)
    (hcrash : .crash ∉ es) : ∃ t, Follows sb s₀ es s t := by
  obtain ⟨t, ht⟩ := h₀.valid
  exact (Follows.start ht hq).runs hrun hcrash

/-- **A block that is read holds the last update of it**, whichever buffers were taken
for other blocks in between and whether or not a commit is under way. -/
theorem reads_latest (h₀ : Reachable sb s₀) (hq : Quiet s₀) (hrun : Runs (step sb) (Orderly sb) s₀ es s)
    (hcrash : .crash ∉ es) {b : Nat} (hb : Home sb b) : s.view b = contents s₀.view es b := by
  obtain ⟨t, ht⟩ := Follows.of_runs h₀ hq hrun hcrash
  rw [ht.valid.reads ht.calm b hb, ht.volatile b hb]

/-- **A crash leaves no system call half done.** Let the kernel run from a quiet moment,
crash anywhere, and recover, with any number of crashes on the way. Then there is a moment
of the run at which no system call was under way, not before any at which the log was
quiet, such that the home blocks hold what all updates up to there made of them. -/
theorem crash_atomic {rs : List (Event P)} (h₀ : Reachable sb s₀) (hq : Quiet s₀)
    (hrun : Runs (step sb) (Orderly sb) s₀ es s) (hcrash : .crash ∉ es)
    (hrec : Runs (step sb) (Orderly sb) s (.crash :: rs) s')
    (hrs : ∀ e ∈ rs, ∀ p b data, e ≠ .logWrite p b data) (hback : s'.recovering = false) :
    ∃ es₁, Cut sb s₀ es es₁ ∧ ∀ b, Home sb b → s'.view b = contents s₀.view es₁ b := by
  obtain ⟨t, ht⟩ := Follows.of_runs h₀ hq hrun hcrash
  obtain ⟨es₁, hcut, hd⟩ := ht.durable
  refine ⟨es₁, hcut, fun b hb => ?_⟩
  cases hrec with
  | cons _ hstep hrec =>
    cases hstep
    have hvalid := ht.valid.crash.stays hrec hrs
    exact (hvalid.reads hback b hb).trans (hd b hb)

/-! ### Recovery comes to an end -/

omit [DecidableEq P] [Fintype P] in
theorem perform_todo (s : State P) {a : Action} (ha : a ≠ .readHead) : (perform sb s a).todo = s.todo := by
  cases a <;> first | rfl | exact absurd rfl ha

omit [DecidableEq P] [Fintype P] in
theorem perform_outstanding (s : State P) (a : Action) : (perform sb s a).outstanding = s.outstanding := by
  cases a <;> rfl

variable (sb) in
omit [Fintype P] in
/-- Left to itself the process at work does all it has to do. -/
theorem proceeds (s : State P) (hread : .readHead ∉ s.todo) :
    ∃ s', Runs (step sb) (Orderly sb) s (List.replicate s.todo.length .proceed) s' ∧
      s'.todo = [] ∧ s'.outstanding = s.outstanding := by
  induction htodo : s.todo generalizing s with
  | nil => exact ⟨s, .nil, htodo, rfl⟩
  | cons a rest ih =>
    rw [htodo, List.mem_cons, not_or] at hread
    have hnext : (perform sb { s with todo := rest } a).todo = rest := perform_todo _ (Ne.symm hread.1)
    obtain ⟨s', hrun, hdone, hout⟩ := ih _ (by rw [hnext]; exact hread.2) hnext
    refine ⟨s', .cons trivial ?_ hrun, hdone, hout.trans (perform_outstanding _ a)⟩
    simp [step, htodo]

/-- What `recover_from_log` has to do at boot it does in as many steps as blocks are
logged, and four. -/
theorem boot_completes {disk : Nat → Block} (h : Valid sb (boot (P := P) disk) t) :
    ∃ s', Runs (step sb) (Orderly sb) (boot (P := P) disk)
        (List.replicate ((takeHead (disk sb.logstart)).length + 4) .proceed) s' ∧
      (∃ t', Valid sb s' t') ∧ s'.recovering = false ∧ Quiet s' := by
  -- the header is read, and what is to be done follows from it
  have hread : Valid sb (perform sb { boot (P := P) disk with todo := [] } .readHead) _ := h.proceed rfl
  have htodo : (perform sb { boot (P := P) disk with todo := [] } .readHead).todo =
      recover (takeHead (disk sb.logstart)).length := by
    simp only [perform, view_bread]
    rfl
  obtain ⟨s', hrun, hdone, hout⟩ := proceeds sb (perform sb { boot (P := P) disk with todo := [] } .readHead)
    (by rw [htodo]; simp [recover, installTrans])
  have hlen : (recover (takeHead (disk sb.logstart)).length).length =
      (takeHead (disk sb.logstart)).length + 3 := by
    simp [recover, installTrans]
  rw [htodo, hlen] at hrun
  obtain ⟨t', ht'⟩ := hread.run hrun
  exact ⟨s', .cons trivial rfl hrun, ⟨t', ht'⟩, (ht'.stage.running_of_todo hdone).recovering, hdone, hout⟩

/-- **Recovery comes to an end**, from a crash anywhere. Every block that the header named is
then in its place, and the log is empty, in memory and on the disk. -/
theorem recovery_completes (h : Reachable sb s) :
    ∃ s', Runs (step sb) (Orderly sb) s
        (.crash :: List.replicate ((takeHead (s.disk sb.logstart)).length + 4) .proceed) s' ∧
      s'.recovering = false ∧ Quiet s' ∧ s'.lh = [] ∧ takeHead (s'.disk sb.logstart) = [] ∧
      ∀ i b, (takeHead (s.disk sb.logstart))[i]? = some b → s'.disk b = s.disk (slot sb i) := by
  obtain ⟨t, ht⟩ := h.valid
  obtain ⟨s', hrun, _, hback, hquiet⟩ := boot_completes ht.crash
  -- nothing is logged on the way, so the disk still says what it said at the crash
  have hvalid := ht.crash.stays hrun fun e he p b data heq => by simp [heq] at he
  have hrunning := hvalid.stage.running_of_todo hquiet.1
  refine ⟨s', .cons trivial rfl hrun, hback, hquiet, hrunning.idle hquiet.2, hrunning.head, fun i b hi => ?_⟩
  have hhome := ht.durable.head.homes b (List.mem_of_getElem? hi)
  rw [hvalid.durable.home_eq hrunning.head hhome, ht.durable.slots i b hi]

end Runs

/-! ### A power cut

One process updates block 100 of a fresh disk, and the power fails when its header is
written and nothing is installed. -/

def blank : Nat → Block := fun _ _ => 0

def ones : Block := fun _ => 1

def after (s : State Bool) (es : List (Event Bool)) : State Bool :=
  (Runs.go (step mkfs) (Orderly mkfs) s es).getD s

theorem after_runs {s : State Bool} {es : List (Event Bool)}
    (h : (Runs.go (step mkfs) (Orderly mkfs) s es).isSome) : Runs (step mkfs) (Orderly mkfs) s es (after s es) :=
  Runs.of_go h

def started : State Bool := after (boot blank) (List.replicate 4 .proceed)

def powerCut : List (Event Bool) :=
  [.beginOp true, .logWrite true 100 ones, .endOp true, .proceed, .proceed]

theorem started_reachable : Reachable mkfs started :=
  ⟨blank, List.replicate 4 .proceed, by decide +kernel, after_runs (by decide +kernel)⟩

theorem started_quiet : Quiet started := ⟨by decide +kernel, by decide +kernel⟩

theorem powerCut_runs : Runs (step mkfs) (Orderly mkfs) started powerCut (after started powerCut) :=
  after_runs (by decide +kernel)

theorem powerCut_no_crash : .crash ∉ powerCut := by simp [powerCut]

theorem powerCut_recovers : Runs (step mkfs) (Orderly mkfs) (after started powerCut)
    (.crash :: List.replicate 5 .proceed)
    (after (after started powerCut) (.crash :: List.replicate 5 .proceed)) :=
  after_runs (by decide +kernel)

theorem reads_latest_power_cut :
    (after started powerCut).view 100 = contents started.view powerCut 100 :=
  reads_latest started_reachable started_quiet powerCut_runs powerCut_no_crash (by decide)

theorem crash_atomic_power_cut : ∃ es₁, Cut mkfs started powerCut es₁ ∧ ∀ b, Home mkfs b →
    (after (after started powerCut) (.crash :: List.replicate 5 .proceed)).view b = contents started.view es₁ b :=
  crash_atomic started_reachable started_quiet powerCut_runs powerCut_no_crash powerCut_recovers
    (by simp) (by decide +kernel)

theorem powerCut_reachable : Reachable mkfs (after started powerCut) := by
  obtain ⟨disk, es, hdisk, hrun⟩ := started_reachable
  exact ⟨disk, _, hdisk, hrun.append powerCut_runs⟩

/-- The update that was committed and not installed is put in its place. -/
theorem recovery_completes_power_cut : takeHead ((after started powerCut).disk mkfs.logstart) = [100] ∧
    ∃ s', Runs (step mkfs) (Orderly mkfs) (after started powerCut)
        (.crash :: List.replicate ((takeHead ((after started powerCut).disk mkfs.logstart)).length + 4) .proceed) s' ∧
      s'.recovering = false ∧ Quiet s' ∧ s'.lh = [] ∧ takeHead (s'.disk mkfs.logstart) = [] ∧
      s'.disk 100 = (after started powerCut).disk (slot mkfs 0) := by
  have hhead : takeHead ((after started powerCut).disk mkfs.logstart) = [100] := by decide +kernel
  obtain ⟨s', hrun, hback, hquiet, hlh, hempty, hplace⟩ := recovery_completes powerCut_reachable
  exact ⟨hhead, s', hrun, hback, hquiet, hlh, hempty, hplace 0 100 (by rw [hhead]; rfl)⟩

end CompilingToAssembly.Xv6.Log
