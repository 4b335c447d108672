import CompilingToAssembly.Xv6.Transactions
import Mathlib.Algebra.BigOperators.Ring.Finset
import Mathlib.Algebra.Order.BigOperators.Group.Finset
import Mathlib.Tactic.IntervalCases

/-! Whether the log can overflow.

`begin_op` lets a system call start only where `MAXOPBLOCKS` more blocks fit for each one
under way, so that `log_write` need never refuse. What it counts are the system calls under
way and the blocks in the log, not what those under way have still to log: while one of them
has logged nothing, others may come and go until `MAXOPBLOCKS` blocks are in the log, and one
more may start then. System calls that log at most `k` blocks each can so bring
`MAXOPBLOCKS + 2 * k` blocks into the log, and no more (`reserved_step`). At a full log
`log_write` refuses before it looks whether the block is there already, so the reservation
suffices where the log never fills up (`reservation_suffices_iff`). -/
namespace CompilingToAssembly.Xv6.Log
open Library

variable {P : Type} {sb : Superblock} {k : Nat}

/-- The most that system calls of `k` blocks bring into the log. -/
def peak (k : Nat) : Nat := maxOpBlocks + 2 * k

/-- How many more blocks a system call may log. -/
def remaining (k : Nat) : Option (List Nat) → Nat
  | none => 0
  | some bs => k - bs.length

@[simp] theorem remaining_none : remaining k none = 0 := rfl
@[simp] theorem remaining_some (bs : List Nat) : remaining k (some bs) = k - bs.length := rfl

theorem length_le_absorb (lh : List Nat) (b : Nat) : lh.length ≤ (absorb lh b).length := by
  rw [absorb_eq]
  split <;> simp

section Turns
variable [DecidableEq P] {s : State P}

theorem step_logWrite {p : P} {b : Nat} (data : Block) (hroom : s.lh.length < sb.full) (hout : 0 < s.outstanding) :
    step sb s (.logWrite p b data) = .next { s with
      cache := Function.update s.cache b (some ⟨data, true⟩)
      lh := absorb s.lh b
      ops := Function.update s.ops p ((s.ops p).map (absorb · b)) } := by
  rw [step, logWrite_of_room b hroom hout]
  rfl

theorem step_logWrite_full (p : P) (b : Nat) (data : Block) (hfull : sb.full ≤ s.lh.length) :
    step sb s (.logWrite p b data) = .panics "too big a transaction" := by
  rw [step, logWrite_of_full s.outstanding b hfull]
  rfl

theorem step_beginOp (p : P) (hr : s.recovering = false) (hc : s.committing = false)
    (hspace : s.lh.length + (s.outstanding + 1) * maxOpBlocks ≤ logSize) : step sb s (.beginOp p) =
      .next { s with outstanding := s.outstanding + 1, ops := Function.update s.ops p (some []) } := by
  simp only [step, hr, hc, Bool.false_eq_true, if_false, if_neg (Nat.not_lt.mpr hspace)]

/-- A system call ends while another is under way. -/
theorem step_endOp (p : P) (hc : s.committing = false) (hmore : s.outstanding - 1 ≠ 0) : step sb s (.endOp p) =
    .next { s with outstanding := s.outstanding - 1, ops := Function.update s.ops p none } := by
  simp only [step, hc, Bool.false_eq_true, if_false, if_neg hmore]

end Turns

/-! ### What the reservation keeps -/

section Reserved
variable [Fintype P] {lh : List Nat} {ops : P → Option (List Nat)}

/-- The blocks logged and those that may follow stay within the peak, and what a system call
has logged is in the log. -/
structure Reserved (k : Nat) (lh : List Nat) (ops : P → Option (List Nat)) : Prop where
  within : lh.length + ∑ p, remaining k (ops p) ≤ peak k
  kept : ∀ p bs, ops p = some bs → bs ⊆ lh

theorem remaining_le (o : Option (List Nat)) : remaining k o ≤ k * (o.map fun _ => 1).getD 0 := by
  cases o with
  | none => exact Nat.zero_le _
  | some bs => simp

theorem sum_remaining_le (k : Nat) (s : State P) : ∑ p, remaining k (s.ops p) ≤ k * inProgress s := by
  rw [inProgress, Finset.mul_sum]
  exact Finset.sum_le_sum fun p _ => remaining_le (s.ops p)

/-- Where nobody is in a system call, what counts is the log. -/
theorem Reserved.of_idle (hlh : lh.length ≤ peak k) (hops : ∀ p, ops p = none) : Reserved k lh ops := by
  refine ⟨?_, fun p bs hp => ?_⟩
  · simp only [hops, remaining_none, Finset.sum_const_zero]
    exact hlh
  · rw [hops p] at hp
    cases hp

variable [DecidableEq P]

theorem sum_remaining_update (k : Nat) (ops : P → Option (List Nat)) (p : P) (o : Option (List Nat)) :
    (∑ q, remaining k (Function.update ops p o q)) + remaining k (ops p) =
      (∑ q, remaining k (ops q)) + remaining k o :=
  sum_update (remaining k) ops p o

omit [Fintype P] in
theorem kept_update {lh' : List Nat} {p : P} {o : Option (List Nat)} (hkept : ∀ q bs, ops q = some bs → bs ⊆ lh)
    (hlh : lh ⊆ lh') (ho : ∀ bs, o = some bs → bs ⊆ lh') :
    ∀ q bs, Function.update ops p o q = some bs → bs ⊆ lh' := by
  intro q bs hq
  by_cases hqp : q = p
  · subst hqp
    rw [Function.update_self] at hq
    exact ho bs hq
  · rw [Function.update_of_ne hqp] at hq
    exact fun c hc => hlh (hkept q bs hq hc)

/-- A block that is new to the log is new to the system call too. -/
theorem Reserved.logWrite (h : Reserved k lh ops) {p : P} {b : Nat} {bs : List Nat} (hp : ops p = some bs)
    (hfew : (absorb bs b).length ≤ k) :
    Reserved k (absorb lh b) (Function.update ops p ((ops p).map (absorb · b))) := by
  refine ⟨?_, kept_update h.kept (fun c hc => mem_absorb.mpr (.inl hc)) fun cs hcs c hc => ?_⟩
  · have hsum := sum_remaining_update k ops p (some (absorb bs b))
    have hwithin := h.within
    simp only [hp, Option.map_some, remaining_some] at hsum ⊢
    by_cases hb : b ∈ lh
    · have hmore := length_le_absorb bs b
      rw [absorb_of_mem hb]
      omega
    · have hnew : b ∉ bs := fun hin => hb (h.kept p bs hp hin)
      rw [absorb_of_notMem hb, List.length_append, List.length_singleton]
      rw [absorb_of_notMem hnew, List.length_append, List.length_singleton] at hsum hfew
      rw [absorb_of_notMem hnew]
      omega
  · rw [hp, Option.map_some, Option.some.injEq] at hcs
    rw [← hcs, mem_absorb] at hc
    exact mem_absorb.mpr (hc.imp_left fun hin => h.kept p bs hp hin)

theorem Reserved.endOp (h : Reserved k lh ops) (p : P) : Reserved k lh (Function.update ops p none) := by
  refine ⟨?_, kept_update h.kept (fun c hc => hc) fun bs hbs => by cases hbs⟩
  have hsum := sum_remaining_update k ops p none
  have hwithin := h.within
  rw [remaining_none] at hsum
  omega

variable {s s' : State P} {t : Store}

theorem Valid.ops_eq_none (h : Valid sb s t) (hout : s.outstanding = 0) (p : P) : s.ops p = none := by
  by_contra hp
  have := h.outstanding_pos (Option.isSome_iff_ne_none.mpr hp)
  omega

/-- The system call that starts is the only one and the log is empty, or there is one more
and `MAXOPBLOCKS` blocks are in the log at most, or there are two more and none is. -/
theorem Reserved.beginOp (hk : k ≤ maxOpBlocks) (h : Valid sb s t) (hs : Reserved k s.lh s.ops)
    (hrun : Running sb s) {p : P} (hp : s.ops p = none)
    (hspace : s.lh.length + (s.outstanding + 1) * maxOpBlocks ≤ logSize) :
    Reserved k s.lh (Function.update s.ops p (some [])) := by
  refine ⟨?_, kept_update hs.kept (fun c hc => hc) fun bs hbs => ?_⟩
  · have hsum := sum_remaining_update k s.ops p (some [])
    have hle : ∑ q, remaining k (s.ops q) ≤ k * s.outstanding := h.counted ▸ sum_remaining_le k s
    have hidle : s.outstanding = 0 → s.lh.length = 0 := fun hout => by rw [hrun.idle hout]; rfl
    simp only [hp, remaining_none, remaining_some, List.length_nil] at hsum
    simp only [peak, maxOpBlocks, logSize] at *
    have hfew : s.outstanding < 3 := by omega
    interval_cases s.outstanding <;> omega
  · cases hbs
    exact List.nil_subset _

/-- While a system call is under way the blocks of all of them are reserved. -/
theorem reserved_step {e : Event P} (hk : k ≤ maxOpBlocks) (h : Valid sb s t)
    (hs : 0 < s.outstanding → Reserved k s.lh s.ops) (he : Frugal k sb s e) (hstep : step sb s e = .next s') :
    0 < s'.outstanding → Reserved k s'.lh s'.ops := by
  cases e with
  | beginOp p =>
    simp only [step] at hstep
    split at hstep
    · cases hstep
    split at hstep
    · cases hstep
    split at hstep
    · cases hstep
    next hr hc hspace =>
    cases hstep
    intro _
    rcases h.stage.running_or_alone with hrun | halone
    · have hreserved : Reserved k s.lh s.ops := by
        rcases Nat.eq_zero_or_pos s.outstanding with hout | hout
        · rw [hrun.idle hout]
          exact .of_idle (Nat.zero_le _) (h.ops_eq_none hout)
        · exact hs hout
      exact hreserved.beginOp hk h hrun he.1 (Nat.not_lt.mp hspace)
    · exact absurd halone.2 (by simp [hr, hc])
  | logWrite p b data =>
    obtain ⟨bs, hbs⟩ := Option.isSome_iff_exists.mp he.1.1
    obtain ⟨rfl, _⟩ := of_step_logWrite hstep
    intro hout
    exact (hs hout).logWrite hbs (he.2 p b data rfl bs hbs)
  | endOp p =>
    have hpos := h.outstanding_pos he.1
    simp only [step] at hstep
    split at hstep
    · cases hstep
    split at hstep <;> cases hstep <;> exact fun _ => (hs hpos).endOp p
  | bread b => cases hstep; exact hs
  | recycle b =>
    simp only [step] at hstep
    split at hstep
    · cases hstep; exact hs
    · cases hstep
  | proceed =>
    -- the process at work is alone
    simp only [step] at hstep
    split at hstep
    · cases hstep
    · next a rest htodo =>
      have hout : s.outstanding = 0 := by
        rcases h.stage.running_or_alone with hrun | halone
        · rw [hrun.todo] at htodo
          cases htodo
        · exact halone.1
      cases hstep
      intro hpos
      rw [perform_outstanding] at hpos
      exact absurd hpos (by simp [hout])
  | crash =>
    cases hstep
    exact fun hpos => absurd hpos (Nat.lt_irrefl 0)

/-- Where the log never fills up nothing stops the kernel. -/
theorem no_panic {e : Event P} (hlog : peak k < sb.full) (h : Valid sb s t)
    (hs : 0 < s.outstanding → Reserved k s.lh s.ops) (he : Frugal k sb s e) (m : String) :
    step sb s e ≠ .panics m := by
  intro hstep
  cases e with
  | beginOp p =>
    simp only [step] at hstep
    repeat' split at hstep
    all_goals cases hstep
  | logWrite p b data =>
    have hout := h.outstanding_pos he.1.1
    have hroom : s.lh.length < sb.full := by
      have := (hs hout).within
      omega
    rw [step_logWrite data hroom hout] at hstep
    cases hstep
  | endOp p =>
    have hrun := h.running he.1
    simp only [step, hrun.committing, Bool.false_eq_true, if_false] at hstep
    repeat' split at hstep
    all_goals cases hstep
  | recycle b =>
    simp only [step] at hstep
    split at hstep <;> cases hstep
  | proceed =>
    simp only [step] at hstep
    split at hstep <;> cases hstep
  | bread b => cases hstep
  | crash => cases hstep

end Reserved

/-! ### System calls that fill the log

One of two processes enters a system call and logs nothing, while the other makes ten of them,
of one block each. Then the other enters one more, and both log `k` blocks. -/

section Overflow
variable [DecidableEq P] {s : State P} {p q : P} {i j : Nat}

/-- The block that is the `i`-th to be logged. -/
def nth (sb : Superblock) (i : Nat) : Nat := sb.logstart + sb.nlog + i

/-- The first `j` blocks are in the log. -/
structure Filled (sb : Superblock) (j : Nat) (s : State P) : Prop where
  recovering : s.recovering = false
  committing : s.committing = false
  lh : s.lh = (List.range j).map (nth sb)

/-- `p` has logged nothing, `q` is in no system call. -/
structure Waiting (sb : Superblock) (p q : P) (j : Nat) (s : State P) : Prop extends Filled sb j s where
  outstanding : s.outstanding = 1
  idle : s.ops p = some []
  out : s.ops q = none

/-- Both are in a system call, and have logged `i` and `i'` blocks since. -/
structure Joined (sb : Superblock) (p q : P) (i i' j : Nat) (s : State P) : Prop extends Filled sb j s where
  outstanding : s.outstanding = 2
  first : ∃ bs, s.ops p = some bs ∧ bs.length = i ∧ bs ⊆ s.lh
  second : ∃ bs, s.ops q = some bs ∧ bs.length = i' ∧ bs ⊆ s.lh

omit [DecidableEq P] in
theorem Filled.length (h : Filled sb j s) : s.lh.length = j := by
  rw [h.lh, List.length_map, List.length_range]

omit [DecidableEq P] in
theorem Filled.notMem (h : Filled sb j s) : nth sb j ∉ s.lh := by
  rw [h.lh]
  simp [nth]

omit [DecidableEq P] in
theorem Filled.extend {s' : State P} (h : Filled sb j s) (hr : s'.recovering = s.recovering)
    (hc : s'.committing = s.committing) (hlh : s'.lh = absorb s.lh (nth sb j)) : Filled sb (j + 1) s' := by
  refine ⟨hr.trans h.recovering, hc.trans h.committing, ?_⟩
  rw [hlh, absorb_of_notMem h.notMem, h.lh, List.range_succ, List.map_append, List.map_singleton]

omit [DecidableEq P] in
theorem frugal_beginOp (hp : s.ops p = none) : Frugal k sb s (.beginOp p) :=
  ⟨hp, fun _ _ _ he => by cases he⟩

omit [DecidableEq P] in
theorem frugal_endOp (hp : (s.ops p).isSome) : Frugal k sb s (.endOp p) :=
  ⟨hp, fun _ _ _ he => by cases he⟩

/-- `q` enters a system call. -/
theorem Waiting.join (h : Waiting sb p q j s) (hpq : p ≠ q) (hj : j ≤ maxOpBlocks) :
    ∃ s', Runs (step sb) (Frugal k sb) s [.beginOp q] s' ∧ Joined sb p q 0 0 j s' := by
  have hspace : s.lh.length + (s.outstanding + 1) * maxOpBlocks ≤ logSize := by
    rw [h.length, h.outstanding]
    simp only [maxOpBlocks, logSize] at *
    omega
  refine ⟨_, .one (frugal_beginOp h.out) (step_beginOp q h.recovering h.committing hspace),
    ⟨h.recovering, h.committing, h.lh⟩, by simp [h.outstanding], ⟨[], ?_, rfl, List.nil_subset _⟩,
    ⟨[], ?_, rfl, List.nil_subset _⟩⟩
  · simp [hpq, h.idle]
  · simp

omit [DecidableEq P] in
theorem Joined.symm {i' : Nat} (h : Joined sb p q i i' j s) : Joined sb q p i' i j s :=
  ⟨h.toFilled, h.outstanding, h.second, h.first⟩

omit [DecidableEq P] in
/-- A system call that has not logged `k` blocks may log any. -/
theorem frugal_logWrite {bs : List Nat} {b : Nat} (hp : s.ops p = some bs) (hb : Home sb b)
    (hfew : bs.length < k ∨ bs.length ≤ k ∧ b ∈ bs) (data : Block) : Frugal k sb s (.logWrite p b data) := by
  refine ⟨⟨by rw [hp]; rfl, hb⟩, fun p' b' data' he cs hcs => ?_⟩
  cases he
  rw [hp] at hcs
  cases hcs
  rw [absorb_eq]
  split
  · omega
  next hnew =>
    rw [List.length_append, List.length_singleton]
    exact hfew.resolve_right fun h => hnew h.2

theorem home_nth (hsize : sb.logstart + sb.nlog + logSize ≤ sb.size) (hj : j < logSize) : Home sb (nth sb j) := by
  unfold nth
  exact ⟨by omega, .inr (Nat.le_add_right _ _)⟩

theorem full_le : sb.full ≤ logSize := Nat.min_le_left _ _

variable (hsize : sb.logstart + sb.nlog + logSize ≤ sb.size)
include hsize

/-- `q` logs one more block. -/
theorem Joined.log {i' : Nat} (h : Joined sb p q i i' j s) (hpq : p ≠ q) (hi : i' < k) (hj : j < sb.full) :
    ∃ s', Runs (step sb) (Frugal k sb) s [.logWrite q (nth sb j) fun _ => 0] s' ∧
      Joined sb p q i (i' + 1) (j + 1) s' := by
  obtain ⟨bs, hbs, hlen, hin⟩ := h.second
  obtain ⟨cs, hcs, hlen', hin'⟩ := h.first
  have hroom : s.lh.length < sb.full := by rw [h.length]; exact hj
  have hhome : Home sb (nth sb j) := home_nth hsize (lt_of_lt_of_le hj full_le)
  have hnew : nth sb j ∉ bs := fun hb => h.notMem (hin hb)
  refine ⟨_, .one (frugal_logWrite hbs hhome (.inl (by omega)) _)
      (step_logWrite _ hroom (by rw [h.outstanding]; decide)),
    h.extend rfl rfl rfl, h.outstanding, ⟨cs, ?_, hlen', ?_⟩, ⟨bs ++ [nth sb j], ?_, ?_, ?_⟩⟩
  · simp [hpq, hcs]
  · exact fun c hc => mem_absorb.mpr (.inl (hin' hc))
  · simp [hbs, absorb_of_notMem hnew]
  · rw [List.length_append, List.length_singleton, hlen]
  · intro c hc
    exact mem_absorb.mpr ((List.mem_append.mp hc).imp (fun hb => hin hb) List.mem_singleton.mp)

/-- A run that keeps to `k` blocks can end in a panic. -/
def Stops (k : Nat) (sb : Superblock) (s : State P) : Prop :=
  ∃ es s' e, Runs (step sb) (Frugal k sb) s es s' ∧ Frugal k sb s' e ∧
    step sb s' e = .panics "too big a transaction"

omit hsize in
theorem Stops.behind {es : List (Event P)} {s' : State P} (h : Stops k sb s')
    (hrun : Runs (step sb) (Frugal k sb) s es s') : Stops k sb s := by
  obtain ⟨es', s'', e, hrun', he, hpanic⟩ := h
  exact ⟨es ++ es', s'', e, hrun.append hrun', he, hpanic⟩

/-- At a full log a block that is logged again stops the kernel. -/
theorem Joined.stops_full {i' : Nat} (h : Joined sb p q i i' j s) (hk : 0 < k) (hi : i' ≤ k) (hj : j ≤ logSize)
    (hfull : sb.full ≤ j) : Stops k sb s := by
  obtain ⟨bs, hbs, hlen, hin⟩ := h.second
  have hpanic (b : Nat) := step_logWrite_full q b (fun _ => 0) (hfull.trans_eq h.length.symm)
  by_cases hless : i' < k
  · exact ⟨[], s, _, .nil, frugal_logWrite hbs (home_nth hsize (by decide : 0 < logSize)) (.inl (by omega)) _, hpanic _⟩
  · obtain ⟨b, hb⟩ : ∃ b, b ∈ bs := List.exists_mem_of_length_pos (by omega)
    have hhome : Home sb b := by
      have hmem := hin hb
      rw [h.lh] at hmem
      obtain ⟨m, hm, rfl⟩ := List.mem_map.mp hmem
      exact home_nth hsize (by have := List.mem_range.mp hm; omega)
    exact ⟨[], s, _, .nil, frugal_logWrite hbs hhome (.inr ⟨by omega, hb⟩) _, hpanic b⟩

/-- The two go on logging until the log is full. -/
theorem Joined.stops {i' n : Nat} (hn : n = (k - i) + (k - i')) (h : Joined sb p q i i' j s) (hpq : p ≠ q)
    (hk : 0 < k) (hi : i ≤ k) (hi' : i' ≤ k) (hj : j ≤ sb.full) (hfull : sb.full ≤ j + n) : Stops k sb s := by
  induction n generalizing i i' j s with
  | zero => exact h.stops_full hsize hk hi' (hj.trans full_le) (by omega)
  | succ n ih =>
    by_cases hreached : sb.full ≤ j
    · exact h.stops_full hsize hk hi' (hj.trans full_le) hreached
    · by_cases hless : i' < k
      · obtain ⟨s', hrun, hnext⟩ := h.log hsize hpq hless (by omega)
        exact (ih (by omega) hnext hi (by omega) (by omega) (by omega)).behind hrun
      · obtain ⟨s', hrun, hnext⟩ := h.symm.log hsize hpq.symm (by omega : i < k) (by omega)
        exact (ih (by omega) hnext.symm (by omega) hi' (by omega) (by omega)).behind hrun

omit hsize in
/-- `q` leaves its system call while `p` waits. -/
theorem Joined.leave (h : Joined sb p q 0 i j s) (hpq : p ≠ q) :
    ∃ s', Runs (step sb) (Frugal k sb) s [.endOp q] s' ∧ Waiting sb p q j s' := by
  obtain ⟨bs, hbs, _⟩ := h.second
  obtain ⟨cs, hcs, hlen, _⟩ := h.first
  obtain rfl := List.length_eq_zero_iff.mp hlen
  have hout : (s.ops q).isSome := by rw [hbs]; rfl
  refine ⟨_, .one (frugal_endOp hout) (step_endOp q h.committing (by rw [h.outstanding]; decide)),
    ⟨h.recovering, h.committing, h.lh⟩, by simp [h.outstanding], ?_, ?_⟩
  · simp [hpq, hcs]
  · simp

/-- Ten system calls of one block come and go, unless the log is full before. -/
theorem Waiting.stops {n : Nat} (hn : n + j = maxOpBlocks) (h : Waiting sb p q j s) (hpq : p ≠ q) (hk : 0 < k)
    (hj : j ≤ sb.full) (hfull : sb.full ≤ peak k) : Stops k sb s := by
  unfold peak at hfull
  obtain ⟨s₁, hjoin, hs₁⟩ := h.join (k := k) hpq (by omega)
  induction n generalizing j s s₁ with
  | zero => exact (hs₁.stops hsize rfl hpq hk (Nat.zero_le _) (Nat.zero_le _) hj (by omega)).behind hjoin
  | succ n ih =>
    by_cases hreached : sb.full ≤ j
    · exact (hs₁.stops_full hsize hk (Nat.zero_le _) (hj.trans full_le) hreached).behind hjoin
    · obtain ⟨s₂, hlog, hs₂⟩ := hs₁.log hsize hpq hk (by omega)
      obtain ⟨s₃, hleave, hs₃⟩ := hs₂.leave (k := k) hpq
      obtain ⟨s₄, hagain, hs₄⟩ := hs₃.join (k := k) hpq (by omega)
      have hrest := ih (by omega) hs₃ (by omega) s₄ hagain hs₄
      exact hrest.behind ((hjoin.append hlog).append hleave)

end Overflow

section Exact
variable [Fintype P] [DecidableEq P]

/-- From a fresh disk two processes stop the kernel, where the log can fill up. -/
theorem overflows (hP : 1 < Fintype.card P) (hsize : sb.logstart + sb.nlog + logSize ≤ sb.size) (hk : 0 < k)
    (hfull : sb.full ≤ peak k) {disk : Nat → Block} (hdisk : takeHead (disk sb.logstart) = []) :
    Stops (P := P) k sb (boot disk) := by
  obtain ⟨p, q, hpq⟩ := Fintype.one_lt_card_iff.mp hP
  obtain ⟨s, hrec, ⟨t, ht⟩, _, hquiet⟩ := boot_completes (P := P) (valid_boot hdisk)
  have hrun := ht.stage.running_of_todo hquiet.1
  have hlh := hrun.idle hquiet.2
  have hnone := ht.ops_eq_none hquiet.2
  have hfrugal : ∀ (s : State P) e,
      e ∈ List.replicate ((takeHead (disk sb.logstart)).length + 4) .proceed →
      Orderly sb s e → Frugal k sb s e := by
    refine fun s e he ho => ⟨ho, fun p b data heq => ?_⟩
    subst heq
    simp at he
  have hspace : s.lh.length + (s.outstanding + 1) * maxOpBlocks ≤ logSize := by
    rw [hlh, hquiet.2]
    decide
  have hbegin : step sb s (.beginOp p) = _ := step_beginOp p hrun.recovering hrun.committing hspace
  have hwaiting : Waiting sb p q 0 { s with outstanding := s.outstanding + 1, ops := Function.update s.ops p (some []) } :=
    ⟨⟨hrun.recovering, hrun.committing, hlh⟩, by simp [hquiet.2], by simp, by simp [hpq.symm, hnone]⟩
  exact (hwaiting.stops hsize rfl hpq hk (Nat.zero_le _) hfull).behind
    ((hrec.mono hfrugal).append (.one (frugal_beginOp (hnone p)) hbegin))

theorem takeHead_zero : takeHead (fun _ => 0) = [] := by decide +kernel

/-- What a run keeps in which every system call logs at most `k` blocks. -/
theorem reserved_of_runs {disk : Nat → Block} {es : List (Event P)} {s : State P} (hk : k ≤ maxOpBlocks)
    (hdisk : takeHead (disk sb.logstart) = []) (hrun : Runs (step sb) (Frugal k sb) (boot disk) es s) :
    ∃ t, Valid sb s t ∧ (0 < s.outstanding → Reserved k s.lh s.ops) := by
  refine hrun.invariant (P := fun s => ∃ t, Valid sb s t ∧ (0 < s.outstanding → Reserved k s.lh s.ops)) ?_
    ⟨_, valid_boot hdisk, fun h => absurd h (Nat.lt_irrefl 0)⟩
  intro s e s' _ hinv he hstep
  obtain ⟨t, ht, hs⟩ := hinv
  exact ⟨_, valid_step ht he.1 hstep, reserved_step hk ht hs he hstep⟩

/-- **`begin_op` reserves enough for system calls of `k` blocks iff `MAXOPBLOCKS + 2 * k` blocks
do not fill the log**: then no run in which every system call logs at most `k` different blocks
stops the kernel, and else one does. No log is large enough for `MAXOPBLOCKS` blocks. -/
theorem reservation_suffices_iff (hP : 1 < Fintype.card P) (hsize : sb.logstart + sb.nlog + logSize ≤ sb.size)
    (hpos : 0 < k) (hk : k ≤ maxOpBlocks) :
    (∀ disk es (s : State P) e m, takeHead (disk sb.logstart) = [] →
      Runs (step sb) (Frugal k sb) (boot disk) es s → Frugal k sb s e → step sb s e ≠ .panics m) ↔
      maxOpBlocks + 2 * k < min logSize (sb.nlog - 1) := by
  refine ⟨fun hsafe => ?_, fun hlog disk es s e m hdisk hrun he => ?_⟩
  · by_contra hlog
    have hblank : takeHead (blank sb.logstart) = [] := takeHead_zero
    obtain ⟨es, s, e, hrun, he, hpanic⟩ := overflows hP hsize hpos (Nat.le_of_not_lt hlog) hblank
    exact hsafe blank es s e _ hblank hrun he hpanic
  · obtain ⟨t, ht, hs⟩ := reserved_of_runs hk hdisk hrun
    exact no_panic hlog ht hs he m

/-- On the disk that `mkfs` makes nine blocks for each system call are safe, and ten are not. -/
theorem reservation_on_image :
    (∀ disk es (s : State (Fin 64)) e m, takeHead (disk mkfs.logstart) = [] →
      Runs (step mkfs) (Frugal 9 mkfs) (boot disk) es s → Frugal 9 mkfs s e → step mkfs s e ≠ .panics m) ∧
    ¬ ∀ disk es (s : State (Fin 64)) e m, takeHead (disk mkfs.logstart) = [] →
      Runs (step mkfs) (Frugal 10 mkfs) (boot disk) es s → Frugal 10 mkfs s e → step mkfs s e ≠ .panics m :=
  ⟨(reservation_suffices_iff (by simp) (by decide) (by decide) (by decide)).mpr (by decide),
    fun h => absurd ((reservation_suffices_iff (by simp) (by decide) (by decide) (by decide)).mp h) (by decide)⟩

end Exact

end CompilingToAssembly.Xv6.Log
