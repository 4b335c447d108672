import CompilingToAssembly.Xv6.Killed

/-! The loops of `scheduler`, one on each processor, and how long a process waits for them. -/
namespace CompilingToAssembly.Xv6.Proc
open Library State

variable {C : Type} [DecidableEq C] {n : Nat} {s s' : State C n} {es : List (Event C)} {e : Event C} {c : C}
  {p q : Fin n}

def isScheduler (c : C) : Event C → Bool
  | .scheduler c' => c' = c
  | _ => false

/-- How many turns of the loop on `c` can go by before `q` is reached. -/
def turnsLeft (c : C) (q : Fin n) (s : State C n) : Nat :=
  if (s.cpu c).next ≤ q.val then q.val - (s.cpu c).next else n - (s.cpu c).next + 1 + q.val

omit [DecidableEq C] in
theorem turnsLeft_le (c : C) (q : Fin n) (s : State C n) : turnsLeft c q s ≤ n := by
  have := q.isLt
  unfold turnsLeft
  split <;> omega

omit [DecidableEq C] in
theorem first_le {property : Fin n → Entry n → Bool} (h : s.first property = some p)
    (hq : property q (s.proc q) = true) : p ≤ q := by
  obtain ⟨_, before, after, hsplit, hbefore⟩ := List.find?_eq_some_iff_append.mp h
  have hsorted := List.pairwise_lt_finRange n
  rw [hsplit, List.pairwise_append] at hsorted
  have hmem := List.mem_finRange q
  rw [hsplit, List.mem_append, List.mem_cons] at hmem
  rcases hmem with hmem | rfl | hmem
  · simpa [hq] using hbefore q hmem
  · exact le_rfl
  · exact ((List.pairwise_cons.mp hsorted.2.1).1 q hmem).le

theorem sched_next (s : State C n) (c c' : C) : ((s.sched c).cpu c').next = (s.cpu c').next := by
  by_cases hc : c' = c
  · subst hc
    simp [State.sched, State.setCpu]
  · simp [State.sched, State.setCpu, hc]

theorem waitLoop_next (s : State C n) (c c' : C) (p : Fin n) :
    ((s.waitLoop c p).cpu c').next = (s.cpu c').next := by
  unfold State.waitLoop
  split
  · rfl
  · dsimp only
    split
    · rfl
    · exact sched_next ..

theorem goOn_next (s : State C n) (c c' : C) (p : Fin n) : ((s.goOn c p).cpu c').next = (s.cpu c').next := by
  unfold State.goOn
  split
  · rfl
  · rfl
  · exact waitLoop_next ..

/-- Nobody else moves the loop of `scheduler` on `c`. -/
theorem next_step {e : Event C} (hstep : step s e = .next s') (he : isScheduler c e = false) :
    (s'.cpu c).next = (s.cpu c).next := by
  cases e with
  | allocproc c' | kalloc c' ok | copyuvm c' ok | start c' | kill pid | trap c' =>
    simp only [step] at hstep
    split at hstep <;> first
      | (cases hstep <;> rfl)
      | (split at hstep <;> cases hstep <;> rfl)
  | wakeup address =>
    cases hstep
    rfl
  | exit c' =>
    simp only [step] at hstep
    split at hstep
    · cases hstep
    · split at hstep <;> cases hstep
      exact sched_next ..
  | wait c' =>
    simp only [step] at hstep
    split at hstep <;> cases hstep
    exact waitLoop_next ..
  | sleep c' address =>
    simp only [step] at hstep
    split at hstep <;> cases hstep
    exact sched_next ..
  | yield c' =>
    simp only [step] at hstep
    split at hstep <;> cases hstep
    exact sched_next ..
  | scheduler c' =>
    have hc : c ≠ c' := fun heq => by simp [isScheduler, heq] at he
    simp only [step] at hstep
    split at hstep
    · cases hstep
    · split at hstep <;> cases hstep
      · simp [State.setCpu, hc]
      · rw [goOn_next]
        simp [State.setCpu, State.set, hc]

theorem goOn_not_runnable (s : State C n) (c : C) (hp : (s.proc p).state = .running) :
    ((s.goOn c p).proc p).state ≠ .runnable := by
  have hwait : ∀ s : State C n, (s.proc p).state = .running → ((s.waitLoop c p).proc p).state ≠ .runnable := by
    intro s hp
    unfold State.waitLoop
    split
    · next q _ =>
      by_cases hq : p = q
      · subst hq
        simp [State.set, Entry.reap]
      · simp [State.set, hq, hp]
    · dsimp only
      split
      · simp [hp]
      · simp [sched_proc, State.set]
  unfold State.goOn
  split
  · simp [hp]
  · simp [State.set, hp]
  · apply hwait
    simp [State.set, hp]

theorem scheduler_step (hstep : step s (.scheduler c) = .next s') (hq : (s.proc q).state = .runnable)
    (hq' : (s'.proc q).state = .runnable) : turnsLeft c q s' < turnsLeft c q s := by
  have hlt := q.isLt
  simp only [step] at hstep
  split at hstep
  · cases hstep
  · split at hstep
    · next hnone =>
      cases hstep
      have hpast : ¬ (s.cpu c).next ≤ q.val := by simpa [hq] using first_none hnone q
      simp only [turnsLeft, State.setCpu, Function.update_self, if_neg hpast, Nat.zero_le, if_true]
      omega
    · next p hp =>
      have hfound := first_some hp
      simp only [Bool.and_eq_true, decide_eq_true_eq] at hfound
      cases hstep
      have hne : q ≠ p := by
        rintro rfl
        exact goOn_not_runnable _ c (by simp [State.setCpu, State.set]) hq'
      have hplt := p.isLt
      simp only [turnsLeft, goOn_next, State.setCpu, Function.update_self]
      by_cases hpast : (s.cpu c).next ≤ q.val
      · have hle : p ≤ q := first_le hp (by simp [hpast, hq])
        have hlt' : p.val < q.val := lt_of_le_of_ne hle fun heq => hne (Fin.ext heq.symm)
        rw [if_pos hpast, if_pos (Nat.succ_le_of_lt hlt')]
        omega
      · rw [if_neg hpast, if_neg (by omega)]
        omega

/-- While `q` is ready to run and nobody takes it, the loop on `c` chooses a process or starts
again at most as often as there are entries in the table. -/
theorem turns_le (hrun : Runs step (fun s _ => (s.proc q).state = .runnable) s es s')
    (hq : (s'.proc q).state = .runnable) : es.countP (isScheduler c) ≤ n := by
  refine (hrun.countP_le (φ := turnsLeft c q) ?_ hq).trans (turnsLeft_le c q s)
  intro s e s' hs hs' hstep
  cases he : isScheduler c e with
  | false =>
    simp [turnsLeft, next_step hstep he]
  | true =>
    obtain rfl : e = .scheduler c := by
      cases e <;> simp_all [isScheduler]
    exact scheduler_step hstep hs hs'

/-- The child has its turn, the loop starts again, and the first process has two. -/
def turns : List (Event Bool) :=
  [.scheduler true, .yield true, .scheduler true, .scheduler true, .yield true, .scheduler true]

end CompilingToAssembly.Xv6.Proc
