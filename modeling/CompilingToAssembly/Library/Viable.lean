import CompilingToAssembly.Library.Climb

/-! What the two errors of a precedence-climbing parser mean.

`missing` is reported only when the tokens ran out in the middle of an
expression: some further tokens complete it (`climb_missing`). `invalid` is
reported at a token that nothing to its right can repair: it stays the answer
however the list goes on (`climb_invalid`). -/
namespace CompilingToAssembly.Library.Climb

variable {τ ε α : Type} {G : Operators τ ε α}

/-! ### Running out of tokens -/

section
variable {x c : τ} {ax : α} (hx : G.leaf x = some (.ok ax)) (hc : G.closes c = true)

variable (G x c) in
/-- When `expr` runs out of tokens at threshold `p`, some leaves `x` and closing
brackets `c` complete what it read. -/
def Completable (p : Nat) (expr : List τ → Result τ ε α) : Prop :=
  ∀ ts, expr ts = .error .missing →
    ∃ more a, (∀ t ∈ more, t = x ∨ t = c) ∧ Derives G p (ts ++ more) a

include hx hc in
theorem operand_completable {expr : List τ → Result τ ε α} (hsound : Sound (G := G) 0 expr)
    (hexpr : Completable G x c 0 expr) {ts : List τ} (h : operand G expr ts = .error .missing) :
    ∃ more a, (∀ t ∈ more, t = x ∨ t = c) ∧ ∀ p, Derives G p (ts ++ more) a := by
  rcases operand_error h with ⟨rfl, _⟩ | ⟨o, us, rfl, ⟨_, _, he⟩ | ⟨_, _, he⟩ |
    ⟨hl, ho, hmiss | ⟨a, hus, _⟩ | ⟨_, _, _, _, _, he⟩⟩⟩
  · exact ⟨[x], ax, by simp, fun p => .leaf hx⟩
  · cases he
  · cases he
  · obtain ⟨more, a, hmore, hd⟩ := hexpr us hmiss
    refine ⟨more ++ [c], a, ?_, fun p => ?_⟩
    · intro t ht
      rcases List.mem_append.mp ht with ht | ht
      · exact hmore t ht
      · exact .inr (List.mem_singleton.mp ht)
    · simpa using Derives.bracket (p := p) hl ho hc hd
  · obtain ⟨u, rfl, hu, _⟩ := hsound us a [] hus
    refine ⟨[c], a, by simp, fun p => ?_⟩
    simpa using Derives.bracket (p := p) hl ho hc hu
  · cases he

theorem loop_completable {expr : Nat → List τ → Result τ ε α}
    (hsound : ∀ q, Sound (G := G) q (expr q)) (hexpr : ∀ q, Completable G x c q (expr q))
    {p q n : Nat} {u ts : List τ} {left : α} (hu : Derives G q u left) (hpq : p ≤ q)
    (htop : top G ts ≤ q + 1) (h : loop G expr p n left ts = .error .missing) :
    ∃ more a, (∀ t ∈ more, t = x ∨ t = c) ∧ Derives G p (u ++ ts ++ more) a := by
  induction n generalizing q u ts left with
  | zero => cases h
  | succ n ih =>
    by_cases hstop : top G ts ≤ p
    · rw [loop_stop left (Nat.succ_pos n) hstop] at h
      cases h
    · cases ts with
      | nil => exact absurd (Nat.zero_le p) hstop
      | cons t ts =>
        simp only [top_cons] at hstop htop
        rw [loop_turn left (by omega)] at h
        have hleft : Derives G (G.prec t - 1) u left := hu.weaken (by omega)
        cases hr : expr (G.prec t) ts with
        | error e =>
          rw [hr] at h
          cases h
          obtain ⟨more, right, hmore, hright⟩ := hexpr _ _ hr
          exact ⟨more, G.node t left right, hmore,
            by simpa using Derives.node (by omega) hleft hright⟩
        | ok r =>
          obtain ⟨right, rest⟩ := r
          rw [hr] at h
          obtain ⟨v, rfl, hv, htop'⟩ := hsound _ _ _ _ hr
          have hnode : Derives G (G.prec t - 1) (u ++ t :: v) (G.node t left right) :=
            .node (by omega) hleft hv
          obtain ⟨more, a, hmore, hd⟩ := ih hnode (by omega) (by omega) h
          exact ⟨more, a, hmore, by simpa using hd⟩

include hx hc in
/-- **A parse that runs out of tokens can be completed.** -/
theorem climb_missing (n p : Nat) : Completable G x c p (climb G n p) := by
  induction n generalizing p with
  | zero => intro ts h; cases h
  | succ n ih =>
    intro ts h
    simp only [climb] at h
    cases hop : operand G (climb G n 0) ts with
    | error e =>
      rw [hop] at h
      cases h
      obtain ⟨more, a, hmore, hd⟩ := operand_completable hx hc (climb_sound n 0) (ih 0) hop
      exact ⟨more, a, hmore, hd p⟩
    | ok r =>
      obtain ⟨left, rest⟩ := r
      rw [hop] at h
      obtain ⟨u, rfl, hu⟩ := operand_sound (climb_sound n 0) hop
      exact loop_completable (climb_sound n) ih (hu (max p (top G rest))) (Nat.le_max_left ..)
        (Nat.le_succ_of_le (Nat.le_max_right ..)) h

end

/-! ### A token that cannot be used -/

/-- Further tokens change neither an `invalid` nor a result that stopped in front
of a token. -/
structure Settled (expr : List τ → Result τ ε α) : Prop where
  invalid : ∀ ts more, expr ts = .error .invalid → expr (ts ++ more) = .error .invalid
  stopped : ∀ ts more a t rest, expr ts = .ok (a, t :: rest) →
    expr (ts ++ more) = .ok (a, t :: (rest ++ more))

/-- One parser after another is settled if each is and the second needs a token. -/
theorem Settled.andThen {β : Type} {f : List τ → Result τ ε α} {g : α → List τ → Result τ ε β}
    {expr : List τ → Result τ ε β} (hf : Settled f) (hg : ∀ a, Settled (g a))
    (hnil : ∀ a, g a [] = .error .missing) (herror : ∀ ts e, f ts = .error e → expr ts = .error e)
    (hok : ∀ ts a rest, f ts = .ok (a, rest) → expr ts = g a rest) : Settled expr := by
  constructor
  · intro ts more h
    cases hts : f ts with
    | error e =>
      rw [herror ts e hts] at h
      cases h
      exact herror _ _ (hf.invalid ts more hts)
    | ok r =>
      obtain ⟨a, rest⟩ := r
      rw [hok ts a rest hts] at h
      cases rest with
      | nil => rw [hnil] at h; cases h
      | cons t rest =>
        rw [hok _ _ _ (hf.stopped ts more a t rest hts)]
        exact (hg a).invalid (t :: rest) more h
  · intro ts more b t rest h
    cases hts : f ts with
    | error e => rw [herror ts e hts] at h; cases h
    | ok r =>
      obtain ⟨a, rest'⟩ := r
      rw [hok ts a rest' hts] at h
      cases rest' with
      | nil => rw [hnil] at h; cases h
      | cons t' rest' =>
        rw [hok _ _ _ (hf.stopped ts more a t' rest' hts)]
        exact (hg a).stopped (t' :: rest') more b t rest h

theorem operand_settled {expr : List τ → Result τ ε α} (hexpr : Settled expr) :
    (∀ ts more, operand G expr ts = .error .invalid → operand G expr (ts ++ more) = .error .invalid) ∧
      ∀ ts more a rest, operand G expr ts = .ok (a, rest) →
        operand G expr (ts ++ more) = .ok (a, rest ++ more) := by
  constructor
  · intro ts more h
    rcases operand_error h with ⟨_, he⟩ | ⟨t, us, rfl, ⟨_, _, he⟩ | ⟨hl, ho, _⟩ |
      ⟨hl, ho, hus | ⟨_, _, he⟩ | ⟨a, c, rest, hus, hc, _⟩⟩⟩
    · cases he
    · cases he
    · simp [operand, hl, ho]
    · simp [operand, hl, ho, hexpr.invalid us more hus, closing]
    · cases he
    · simp [operand, hl, ho, hexpr.stopped us more a c rest hus, closing, hc]
  · intro ts more a rest h
    rcases operand_ok h with ⟨t, rfl, ht⟩ | ⟨o, d, us, rfl, hl, ho, hd, hus⟩
    · simp [operand, ht]
    · simp [operand, hl, ho, hexpr.stopped us more a d rest hus, closing, hd]

theorem loop_settled {expr : Nat → List τ → Result τ ε α} (hexpr : ∀ q, Settled (expr q))
    (p n : Nat) (left : α) : Settled (loop G expr p n left) := by
  induction n generalizing left with
  | zero => exact ⟨fun _ _ h => (nomatch h), fun _ _ _ _ _ h => (nomatch h)⟩
  | succ n ih =>
    constructor
    · intro ts more h
      cases ts with
      | nil => cases h
      | cons t ts =>
        by_cases hp : p < G.prec t
        · rw [loop_turn left hp] at h
          rw [List.cons_append, loop_turn left hp]
          cases hr : expr (G.prec t) ts with
          | error e =>
            rw [hr] at h
            cases h
            rw [(hexpr _).invalid ts more hr]
          | ok r =>
            obtain ⟨right, rest⟩ := r
            rw [hr] at h
            cases rest with
            | nil => cases n <;> cases h
            | cons d rest =>
              rw [(hexpr _).stopped ts more right d rest hr]
              exact (ih _).invalid (d :: rest) more h
        · simp [loop, hp] at h
    · intro ts more a d rest h
      cases ts with
      | nil => cases h
      | cons t ts =>
        by_cases hp : p < G.prec t
        · rw [loop_turn left hp] at h
          rw [List.cons_append, loop_turn left hp]
          cases hr : expr (G.prec t) ts with
          | error e => rw [hr] at h; cases h
          | ok r =>
            obtain ⟨right, rest'⟩ := r
            rw [hr] at h
            cases rest' with
            | nil => cases n <;> cases h
            | cons e rest' =>
              rw [(hexpr _).stopped ts more right e rest' hr]
              exact (ih _).stopped (e :: rest') more a d rest h
        · simp only [loop, hp, if_false] at h
          cases h
          simp [loop, hp]

/-- **An invalid token stays invalid**, whatever follows it. -/
theorem climb_invalid (n p : Nat) : Settled (climb G n p) := by
  induction n generalizing p with
  | zero => exact ⟨fun _ _ h => (nomatch h), fun _ _ _ _ _ h => (nomatch h)⟩
  | succ n ih =>
    obtain ⟨hinvalid, hok⟩ := operand_settled (G := G) (ih 0)
    constructor
    · intro ts more h
      simp only [climb] at h ⊢
      cases hop : operand G (climb G n 0) ts with
      | error e =>
        rw [hop] at h
        cases h
        rw [hinvalid ts more hop]
      | ok r =>
        obtain ⟨left, rest⟩ := r
        rw [hop] at h
        rw [hok ts more left rest hop]
        exact (loop_settled ih p n left).invalid rest more h
    · intro ts more a d rest h
      simp only [climb] at h ⊢
      cases hop : operand G (climb G n 0) ts with
      | error e => rw [hop] at h; cases h
      | ok r =>
        obtain ⟨left, rest'⟩ := r
        rw [hop] at h
        rw [hok ts more left rest' hop]
        exact (loop_settled ih p n left).stopped rest' more a d rest h

end CompilingToAssembly.Library.Climb
