import Mathlib.Data.List.Basic
import Mathlib.Tactic.Cases

/-! Precedence climbing, over any tokens.

A token list is read by an operand (a leaf, or an expression between brackets)
followed by a loop: while the next token binds tighter than a threshold, read the
expression to its right at that token's own precedence and join the two. `climb`
is that parser, with a budget for its recursion; `Derives p` is the grammar it is
meant to read, in which every operator of an expression outside its brackets
binds tighter than `p` and operators of one precedence associate to the left.

`climb_sound` and `climb_complete` say that the two agree, for any number of
precedences: what the parser returns is a derivation that cannot be extended, and
every such derivation is found. `climb_fuel` and `climb_mono` say that the budget
does not matter once it exceeds the number of tokens. -/
namespace CompilingToAssembly.Library

/-- Why a parser gives up: a token it cannot use, no token left, a leaf that does
not evaluate, or the budget of the model spent. -/
inductive Failure (ε : Type) where
  | invalid
  | missing
  | leaf (e : ε)
  | fuel
deriving DecidableEq, Repr

namespace Climb

/-- What each token is to the parser. A token of precedence zero is no operator;
the token that closes a bracket is none. -/
structure Operators (τ ε α : Type) where
  leaf : τ → Option (Except ε α)
  opens : τ → Bool
  closes : τ → Bool
  prec : τ → Nat
  node : τ → α → α → α
  closes_prec : ∀ t, closes t = true → prec t = 0

/-- A value and the tokens left, or a reason. -/
abbrev Result (τ ε α : Type) := Except (Failure ε) (α × List τ)

section
variable {τ ε α : Type} (G : Operators τ ε α)

/-- After the expression between brackets, the closing one. -/
def closing : Result τ ε α → Result τ ε α
  | .error e => .error e
  | .ok (_, []) => .error .missing
  | .ok (a, c :: ts) => if G.closes c then .ok (a, ts) else .error .invalid

/-- A leaf, or a bracketed expression read by `expr`. -/
def operand (expr : List τ → Result τ ε α) : List τ → Result τ ε α
  | [] => .error .missing
  | t :: ts =>
    match G.leaf t with
    | some (.ok a) => .ok (a, ts)
    | some (.error e) => .error (.leaf e)
    | none => if G.opens t then closing G (expr ts) else .error .invalid

/-- While the next token binds tighter than `p`, read what is to its right. -/
def loop (expr : Nat → List τ → Result τ ε α) (p : Nat) : Nat → α → List τ → Result τ ε α
  | 0, _, _ => .error .fuel
  | _ + 1, left, [] => .ok (left, [])
  | n + 1, left, t :: ts =>
    if p < G.prec t then
      match expr (G.prec t) ts with
      | .error e => .error e
      | .ok (right, rest) => loop expr p n (G.node t left right) rest
    else .ok (left, t :: ts)

def climb : Nat → Nat → List τ → Result τ ε α
  | 0, _, _ => .error .fuel
  | n + 1, p, ts =>
    match operand G (climb n 0) ts with
    | .error e => .error e
    | .ok (left, rest) => loop G (climb n) p n left rest

/-! ### The grammar -/

/-- `Derives p u a`: the tokens `u` are an expression whose operators outside
brackets all bind tighter than `p`, and `a` is its tree. The left operand of an
operator may hold operators of the same precedence, the right one may not. -/
inductive Derives : Nat → List τ → α → Prop where
  | leaf {p t a} : G.leaf t = some (.ok a) → Derives p [t] a
  | bracket {p o c u a} : G.leaf o = none → G.opens o = true → G.closes c = true →
      Derives 0 u a → Derives p (o :: (u ++ [c])) a
  | node {p t u v l r} : p < G.prec t → Derives (G.prec t - 1) u l → Derives (G.prec t) v r →
      Derives p (u ++ t :: v) (G.node t l r)

/-- The precedence of the next token, zero at the end. -/
def top : List τ → Nat
  | [] => 0
  | t :: _ => G.prec t

@[simp] theorem top_nil : top G ([] : List τ) = 0 := rfl
@[simp] theorem top_cons (t : τ) (ts : List τ) : top G (t :: ts) = G.prec t := rfl

variable {G}

theorem Derives.weaken {p q : Nat} {u : List τ} {a : α} (h : Derives G q u a) (hpq : p ≤ q) :
    Derives G p u a := by
  cases h with
  | leaf ht => exact .leaf ht
  | bracket hl ho hc hu => exact .bracket hl ho hc hu
  | node hp hl hr => exact .node (by omega) hl hr

theorem Derives.ne_nil {p : Nat} {u : List τ} {a : α} (h : Derives G p u a) : u ≠ [] := by
  cases h <;> simp

/-! ### What an operand and a turn of the loop can do -/

theorem operand_ok {expr : List τ → Result τ ε α} {ts rest : List τ} {a : α}
    (h : operand G expr ts = .ok (a, rest)) :
    (∃ t, ts = t :: rest ∧ G.leaf t = some (.ok a)) ∨
      ∃ o c us, ts = o :: us ∧ G.leaf o = none ∧ G.opens o = true ∧ G.closes c = true ∧
        expr us = .ok (a, c :: rest) := by
  cases ts with
  | nil => cases h
  | cons t ts =>
    simp only [operand] at h
    split at h
    · rename_i hleaf
      cases h
      exact .inl ⟨t, rfl, hleaf⟩
    · cases h
    · rename_i hleaf
      split at h
      · rename_i hopens
        cases hexpr : expr ts with
        | error e => rw [hexpr] at h; cases h
        | ok r =>
          obtain ⟨b, us⟩ := r
          rw [hexpr] at h
          cases us with
          | nil => cases h
          | cons c us =>
            simp only [closing] at h
            split at h
            · rename_i hcloses
              cases h
              exact .inr ⟨t, c, ts, rfl, hleaf, hopens, hcloses, hexpr⟩
            · cases h
      · cases h

/-- Why an operand fails. -/
theorem operand_error {expr : List τ → Result τ ε α} {ts : List τ} {e : Failure ε}
    (h : operand G expr ts = .error e) :
    (ts = [] ∧ e = .missing) ∨ ∃ t us, ts = t :: us ∧
      ((∃ e', G.leaf t = some (.error e') ∧ e = .leaf e') ∨
        (G.leaf t = none ∧ G.opens t = false ∧ e = .invalid) ∨
        (G.leaf t = none ∧ G.opens t = true ∧
          (expr us = .error e ∨ (∃ a, expr us = .ok (a, []) ∧ e = .missing) ∨
            ∃ a c rest, expr us = .ok (a, c :: rest) ∧ G.closes c = false ∧ e = .invalid))) := by
  cases ts with
  | nil => cases h; exact .inl ⟨rfl, rfl⟩
  | cons t us =>
    refine .inr ⟨t, us, rfl, ?_⟩
    simp only [operand] at h
    split at h
    · cases h
    · rename_i e' hleaf
      cases h
      exact .inl ⟨e', hleaf, rfl⟩
    · rename_i hleaf
      split at h
      · rename_i hopens
        refine .inr (.inr ⟨hleaf, hopens, ?_⟩)
        cases hexpr : expr us with
        | error e => rw [hexpr] at h; cases h; exact .inl rfl
        | ok r =>
          obtain ⟨a, rest⟩ := r
          rw [hexpr] at h
          cases rest with
          | nil => cases h; exact .inr (.inl ⟨a, rfl, rfl⟩)
          | cons c rest =>
            simp only [closing] at h
            split at h
            · cases h
            · rename_i hcloses
              cases h
              exact .inr (.inr ⟨a, c, rest, rfl, by simpa using hcloses, rfl⟩)
      · rename_i hopens
        cases h
        exact .inr (.inl ⟨hleaf, by simpa using hopens, rfl⟩)

theorem loop_stop {expr : Nat → List τ → Result τ ε α} {p n : Nat} (left : α) {ts : List τ}
    (hn : 0 < n) (h : top G ts ≤ p) : loop G expr p n left ts = .ok (left, ts) := by
  obtain ⟨m, rfl⟩ := Nat.exists_eq_succ_of_ne_zero (Nat.pos_iff_ne_zero.mp hn)
  cases ts with
  | nil => rfl
  | cons t ts =>
    have : ¬ p < G.prec t := by simpa using h
    simp [loop, this]

theorem loop_turn {expr : Nat → List τ → Result τ ε α} {p n : Nat} (left : α) {t : τ}
    {ts : List τ} (h : p < G.prec t) :
    loop G expr p (n + 1) left (t :: ts) =
      match expr (G.prec t) ts with
      | .error e => .error e
      | .ok (right, rest) => loop G expr p n (G.node t left right) rest := by
  simp [loop, h]

/-! ### Soundness -/

/-- What `expr` returns at threshold `p` derives what it consumed, and stops only
where no operator above `p` follows. -/
def Sound (p : Nat) (expr : List τ → Result τ ε α) : Prop :=
  ∀ ts a rest, expr ts = .ok (a, rest) →
    ∃ u, ts = u ++ rest ∧ Derives G p u a ∧ top G rest ≤ p

theorem operand_sound {expr : List τ → Result τ ε α} (hexpr : Sound (G := G) 0 expr)
    {ts rest : List τ} {a : α} (h : operand G expr ts = .ok (a, rest)) :
    ∃ u, ts = u ++ rest ∧ ∀ p, Derives G p u a := by
  rcases operand_ok h with ⟨t, rfl, ht⟩ | ⟨o, c, us, rfl, hl, ho, hc, hus⟩
  · exact ⟨[t], rfl, fun p => .leaf ht⟩
  · obtain ⟨u, rfl, hu, _⟩ := hexpr us a _ hus
    exact ⟨o :: (u ++ [c]), by simp, fun p => .bracket hl ho hc hu⟩

/-- The loop's invariant: the left operand so far was read at some threshold `q`
above the loop's own, and the next token does not bind tighter than `q + 1`. An
operator that joins it then finds it derived at one below its own precedence. -/
theorem loop_sound {expr : Nat → List τ → Result τ ε α} (hexpr : ∀ q, Sound (G := G) q (expr q))
    {p q n : Nat} {u ts rest : List τ} {left a : α} (hu : Derives G q u left) (hpq : p ≤ q)
    (htop : top G ts ≤ q + 1) (h : loop G expr p n left ts = .ok (a, rest)) :
    ∃ v, ts = v ++ rest ∧ Derives G p (u ++ v) a ∧ top G rest ≤ p := by
  induction n generalizing q u ts left with
  | zero => cases h
  | succ n ih =>
    by_cases hstop : top G ts ≤ p
    · rw [loop_stop left (Nat.succ_pos n) hstop] at h
      cases h
      exact ⟨[], rfl, by simpa using hu.weaken hpq, hstop⟩
    · cases ts with
      | nil => exact absurd (Nat.zero_le p) hstop
      | cons t ts =>
        simp only [top_cons] at hstop htop
        rw [loop_turn left (by omega)] at h
        cases hr : expr (G.prec t) ts with
        | error e => rw [hr] at h; cases h
        | ok r =>
          obtain ⟨right, rest'⟩ := r
          rw [hr] at h
          obtain ⟨v, rfl, hv, htop'⟩ := hexpr _ _ _ _ hr
          have hnode : Derives G (G.prec t - 1) (u ++ t :: v) (G.node t left right) :=
            .node (by omega) (hu.weaken (by omega)) hv
          obtain ⟨w, rfl, hw, hrest⟩ := ih hnode (by omega) (by omega) h
          exact ⟨t :: v ++ w, by simp, by simpa using hw, hrest⟩

theorem climb_sound (n p : Nat) : Sound (G := G) p (climb G n p) := by
  induction n generalizing p with
  | zero => intro ts a rest h; cases h
  | succ n ih =>
    intro ts a rest h
    simp only [climb] at h
    cases hop : operand G (climb G n 0) ts with
    | error e => rw [hop] at h; cases h
    | ok r =>
      obtain ⟨left, rest'⟩ := r
      rw [hop] at h
      obtain ⟨u, rfl, hu⟩ := operand_sound (ih 0) hop
      obtain ⟨v, rfl, hv, htop⟩ := loop_sound ih (hu (max p (top G rest'))) (Nat.le_max_left ..)
        (Nat.le_succ_of_le (Nat.le_max_right ..)) h
      exact ⟨u ++ v, by simp, hv, htop⟩

theorem climb_length {n p : Nat} {ts rest : List τ} {a : α} (h : climb G n p ts = .ok (a, rest)) :
    rest.length < ts.length := by
  obtain ⟨u, rfl, hu, _⟩ := climb_sound n p ts a rest h
  have := List.length_pos_iff.mpr hu.ne_nil
  simp only [List.length_append]
  omega

/-! ### Completeness -/

/-- Reading a derivation leaves the parser in its loop with the tree in hand. The
token after it may still be an operator of the enclosing expression, as long as
it does not bind tighter than what the derivation itself could have absorbed. -/
theorem climb_derives {q : Nat} {u : List τ} {a : α} (h : Derives G q u a) (n p : Nat)
    (rest : List τ) (hn : (u ++ rest).length ≤ n) (hpq : p ≤ q) (htop : top G rest ≤ q + 1) :
    ∃ m, rest.length < m ∧ climb G (n + 1) p (u ++ rest) = loop G (climb G n) p m a rest := by
  induction h generalizing n p rest with
  | @leaf q t a ht =>
    refine ⟨n, ?_, ?_⟩
    · simp at hn
      omega
    · simp [climb, operand, ht]
  | @bracket q o c u a hl ho hc hu ih =>
    -- Between the brackets the closing token stops the inner loop.
    have hlen : (u ++ c :: rest).length ≤ n - 1 := by
      simp only [List.length_append, List.length_cons, List.cons_append, List.length_nil] at hn ⊢
      omega
    obtain ⟨k, rfl⟩ : ∃ k, n = k + 1 := ⟨n - 1, by simp at hn; omega⟩
    have hclose : top G (c :: rest) = 0 := G.closes_prec c hc
    obtain ⟨m, hm, hinner⟩ := ih k 0 (c :: rest) hlen (Nat.zero_le _) (by omega)
    rw [loop_stop a (by omega) (by omega)] at hinner
    refine ⟨k + 1, ?_, ?_⟩
    · simp at hn
      omega
    · rw [climb]
      simp [operand, hl, ho, hinner, closing, hc]
  | @node q t u v l r hp hu hv ihu ihv =>
    have hl : (u ++ (t :: (v ++ rest))).length ≤ n := by simpa using hn
    obtain ⟨m, hm, hleft⟩ := ihu n p (t :: (v ++ rest)) hl (by omega) (by simp; omega)
    obtain ⟨k, rfl⟩ : ∃ k, n = k + 1 := ⟨n - 1, by simp at hn; omega⟩
    obtain ⟨m', hm', hright⟩ := ihv k (G.prec t) rest (by simp at hn ⊢; omega) (Nat.le_refl _)
      (by omega)
    rw [loop_stop r (by omega) (by omega)] at hright
    obtain ⟨j, rfl⟩ : ∃ j, m = j + 1 := ⟨m - 1, by omega⟩
    refine ⟨j, ?_, ?_⟩
    · simp at hm
      omega
    · rw [List.append_assoc, List.cons_append, hleft, loop_turn l (by omega), hright]

/-- Every derivation that no operator above the threshold follows is found. -/
theorem climb_complete {p : Nat} {u : List τ} {a : α} (h : Derives G p u a) (n : Nat)
    (rest : List τ) (hn : (u ++ rest).length < n) (htop : top G rest ≤ p) :
    climb G n p (u ++ rest) = .ok (a, rest) := by
  obtain ⟨k, rfl⟩ : ∃ k, n = k + 1 := ⟨n - 1, by omega⟩
  obtain ⟨m, hm, hloop⟩ := climb_derives h k p rest (by omega) (Nat.le_refl p) (by omega)
  rw [hloop, loop_stop a (by omega) htop]

/-! ### The budget -/

theorem loop_fuel {expr : Nat → List τ → Result τ ε α} {p n : Nat} {left : α} {ts : List τ}
    (hlen : ∀ q us a rest, expr q us = .ok (a, rest) → rest.length < us.length)
    (hexpr : ∀ q us, us.length < ts.length → expr q us ≠ .error .fuel) (hn : ts.length < n) :
    loop G expr p n left ts ≠ .error .fuel := by
  induction n generalizing left ts with
  | zero => omega
  | succ n ih =>
    cases ts with
    | nil => simp [loop]
    | cons t ts =>
      by_cases hp : p < G.prec t
      · rw [loop_turn left hp]
        cases hr : expr (G.prec t) ts with
        | error e =>
          intro he
          cases he
          exact hexpr _ ts (by simp) hr
        | ok r =>
          obtain ⟨right, rest⟩ := r
          have hshort := hlen _ _ _ _ hr
          simp only [List.length_cons] at hn
          exact ih (fun q us hus => hexpr q us (by simp only [List.length_cons]; omega)) (by omega)
      · simp [loop, hp]

/-- A budget above the number of tokens is never spent. -/
theorem climb_fuel {n p : Nat} {ts : List τ} (hn : ts.length < n) :
    climb G n p ts ≠ .error .fuel := by
  induction n generalizing p ts with
  | zero => omega
  | succ n ih =>
    simp only [climb]
    cases hop : operand G (climb G n 0) ts with
    | error e =>
      intro he
      cases he
      rcases operand_error hop with ⟨_, he⟩ | ⟨t, us, rfl, ⟨_, _, he⟩ | ⟨_, _, he⟩ |
        ⟨_, _, hus | ⟨_, _, he⟩ | ⟨_, _, _, _, _, he⟩⟩⟩
      · cases he
      · cases he
      · cases he
      · simp only [List.length_cons] at hn
        exact ih (by omega) hus
      · cases he
      · cases he
    | ok r =>
      obtain ⟨left, rest⟩ := r
      obtain ⟨u, rfl, hu⟩ := operand_sound (climb_sound n 0) hop
      have := List.length_pos_iff.mpr (hu 0).ne_nil
      simp only [List.length_append] at hn
      exact loop_fuel (fun q us a rest h => climb_length h)
        (fun q us hus => ih (by omega)) (by omega)

theorem loop_leaf {expr : Nat → List τ → Result τ ε α} (hsound : ∀ q, Sound (G := G) q (expr q))
    {e : ε} (hexpr : ∀ q us, expr q us = .error (.leaf e) → ∃ t ∈ us, G.leaf t = some (.error e))
    {p n : Nat} {left : α} {ts : List τ} (h : loop G expr p n left ts = .error (.leaf e)) :
    ∃ t ∈ ts, G.leaf t = some (.error e) := by
  induction n generalizing left ts with
  | zero => cases h
  | succ n ih =>
    cases ts with
    | nil => cases h
    | cons t ts =>
      by_cases hp : p < G.prec t
      · rw [loop_turn left hp] at h
        cases hr : expr (G.prec t) ts with
        | error e' =>
          rw [hr] at h
          cases h
          obtain ⟨x, hx, hleaf⟩ := hexpr _ ts hr
          exact ⟨x, List.mem_cons_of_mem _ hx, hleaf⟩
        | ok r =>
          obtain ⟨right, rest⟩ := r
          rw [hr] at h
          obtain ⟨u, rfl, _, _⟩ := hsound _ _ _ _ hr
          obtain ⟨x, hx, hleaf⟩ := ih h
          exact ⟨x, List.mem_cons_of_mem _ (List.mem_append_right _ hx), hleaf⟩
      · simp [loop, hp] at h

/-- A leaf's error is that of some leaf. -/
theorem climb_leaf {n p : Nat} {ts : List τ} {e : ε} (h : climb G n p ts = .error (.leaf e)) :
    ∃ t ∈ ts, G.leaf t = some (.error e) := by
  induction n generalizing p ts with
  | zero => cases h
  | succ n ih =>
    simp only [climb] at h
    cases hop : operand G (climb G n 0) ts with
    | error e' =>
      rw [hop] at h
      cases h
      rcases operand_error hop with ⟨_, he⟩ | ⟨t, us, rfl, ⟨_, hleaf, he⟩ | ⟨_, _, he⟩ |
        ⟨_, _, hus | ⟨_, _, he⟩ | ⟨_, _, _, _, _, he⟩⟩⟩
      · cases he
      · cases he
        exact ⟨t, List.mem_cons_self .., hleaf⟩
      · cases he
      · obtain ⟨x, hx, hleaf⟩ := ih hus
        exact ⟨x, List.mem_cons_of_mem _ hx, hleaf⟩
      · cases he
      · cases he
    | ok r =>
      obtain ⟨left, rest⟩ := r
      rw [hop] at h
      obtain ⟨u, rfl, _⟩ := operand_sound (climb_sound n 0) hop
      obtain ⟨x, hx, hleaf⟩ := loop_leaf (climb_sound n) (fun q us => ih) h
      exact ⟨x, List.mem_append_right _ hx, hleaf⟩

/-- `expr'` agrees with `expr` wherever the latter has budget enough. -/
def Extends (expr expr' : Nat → List τ → Result τ ε α) : Prop :=
  ∀ q ts, expr q ts ≠ .error .fuel → expr' q ts = expr q ts

theorem operand_mono {expr expr' : Nat → List τ → Result τ ε α} (he : Extends expr expr')
    (ts : List τ) (h : operand G (expr 0) ts ≠ .error .fuel) :
    operand G (expr' 0) ts = operand G (expr 0) ts := by
  cases ts with
  | nil => rfl
  | cons t ts =>
    simp only [operand] at h ⊢
    split
    · rfl
    · rfl
    · split
      · rename_i hleaf hopens
        rw [he 0 ts]
        intro hf
        simp [hleaf, hopens, hf, closing] at h
      · rfl

theorem loop_mono {expr expr' : Nat → List τ → Result τ ε α} (he : Extends expr expr') {p : Nat}
    {n m : Nat} (hnm : n ≤ m) (left : α) (ts : List τ)
    (h : loop G expr p n left ts ≠ .error .fuel) :
    loop G expr' p m left ts = loop G expr p n left ts := by
  induction n generalizing m left ts with
  | zero => exact absurd rfl h
  | succ n ih =>
    obtain ⟨m, rfl⟩ : ∃ k, m = k + 1 := ⟨m - 1, by omega⟩
    cases ts with
    | nil => rfl
    | cons t ts =>
      by_cases hp : p < G.prec t
      · rw [loop_turn left hp] at h
        rw [loop_turn left hp, loop_turn left hp]
        have hr : expr (G.prec t) ts ≠ .error .fuel := by
          intro hf
          rw [hf] at h
          exact h rfl
        rw [he _ _ hr]
        cases hr' : expr (G.prec t) ts with
        | error e => rfl
        | ok r =>
          rw [hr'] at h
          exact ih (by omega) _ _ h
      · simp [loop, hp]

theorem climb_succ (n : Nat) : Extends (climb G n) (climb G (n + 1)) := by
  induction n with
  | zero => intro p ts h; exact absurd rfl h
  | succ n ih =>
    intro p ts h
    simp only [climb] at h
    have hop : operand G (climb G n 0) ts ≠ .error .fuel := by
      intro hf
      rw [hf] at h
      exact h rfl
    rw [climb, climb, operand_mono ih ts hop]
    cases hop' : operand G (climb G n 0) ts with
    | error e => rfl
    | ok r =>
      rw [hop'] at h
      exact loop_mono ih (Nat.le_succ n) _ _ h

/-- More budget changes nothing. -/
theorem climb_mono {n m : Nat} (hnm : n ≤ m) : Extends (climb G n) (climb G m) := by
  induction hnm with
  | refl => intro p ts _; rfl
  | @step m _ ih =>
    intro p ts h
    rw [climb_succ m p ts (by rw [ih p ts h]; exact h), ih p ts h]

end

end Climb

end CompilingToAssembly.Library
