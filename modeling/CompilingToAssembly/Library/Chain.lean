import CompilingToAssembly.Library.Climb

/-! What precedence climbing consumes, whatever tree it builds.

A chain above a threshold is operands with operators between them, each of which binds
tighter than the threshold. Chains are what the grammar derives (`Derives.chain`,
`Chain.derives`): the precedences among the operators decide the tree, not the tokens. So
the parser consumes a chain that no tighter operator follows, and each such
(`climb_ok_iff`); and at a higher threshold it stops earlier in the same chain
(`climb_initial`). -/
namespace CompilingToAssembly.Library.Climb

variable {τ ε α : Type} {G : Operators τ ε α}

variable (G) in
/-- A leaf, or an expression between brackets. -/
inductive Operand : List τ → α → Prop where
  | leaf {t a} : G.leaf t = some (.ok a) → Operand [t] a
  | bracket {o c u a} : G.leaf o = none → G.opens o = true → G.closes c = true → Derives G 0 u a →
      Operand (o :: (u ++ [c])) a

variable (G) in
/-- Operands, with operators between them that bind tighter than `p`. -/
inductive Chain (p : Nat) : List τ → Prop where
  | operand {u a} : Operand G u a → Chain p u
  | cons {u a t v} : Operand G u a → p < G.prec t → Chain p v → Chain p (u ++ t :: v)

theorem Operand.derives {u : List τ} {a : α} (h : Operand G u a) (p : Nat) : Derives G p u a := by
  cases h with
  | leaf ht => exact .leaf ht
  | bracket hl ho hc hu => exact .bracket hl ho hc hu

namespace Chain
variable {p q : Nat} {u v : List τ}

theorem weaken (h : Chain G q u) (hpq : p ≤ q) : Chain G p u := by
  induction h with
  | operand hu => exact .operand hu
  | cons hu ht _ ih => exact .cons hu (Nat.lt_of_le_of_lt hpq ht) ih

theorem append (h : Chain G p u) {t : τ} (ht : p < G.prec t) (h' : Chain G p v) : Chain G p (u ++ t :: v) := by
  induction h with
  | operand hu => exact .cons hu ht h'
  | cons hu hs _ ih =>
    rw [List.append_assoc, List.cons_append]
    exact .cons hu hs ih

end Chain

/-! ### Chains are what is derived -/

theorem Derives.chain {p : Nat} {u : List τ} {a : α} (h : Derives G p u a) : Chain G p u := by
  induction h with
  | leaf ht => exact .operand (.leaf ht)
  | bracket hl ho hc hu _ => exact .operand (.bracket hl ho hc hu)
  | node hp _ _ ihl ihr => exact (ihl.weaken (by omega)).append hp (ihr.weaken (by omega))

/-- An operand and an operator in front of an expression. The operator takes what binds
tighter than it does, down the left side of the tree, for its right operand. -/
theorem Operand.prepend {u v : List τ} {a b : α} {t : τ} {p : Nat} (hu : Operand G u a) (ht : p < G.prec t)
    (hv : Derives G p v b) : ∃ c, Derives G p (u ++ t :: v) c := by
  induction hv with
  | leaf hl => exact ⟨_, .node ht (hu.derives _) (.leaf hl)⟩
  | bracket hl ho hc hin _ => exact ⟨_, .node ht (hu.derives _) (.bracket hl ho hc hin)⟩
  | @node p s v w l r hs hl hr ihl _ =>
    by_cases htighter : G.prec t < G.prec s
    · exact ⟨_, .node ht (hu.derives _) (.node htighter hl hr)⟩
    · obtain ⟨c, hc⟩ := ihl (by omega)
      have hnode := Derives.node hs hc hr
      rw [List.append_assoc, List.cons_append] at hnode
      exact ⟨_, hnode⟩

theorem Chain.derives {p : Nat} {u : List τ} (h : Chain G p u) : ∃ a, Derives G p u a := by
  induction h with
  | operand hu => exact ⟨_, hu.derives p⟩
  | cons hu ht _ ih =>
    obtain ⟨b, hb⟩ := ih
    exact hu.prepend ht hb

/-! ### What is consumed -/

/-- **The parser consumes the chains that no tighter operator follows.** -/
theorem climb_ok_iff {n p : Nat} {u rest : List τ} (hn : (u ++ rest).length < n) :
    (∃ a, climb G n p (u ++ rest) = .ok (a, rest)) ↔ Chain G p u ∧ top G rest ≤ p := by
  constructor
  · rintro ⟨a, h⟩
    obtain ⟨u', hu, hderives, htop⟩ := climb_sound n p _ a rest h
    rw [List.append_cancel_right hu]
    exact ⟨hderives.chain, htop⟩
  · rintro ⟨hchain, htop⟩
    obtain ⟨a, ha⟩ := hchain.derives
    exact ⟨a, climb_complete ha n rest hn htop⟩

/-- At another threshold a chain is one up to the first operator that does not bind tighter. -/
theorem Chain.initial {p q : Nat} {u rest : List τ} (h : Chain G p u) (hrest : top G rest ≤ q) :
    ∃ v w, u = v ++ w ∧ Chain G q v ∧ top G (w ++ rest) ≤ q := by
  induction h with
  | @operand u a hu => exact ⟨u, [], (List.append_nil u).symm, .operand hu, hrest⟩
  | @cons u a t v hu ht _ ih =>
    by_cases hq : q < G.prec t
    · obtain ⟨v, w, rfl, hv, hw⟩ := ih
      refine ⟨u ++ t :: v, w, ?_, .cons hu hq hv, hw⟩
      rw [List.append_assoc, List.cons_append]
    · exact ⟨u, t :: v, rfl, .operand hu, Nat.le_of_not_lt hq⟩

/-- At a higher threshold the parser consumes the beginning of the same tokens. -/
theorem climb_initial {n p q : Nat} (hpq : p ≤ q) {ts rest : List τ} {a : α} (hn : ts.length < n)
    (h : climb G n p ts = .ok (a, rest)) : ∃ b w, climb G n q ts = .ok (b, w ++ rest) := by
  obtain ⟨u, rfl, hderives, htop⟩ := climb_sound n p ts a rest h
  obtain ⟨v, w, rfl, hv, hw⟩ := hderives.chain.initial (Nat.le_trans htop hpq)
  rw [List.append_assoc] at hn ⊢
  obtain ⟨b, hb⟩ := (climb_ok_iff hn).mpr ⟨hv, hw⟩
  exact ⟨b, w, hb⟩

end CompilingToAssembly.Library.Climb
