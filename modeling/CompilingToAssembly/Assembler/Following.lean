import CompilingToAssembly.Assembler.Generator

/-! Which pointers the generator follows.

It follows the pointer to the root, the one to each statement's value and, below an
addition, those to both operands; what is below another operator it never comes to.
A generator that may only follow current pointers does what one does that follows
them all, or it stops at one that dangles (`assembler_checked_or`), and it completes
only where every pointer it follows is current (`current_of_assembler_checked`). -/
namespace CompilingToAssembly
open Library

/-- The pointers `asmExpression` follows from `p` on. -/
inductive FollowedFrom (nodes : ArrayList (Ast (List UInt8))) : Pointer → Pointer → Prop where
  | here {p} : FollowedFrom nodes p p
  | left {p l r q} : nodes.deref p = some (.BinaryOperator (ascii "+") l r) → FollowedFrom nodes l q →
      FollowedFrom nodes p q
  | right {p l r q} : nodes.deref p = some (.BinaryOperator (ascii "+") l r) → FollowedFrom nodes r q →
      FollowedFrom nodes p q

/-- The pointers `assembler` follows from the root on. -/
inductive Followed (nodes : ArrayList (Ast (List UInt8))) (root : Pointer) : Pointer → Prop where
  | root : Followed nodes root root
  | value {items identifier value q} : nodes.deref root = some (.Block items) →
      .Var identifier value ∈ items → FollowedFrom nodes value q → Followed nodes root q

theorem FollowedFrom.grows {nodes nodes' : ArrayList (Ast (List UInt8))} {p q : Pointer}
    (h : FollowedFrom nodes p q) (hg : nodes.Grows nodes') : FollowedFrom nodes' p q := by
  induction h with
  | here => exact .here
  | left hd _ ih => exact .left (hg.deref hd) ih
  | right hd _ ih => exact .right (hg.deref hd) ih

section
variable {nodes : ArrayList (Ast (List UInt8))}

/-! ### Expressions -/

theorem asmAdd_or {f g : List UInt8 → Pointer → Except Fault (List UInt8)}
    (h : ∀ list p, f list p = g list p ∨ f list p = .error .dangling) (list : List UInt8)
    (node : Ast (List UInt8)) :
    asmAdd f list node = asmAdd g list node ∨ asmAdd f list node = .error .dangling := by
  cases node with
  | BinaryOperator op l r =>
    simp only [asmAdd]
    rcases h list l with hl | hl
    · rw [hl]
      cases g list l with
      | error e => exact .inl rfl
      | ok mid =>
        rcases h (mid ++ ascii "\tmov x1, x0\n") r with hr | hr
        · exact .inl (by simp only [hr])
        · exact .inr (by simp only [hr])
    · exact .inr (by rw [hl])
  | _ => exact .inl rfl

theorem asmExpression_checked_or (n : Nat) (list : List UInt8) (p : Pointer) :
    asmExpression .checked nodes n list p = asmExpression .granted nodes n list p ∨
      asmExpression .checked nodes n list p = .error .dangling := by
  induction n generalizing list p with
  | zero => exact .inl rfl
  | succ n ih =>
    by_cases hp : nodes.Current p
    · simp only [asmExpression, ArrayList.follow_of_current _ hp]
      cases nodes.deref p with
      | none => exact .inl rfl
      | some node =>
        cases node with
        | BinaryOperator op l r =>
          simp only
          split
          · exact asmAdd_or ih list _
          · exact .inl rfl
        | _ => exact .inl rfl
    · exact .inr (by simp only [asmExpression, ArrayList.follow_checked_of_stale hp])

/-- Where the pointers from `p` on are current, the two ways to follow them are one. -/
theorem asmExpression_checked_of_current {p : Pointer} (h : ∀ q, FollowedFrom nodes p q → nodes.Current q)
    (n : Nat) (list : List UInt8) :
    asmExpression .checked nodes n list p = asmExpression .granted nodes n list p := by
  induction n generalizing list p with
  | zero => rfl
  | succ n ih =>
    simp only [asmExpression, ArrayList.follow_of_current _ (h p .here)]
    cases hd : nodes.deref p with
    | none => rfl
    | some node =>
      cases node with
      | BinaryOperator op l r =>
        simp only
        split
        next hop =>
          obtain rfl := eq_of_beq hop
          have hl := ih fun q hq => h q (.left hd hq)
          have hr := ih fun q hq => h q (.right hd hq)
          simp only [asmAdd, hl, hr]
        next => rfl
      | _ => rfl

theorem current_of_asmExpression {n : Nat} {list out : List UInt8} {p : Pointer}
    (h : asmExpression .checked nodes n list p = .ok out) : ∀ q, FollowedFrom nodes p q → nodes.Current q := by
  induction n generalizing list out p with
  | zero => cases h
  | succ n ih =>
    have hp : nodes.Current p := by
      by_contra hp
      simp only [asmExpression, ArrayList.follow_checked_of_stale hp] at h
      cases h
    -- a pointer below an addition was followed from one of its operands
    have hbelow {l r : Pointer} (hd : nodes.deref p = some (.BinaryOperator (ascii "+") l r)) :
        (∀ q, FollowedFrom nodes l q → nodes.Current q) ∧ ∀ q, FollowedFrom nodes r q → nodes.Current q := by
      simp only [asmExpression, ArrayList.follow_of_current _ hp, hd, beq_self_eq_true, if_true, asmAdd] at h
      cases hl : asmExpression .checked nodes n list l with
      | error e => rw [hl] at h; cases h
      | ok mid =>
        rw [hl] at h
        simp only at h
        cases hr : asmExpression .checked nodes n (mid ++ ascii "\tmov x1, x0\n") r with
        | error e => rw [hr] at h; cases h
        | ok last => exact ⟨ih hl, ih hr⟩
    intro q hq
    cases hq with
    | here => exact hp
    | left hd hq => exact (hbelow hd).1 q hq
    | right hd hq => exact (hbelow hd).2 q hq

/-! ### Statements -/

theorem asmItems_checked_or (list : List UInt8) (items : List (Ast (List UInt8))) :
    asmItems .checked nodes list items = asmItems .granted nodes list items ∨
      asmItems .checked nodes list items = .error .dangling := by
  induction items generalizing list with
  | nil => exact .inl rfl
  | cons node items ih =>
    cases node with
    | Var identifier value =>
      simp only [asmItems, asmStatement]
      rcases asmExpression_checked_or nodes.items.length list value with he | he
      · rw [he]
        cases asmExpression .granted nodes nodes.items.length list value with
        | error e => exact .inl rfl
        | ok mid => exact ih mid
      · exact .inr (by rw [he])
    | _ => exact ih list

theorem asmItems_checked_of_current {items : List (Ast (List UInt8))}
    (h : ∀ identifier value, .Var identifier value ∈ items →
      ∀ q, FollowedFrom nodes value q → nodes.Current q) (list : List UInt8) :
    asmItems .checked nodes list items = asmItems .granted nodes list items := by
  induction items generalizing list with
  | nil => rfl
  | cons node items ih =>
    have hrest := ih fun identifier value hmem => h identifier value (List.mem_cons_of_mem _ hmem)
    cases node with
    | Var identifier value =>
      have hvalue := asmExpression_checked_of_current (h identifier value (List.mem_cons_self ..))
      simp only [asmItems, asmStatement, hvalue, hrest]
    | _ => simp only [asmItems, hrest]

theorem current_of_asmItems {list out : List UInt8} {items : List (Ast (List UInt8))}
    (h : asmItems .checked nodes list items = .ok out) {identifier value : Pointer}
    (hmem : .Var identifier value ∈ items) : ∀ q, FollowedFrom nodes value q → nodes.Current q := by
  induction items generalizing list with
  | nil => cases hmem
  | cons node items ih =>
    rcases List.mem_cons.mp hmem with rfl | hin
    · simp only [asmItems, asmStatement] at h
      cases he : asmExpression .checked nodes nodes.items.length list value with
      | error e => rw [he] at h; cases h
      | ok mid => exact current_of_asmExpression he
    · cases node with
      | Var identifier' value' =>
        simp only [asmItems, asmStatement] at h
        cases he : asmExpression .checked nodes nodes.items.length list value' with
        | error e => rw [he] at h; cases h
        | ok mid =>
          rw [he] at h
          exact ih h hin
      | _ => exact ih h hin

end

/-! ### Programs -/

/-- **Following only what is current** is following everything, or stopping at a pointer
that dangles. -/
theorem assembler_checked_or (parser : Parser (List UInt8)) :
    assembler .checked parser = assembler .granted parser ∨
      assembler .checked parser = .error (.fault .dangling) := by
  unfold assembler
  cases Chapter08.parse parser with
  | error e => exact .inl rfl
  | ok r =>
    obtain ⟨root, self⟩ := r
    simp only
    by_cases hroot : self.nodes.Current root
    · rw [ArrayList.follow_of_current _ hroot, ArrayList.follow_of_current _ hroot]
      cases self.nodes.deref root with
      | none => exact .inl rfl
      | some node =>
        cases node with
        | Block items =>
          simp only
          rcases @asmItems_checked_or self.nodes prologue items with hi | hi
          · exact .inl (by rw [hi])
          · exact .inr (by rw [hi])
        | _ => exact .inl rfl
    · rw [ArrayList.follow_checked_of_stale hroot]
      exact .inr rfl

theorem assembler_granted_of_ok {access : Access} {parser : Parser (List UInt8)} {out : Output}
    (h : assembler access parser = .ok out) : assembler .granted parser = .ok out := by
  cases access with
  | granted => exact h
  | checked =>
    rcases assembler_checked_or parser with hsame | hdangling
    · rw [← hsame]
      exact h
    · rw [hdangling] at h
      cases h

theorem assembler_checked_of_current {parser self : Parser (List UInt8)} {root : Pointer}
    (hparse : Chapter08.parse parser = .ok (root, self))
    (h : ∀ p, Followed self.nodes root p → self.nodes.Current p) :
    assembler .checked parser = assembler .granted parser := by
  unfold assembler
  rw [hparse]
  simp only [ArrayList.follow_of_current _ (h root .root)]
  cases hd : self.nodes.deref root with
  | none => rfl
  | some node =>
    cases node with
    | Block items =>
      simp only
      rw [asmItems_checked_of_current fun _ _ hmem q hq => h q (.value hd hmem hq)]
    | _ => rfl

/-- What completes has followed current pointers alone. -/
theorem current_of_assembler_checked {parser self : Parser (List UInt8)} {root : Pointer} {out : Output}
    (hparse : Chapter08.parse parser = .ok (root, self)) (h : assembler .checked parser = .ok out) :
    ∀ p, Followed self.nodes root p → self.nodes.Current p := by
  unfold assembler at h
  rw [hparse] at h
  simp only at h
  have hroot : self.nodes.Current root := by
    by_contra hroot
    rw [ArrayList.follow_checked_of_stale hroot] at h
    cases h
  rw [ArrayList.follow_of_current _ hroot] at h
  intro p hp
  cases hp with
  | root => exact hroot
  | value hd hmem hq =>
    rw [hd] at h
    simp only at h
    cases hi : asmItems .checked self.nodes prologue _ with
    | error e => rw [hi] at h; cases h
    | ok list => exact current_of_asmItems hi hmem _ hq

end CompilingToAssembly
