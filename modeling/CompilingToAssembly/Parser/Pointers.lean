import CompilingToAssembly.Parser.Grammar

/-! The pointers of the tree, and when they outlive their buffer.

The parser starts with room for 100 nodes and hands out pointers into that buffer.
An append that finds it full moves the nodes, and a pointer taken before then
points into the buffer that was given up. The name of the first statement is in
the first buffer, so the pointers of the tree are all current when `parse` returns
iff the first buffer was never given up (`current_iff_generation`), that is, iff at
most 100 nodes were pushed. A statement pushes two nodes for each operand of its
value, which can be counted on the tokens (`Prog.pushedBy_eq`). -/
namespace CompilingToAssembly
open Library

variable {ν : Type}

/-- The pointers met from the `Block` at `root` on. -/
inductive Reachable (nodes : ArrayList (Ast ν)) (root : Pointer) : Pointer → Prop where
  | identifier {items identifier value} : nodes.deref root = some (.Block items) →
      .Var identifier value ∈ items → Reachable nodes root identifier
  | value {items identifier value} : nodes.deref root = some (.Block items) →
      .Var identifier value ∈ items → Reachable nodes root value
  | left {p op l r} : Reachable nodes root p → nodes.deref p = some (.BinaryOperator op l r) →
      Reachable nodes root l
  | right {p op l r} : Reachable nodes root p → nodes.deref p = some (.BinaryOperator op l r) →
      Reachable nodes root r

/-! ### What is reachable denotes -/

theorem isVar_of_mem {nodes : ArrayList (Ast ν)} {items : List (Ast ν)} {ss : List (Statement ν)}
    (h : List.Forall₂ (IsVar nodes) items ss) {node : Ast ν} (hn : node ∈ items) :
    ∃ s ∈ ss, IsVar nodes node s := by
  induction h with
  | nil => cases hn
  | cons hv _ ih =>
    rcases List.mem_cons.mp hn with rfl | hn
    · exact ⟨_, List.mem_cons_self .., hv⟩
    · obtain ⟨s, hs, hv⟩ := ih hn
      exact ⟨s, List.mem_cons_of_mem _ hs, hv⟩

theorem IsBlock.isVar {nodes : ArrayList (Ast ν)} {root : Pointer} {ss : List (Statement ν)}
    {items : List (Ast ν)} (h : IsBlock nodes root ss) (hd : nodes.deref root = some (.Block items)) :
    List.Forall₂ (IsVar nodes) items ss := by
  obtain ⟨items', hd', hvars⟩ := h
  rw [hd] at hd'
  cases hd'
  exact hvars

theorem Reachable.denotes {nodes : ArrayList (Ast ν)} {root p : Pointer} {ss : List (Statement ν)}
    (h : Reachable nodes root p) (hroot : IsBlock nodes root ss) : ∃ t, Denotes nodes p t := by
  have child {p : Pointer} {op : List UInt8} {l r : Pointer} (hd : ∃ t, Denotes nodes p t)
      (hp : nodes.deref p = some (.BinaryOperator op l r)) :
      (∃ t, Denotes nodes l t) ∧ ∃ t, Denotes nodes r t := by
    obtain ⟨t, ht⟩ := hd
    cases ht with
    | number _ hp' => rw [hp] at hp'; cases hp'
    | identifier _ hp' => rw [hp] at hp'; cases hp'
    | binary _ hp' hl hr =>
      rw [hp] at hp'
      cases hp'
      exact ⟨⟨_, hl⟩, ⟨_, hr⟩⟩
  induction h with
  | identifier hd hmem =>
    obtain ⟨s, _, ⟨hi, _⟩⟩ := isVar_of_mem (hroot.isVar hd) hmem
    exact ⟨_, hi⟩
  | value hd hmem =>
    obtain ⟨s, _, ⟨_, hv⟩⟩ := isVar_of_mem (hroot.isVar hd) hmem
    exact ⟨_, hv⟩
  | left _ hp ih => exact (child ih hp).1
  | right _ hp ih => exact (child ih hp).2

theorem root_current {input : List UInt8} {root : Pointer} {self : Parser (List UInt8)}
    (h : Chapter08.parse (Parser.init input) = .ok (root, self)) : self.nodes.Current root := by
  obtain ⟨_, _, _, _, hroot, _⟩ := Chapter08.program_of_parse h
  cases hroot
  rfl

/-- The list that holds the `Block` is in its first buffer iff at most 100 nodes were
pushed. -/
theorem generation_zero_iff {self : Parser (List UInt8)} {items : List (Ast (List UInt8))}
    {ss : List (Statement (List UInt8))} (h : Built self.nodes items ss) :
    (self.pushNode (.Block items)).2.nodes.generation = 0 ↔ pushedBy ss + 1 ≤ 100 := by
  have hfollows := Follows.pushNode self (.Block items)
  have hgen := ArrayList.generation_eq_zero_iff (hfollows.started h.started)
  rw [hfollows.length, h.length] at hgen
  exact hgen

/-- The pointers of a block are current iff the list never moved. -/
theorem current_iff_generation {self : Parser (List UInt8)} {items : List (Ast (List UInt8))}
    {ss : List (Statement (List UInt8))} (h : Built self.nodes items ss) :
    (∀ p, Reachable (self.pushNode (.Block items)).2.nodes (self.pushNode (.Block items)).1 p →
        (self.pushNode (.Block items)).2.nodes.Current p) ↔ pushedBy ss + 1 ≤ 100 := by
  have hblock := Chapter08.isBlock_pushNode h
  have hgen := generation_zero_iff h
  constructor
  · intro hcurrent
    cases items with
    | nil =>
      cases h.vars
      exact Nat.le_of_ble_eq_true rfl
    | cons node items =>
      obtain ⟨s, _, ⟨_, _⟩⟩ := isVar_of_mem h.vars (List.mem_cons_self ..)
      have hcur := hcurrent _ (.identifier (deref_pushNode ..) (List.mem_cons_self ..))
      exact hgen.mp (hcur.symm.trans (h.first _ rfl _ _ rfl).1)
  · intro hle p hp
    obtain ⟨t, ht⟩ := hp.denotes hblock
    have hzero := hgen.mpr hle
    have := ht.generation_le
    show p.generation = _
    omega

/-! ### Counting on the tokens -/

theorem Phrase.size_eq {k : Nonterminal} {u : List Lexeme} {t : Tree (List UInt8)} (h : Phrase k u t) :
    t.size + 1 = 2 * u.countP isWord := by
  induction h with
  | number => rfl
  | identifier => rfl
  | parens _ ih => simpa [isWord, punct] using ih
  | factor _ ih => exact ih
  | term _ ih => exact ih
  | product _ _ _ ihl ihr =>
    rw [Tree.size, List.countP_append, List.countP_cons_of_neg (by simp [isWord])]
    omega
  | sum _ _ _ ihl ihr =>
    rw [Tree.size, List.countP_append, List.countP_cons_of_neg (by simp [isWord])]
    omega

theorem Phrase.no_semicolon {k : Nonterminal} {u : List Lexeme} {t : Tree (List UInt8)}
    (h : Phrase k u t) : u.countP Descent.isSemicolon = 0 := by
  induction h with
  | number => rfl
  | identifier => rfl
  | parens _ ih => simpa [Descent.isSemicolon, punct] using ih
  | factor _ ih => exact ih
  | term _ ih => exact ih
  | product _ _ _ ihl ihr => simp [Descent.isSemicolon, ihl, ihr]
  | sum _ _ _ ihl ihr => simp [Descent.isSemicolon, ihl, ihr]

/-- The nodes a program pushes, from its tokens: two operands of each statement are
not in its value, the `var` and the name. -/
theorem Prog.pushedBy_eq {ls : List Lexeme} {ss : List (Statement (List UInt8))} (h : Prog ls ss) :
    pushedBy ss + 4 * ls.countP Descent.isSemicolon = 2 * ls.countP isWord := by
  induction h with
  | nil => rfl
  | @cons _ v s ss hs _ ih =>
    obtain ⟨ht⟩ := hs
    have hsize := ht.size_eq
    rename_i name u t
    have hops : (punct .Identifier "var" :: ⟨.Identifier, name⟩ :: punct .Operator "=" ::
        (u ++ [punct .Semicolon ";"])).countP isWord = u.countP isWord + 2 := by
      simp [isWord, punct]
    have hsemi : (punct .Identifier "var" :: ⟨.Identifier, name⟩ :: punct .Operator "=" ::
        (u ++ [punct .Semicolon ";"])).countP Descent.isSemicolon = 1 := by
      simp [Descent.isSemicolon, punct, ht.no_semicolon]
    rw [List.countP_append, List.countP_append, hops, hsemi]
    simp only [pushedBy, List.map_cons, List.sum_cons, Statement.size] at ih ⊢
    omega

/-- **The pointers of the tree are current iff the program has at most 49 operands.**
Every identifier and number token counts but two for each statement, its `var` and
its name; each operand costs two nodes and the `Block` one. -/
theorem pointers_current_iff {input : List UInt8} {root : Pointer} {self : Parser (List UInt8)}
    (h : Chapter08.parse (Parser.init input) = .ok (root, self)) :
    (∀ p, Reachable self.nodes root p → self.nodes.Current p) ↔
      (lexemes input).countP isWord ≤ 2 * (lexemes input).countP Descent.isSemicolon + 49 := by
  obtain ⟨ss, items, after, hss, hroot, hbuilt⟩ := Chapter08.program_of_parse h
  cases hroot
  have hcount := ((prog_iff (lexical_lexemes input)).mpr hss).pushedBy_eq
  refine (current_iff_generation hbuilt).trans ?_
  omega

theorem pointers_current_two : ∃ root self,
    Chapter08.parse (Parser.init (ascii "var a = 3 + 4 * 5; var b = (a - 1) / 2;")) = .ok (root, self) ∧
      ∀ p, Reachable self.nodes root p → self.nodes.Current p := by
  obtain ⟨root, self, h⟩ :=
    Chapter08.exists_parse (ascii "var a = 3 + 4 * 5; var b = (a - 1) / 2;") (by decide +kernel)
  exact ⟨root, self, h, (pointers_current_iff h).mpr (by decide +kernel)⟩

/-- `var a = 1 + 1 + ... + 1;` with 50 operands. -/
def fiftyOnes : List UInt8 :=
  ascii "var a = 1" ++ (List.replicate 49 (ascii " + 1")).flatten ++ ascii ";"

/-- The first name of a `Block` is in the current buffer. -/
def nameCurrent (nodes : ArrayList (Ast (List UInt8))) : Ast (List UInt8) → Bool
  | .Block (.Var identifier _ :: _) => identifier.generation == nodes.generation
  | _ => true

theorem exists_of_not_nameCurrent {nodes : ArrayList (Ast (List UInt8))} {node : Ast (List UInt8)}
    (h : nameCurrent nodes node = false) : ∃ identifier value items,
      node = .Block (.Var identifier value :: items) ∧ identifier.generation ≠ nodes.generation := by
  unfold nameCurrent at h
  split at h
  · exact ⟨_, _, _, rfl, by simpa using h⟩
  · cases h

/-- The name of the statement is left in the buffer that was given up. -/
theorem pointer_moved_fiftyOnes : ∃ root self p,
    Chapter08.parse (Parser.init fiftyOnes) = .ok (root, self) ∧
      Reachable self.nodes root p ∧ ¬ self.nodes.Current p := by
  have hrun : (Chapter08.parse (Parser.init fiftyOnes)).toOption.any (fun r =>
      (r.2.nodes.deref r.1).any fun node => !nameCurrent r.2.nodes node) = true := by decide +kernel
  obtain ⟨root, self, hparse⟩ := Chapter08.exists_parse fiftyOnes (by decide +kernel)
  rw [hparse] at hrun
  obtain ⟨node, hroot, hnode⟩ := (Option.any_eq_true _ (self.nodes.deref root)).mp hrun
  have hnode : nameCurrent self.nodes node = false := by simpa using hnode
  obtain ⟨identifier, value, items, rfl, hne⟩ := exists_of_not_nameCurrent hnode
  exact ⟨root, self, identifier, hparse, .identifier hroot (List.mem_cons_self ..), hne⟩

end CompilingToAssembly
