import CompilingToAssembly.Assembler.Lines
import CompilingToAssembly.Parser.Pointers

/-! Where the generator follows the parser and where it does not.

The parser builds trees of numbers, identifiers and four operators. The generator
has code for numbers and for `+`. It stops at an identifier that it comes to and at
a pointer into a buffer that was given up (`assembler_completes_iff`), and it passes
over an operator it has no code for, with everything below it
(`nothing_dropped_iff`). -/
namespace CompilingToAssembly
open Library

/-! ### Identifiers -/

/-- An identifier is reached from the root through additions alone. -/
inductive ExposesIdentifier : Tree (List UInt8) → Prop where
  | here {name} : ExposesIdentifier (.identifier name)
  | left {l r} : ExposesIdentifier l → ExposesIdentifier (.binary (ascii "+") l r)
  | right {l r} : ExposesIdentifier r → ExposesIdentifier (.binary (ascii "+") l r)

theorem stuck_iff (t : Tree (List UInt8)) : t.stuck = true ↔ ExposesIdentifier t := by
  induction t with
  | number n => exact ⟨fun h => (nomatch h), fun h => (nomatch h)⟩
  | identifier name => exact ⟨fun _ => .here, fun _ => rfl⟩
  | binary op l r ihl ihr =>
    simp only [Tree.stuck, Bool.and_eq_true, Bool.or_eq_true, beq_iff_eq, ihl, ihr]
    constructor
    · rintro ⟨rfl, hl | hr⟩
      · exact .left hl
      · exact .right hr
    · intro h
      cases h with
      | left hl => exact ⟨rfl, .inl hl⟩
      | right hr => exact ⟨rfl, .inr hr⟩

theorem stuckIn_iff {ss : List (Statement (List UInt8))} :
    stuckIn ss = true ↔ ∃ s ∈ ss, ExposesIdentifier s.value := by
  simp only [stuckIn, List.any_eq_true, stuck_iff]

/-- Some statement of the program, as the grammar derives it from the text, exposes an
identifier in its value. -/
def ExposesInput (input : List UInt8) : Prop :=
  ∃ ss, Prog (lexemes input) ss ∧ ∃ s ∈ ss, ExposesIdentifier s.value

theorem exposesInput_iff {input : List UInt8} {ss : List (Statement (List UInt8))}
    (h : Descent.Program chapter08 (lexemes input) ss) : ExposesInput input ↔ stuckIn ss = true := by
  have hlex := lexical_lexemes input
  rw [stuckIn_iff]
  constructor
  · rintro ⟨ss', hss', hs⟩
    rw [← ((prog_iff hlex).mp hss').unique h]
    exact hs
  · exact fun hs => ⟨ss, (prog_iff hlex).mpr h, hs⟩

/-! ### The pointers on the way -/

theorem FollowedFrom.reachable {nodes : ArrayList (Ast (List UInt8))} {root p q : Pointer}
    (h : FollowedFrom nodes p q) (hp : Reachable nodes root p) : Reachable nodes root q := by
  induction h with
  | here => exact hp
  | left hd _ ih => exact ih (.left hp hd)
  | right hd _ ih => exact ih (.right hp hd)

/-- A program of at most 49 operands has every pointer current that is followed. -/
theorem followed_current {input : List UInt8} {root : Pointer} {self : Parser (List UInt8)}
    (h : Chapter08.parse (Parser.init input) = .ok (root, self))
    (hfew : (lexemes input).countP isWord ≤ 2 * (lexemes input).countP Descent.isSemicolon + 49) :
    ∀ p, Followed self.nodes root p → self.nodes.Current p := by
  have hreachable : ∀ p, Reachable self.nodes root p → self.nodes.Current p := by
    obtain ⟨ss, items, after, hss, hroot, hbuilt⟩ := Chapter08.program_of_parse h
    have hcount := ((prog_iff (lexical_lexemes input)).mpr hss).pushedBy_eq
    cases hroot
    exact (current_iff_generation hbuilt).mpr (by omega)
  intro p hp
  cases hp with
  | root => exact root_current h
  | value hd hmem hq => exact hreachable p (hq.reachable (.value hd hmem))

/-- **The generator completes iff it comes to no identifier and every pointer it follows
is current.** For an accepted input it writes a file in that case. Where the pointers are
current and a value exposes an identifier it reaches `unreachable`, and where a pointer is
stale it stops there or at an identifier before. Up to 49 operands all are current. -/
theorem assembler_completes_iff {input : List UInt8} {root : Pointer} {self : Parser (List UInt8)}
    (h : Chapter08.parse (Parser.init input) = .ok (root, self)) :
    ((∃ text, assembler .checked (Parser.init input) = .ok (.file text)) ↔
        (∀ p, Followed self.nodes root p → self.nodes.Current p) ∧ ¬ ExposesInput input) ∧
      ((∀ p, Followed self.nodes root p → self.nodes.Current p) → ExposesInput input →
        assembler .checked (Parser.init input) = .error (.fault .unreachable)) ∧
      ((∃ p, Followed self.nodes root p ∧ ¬ self.nodes.Current p) →
        assembler .checked (Parser.init input) = .error (.fault .dangling) ∨
          assembler .checked (Parser.init input) = .error (.fault .unreachable)) ∧
      ((lexemes input).countP isWord ≤ 2 * (lexemes input).countP Descent.isSemicolon + 49 →
        ∀ p, Followed self.nodes root p → self.nodes.Current p) := by
  obtain ⟨ss, _, _, hss, _⟩ := Chapter08.program_of_parse h
  have hgranted := assembler_program hss
  have hexposes := exposesInput_iff hss
  refine ⟨⟨?_, ?_⟩, ?_, ?_, followed_current h⟩
  · rintro ⟨text, htext⟩
    refine ⟨current_of_assembler_checked h htext, fun hex => ?_⟩
    have := assembler_granted_of_ok htext
    rw [hgranted, if_pos (hexposes.mp hex)] at this
    cases this
  · rintro ⟨hcurrent, hno⟩
    rw [assembler_checked_of_current h hcurrent, hgranted, if_neg (mt hexposes.mpr hno)]
    exact ⟨_, rfl⟩
  · intro hcurrent hex
    rw [assembler_checked_of_current h hcurrent, hgranted, if_pos (hexposes.mp hex)]
  · rintro ⟨p, hp, hstale⟩
    rcases assembler_checked_or (Parser.init input) with hsame | hdangling
    · rw [hgranted] at hsame
      split at hsame
      · exact .inr hsame
      · exact absurd (current_of_assembler_checked h hsame p hp) hstale
    · exact .inl hdangling

/-- Two statements, a sum and a difference whose identifier is never come to. -/
theorem assembler_completes_two :
    (∃ root self, Chapter08.parse (Parser.init (ascii "var x = 1 + 2 + 3; var y = 4 - x;")) = .ok (root, self)) ∧
      ∃ text, assembler .checked (Parser.init (ascii "var x = 1 + 2 + 3; var y = 4 - x;")) = .ok (.file text) := by
  have hrun : Descent.program chapter08 35 35 (lexemes (ascii "var x = 1 + 2 + 3; var y = 4 - x;")) =
      .ok [⟨ascii "x", .binary (ascii "+") (.binary (ascii "+") (.number (ascii "1")) (.number (ascii "2")))
          (.number (ascii "3"))⟩,
        ⟨ascii "y", .binary (ascii "-") (.number (ascii "4")) (.identifier (ascii "x"))⟩] := by decide +kernel
  obtain ⟨root, self, h, _⟩ := Chapter08.exists_block (ascii "var x = 1 + 2 + 3; var y = 4 - x;") _ hrun
  have hall := assembler_completes_iff h
  refine ⟨⟨root, self, h⟩, hall.1.mpr ⟨hall.2.2.2 (by decide +kernel), ?_⟩⟩
  rw [exposesInput_iff (Descent.program_sound hrun)]
  decide

/-- `var x = a;` is accepted and reaches `unreachable`. -/
theorem assembler_unreachable_identifier :
    (∃ root self, Chapter08.parse (Parser.init (ascii "var x = a;")) = .ok (root, self)) ∧
      assembler .checked (Parser.init (ascii "var x = a;")) = .error (.fault .unreachable) :=
  ⟨Chapter08.exists_parse _ (by decide +kernel), by decide +kernel⟩

/-! ### Operators -/

/-- The identifiers of a tree. -/
def Tree.names : Tree (List UInt8) → List (List UInt8)
  | .number _ => []
  | .identifier name => [name]
  | .binary _ left right => left.names ++ right.names

/-- The operators of a tree, one for each node that has one. -/
def Tree.ops : Tree (List UInt8) → List (List UInt8)
  | .number _ => []
  | .identifier _ => []
  | .binary op left right => left.ops ++ op :: right.ops

/-- The instruction that computes an operator. -/
def arithOf (op : List UInt8) : Option Arm64.Arith :=
  if op == ascii "+" then some .add
  else if op == ascii "-" then some .sub
  else if op == ascii "*" then some .mul
  else if op == ascii "/" then some .sdiv
  else none

/-- The immediates that code moves into `x0`. -/
def immediates (code : List Arm64.Instr) : List Int :=
  code.filterMap fun i => match i with
    | .movImm 0 imm => some imm
    | _ => none

/-- The arithmetic that code does. -/
def ariths (code : List Arm64.Instr) : List Arm64.Arith :=
  code.filterMap fun i => match i with
    | .arith op _ _ _ => some op
    | _ => none

/-- The code has one immediate for each number, in order, and one instruction for each
operator. -/
structure Covers (code : List Arm64.Instr) (t : Tree (List UInt8)) : Prop where
  numbers : immediates code = t.numerals.map fun n => (decimal n : Int)
  operators : ((ariths code).map some).Perm (t.ops.map arithOf)

/-- The file has the code of every statement, in order, between prologue and epilogue. -/
def CoversAll (text : List UInt8) (ss : List (Statement (List UInt8))) : Prop :=
  ∃ chunks, Arm64.codeAt (ascii "main") text = some (mainCode chunks.flatten) ∧
    List.Forall₂ (fun chunk s => Covers chunk s.value) chunks ss

/-! ### What the lines of a tree cover -/

def Tree.code (t : Tree (List UInt8)) : List Arm64.Instr := t.lines.map Line.instr

theorem code_add (l r : Tree (List UInt8)) :
    (Tree.binary (ascii "+") l r).code = l.code ++ .mov 1 0 :: (r.code ++ [.arith .add 0 0 1]) := by
  simp [Tree.code, Tree.lines, Line.instr]

theorem code_other {op : List UInt8} (h : op ≠ ascii "+") (l r : Tree (List UInt8)) :
    (Tree.binary op l r).code = [] := by
  simp [Tree.code, Tree.lines, h]

theorem immediates_append (a b : List Arm64.Instr) :
    immediates (a ++ b) = immediates a ++ immediates b := List.filterMap_append ..

theorem ariths_append (a b : List Arm64.Instr) : ariths (a ++ b) = ariths a ++ ariths b :=
  List.filterMap_append ..

theorem immediates_add (l r : Tree (List UInt8)) :
    immediates (Tree.binary (ascii "+") l r).code = immediates l.code ++ immediates r.code := by
  rw [code_add, immediates_append]
  show _ ++ immediates (r.code ++ [.arith .add 0 0 1]) = _
  rw [immediates_append]
  show _ ++ (immediates r.code ++ []) = _
  rw [List.append_nil]

theorem ariths_add (l r : Tree (List UInt8)) :
    ariths (Tree.binary (ascii "+") l r).code = ariths l.code ++ (ariths r.code ++ [.add]) := by
  rw [code_add, ariths_append]
  show _ ++ ariths (r.code ++ [.arith .add 0 0 1]) = _
  rw [ariths_append]
  rfl

/-- A tree of additions is covered. -/
theorem covers_of_additions {t : Tree (List UInt8)} (hnames : t.names = [])
    (hops : ∀ op ∈ t.ops, op = ascii "+") : Covers t.code t := by
  induction t with
  | number n => exact ⟨rfl, .refl _⟩
  | identifier name => cases hnames
  | binary op l r ihl ihr =>
    obtain ⟨hl, hr⟩ := List.append_eq_nil_iff.mp hnames
    obtain rfl : op = ascii "+" := hops op (by simp [Tree.ops])
    have hcl := ihl hl fun op hop => hops op (by simp [Tree.ops, hop])
    have hcr := ihr hr fun op hop => hops op (by simp [Tree.ops, hop])
    constructor
    · rw [immediates_add, hcl.numbers, hcr.numbers, Tree.numerals, List.map_append]
    · rw [ariths_add, Tree.ops, List.map_append, List.map_append, List.map_append, List.map_cons]
      refine List.Perm.append hcl.operators ?_
      exact (List.perm_append_singleton _ _).trans (List.Perm.cons _ hcr.operators)

theorem numerals_pos {t : Tree (List UInt8)} (h : t.names = []) : 0 < t.numerals.length := by
  induction t with
  | number n => exact Nat.one_pos
  | identifier name => cases h
  | binary op l r ihl _ =>
    have := ihl (List.append_eq_nil_iff.mp h).1
    rw [Tree.numerals, List.length_append]
    omega

/-- No more immediates than numbers, and fewer where an operator is passed over. -/
theorem immediates_length {t : Tree (List UInt8)} (h : t.names = []) :
    (immediates t.code).length ≤ t.numerals.length ∧
      ((immediates t.code).length = t.numerals.length → ∀ op ∈ t.ops, op = ascii "+") := by
  induction t with
  | number n => exact ⟨Nat.le_refl _, fun _ op hop => (nomatch hop)⟩
  | identifier name => cases h
  | binary op l r ihl ihr =>
    obtain ⟨hl, hr⟩ := List.append_eq_nil_iff.mp h
    obtain ⟨hlle, hleq⟩ := ihl hl
    obtain ⟨hrle, hreq⟩ := ihr hr
    rw [Tree.numerals, List.length_append]
    by_cases hop : op = ascii "+"
    · subst hop
      rw [immediates_add, List.length_append]
      refine ⟨by omega, fun heq op hmem => ?_⟩
      rcases List.mem_append.mp hmem with hmem | hmem
      · exact hleq (by omega) op hmem
      · rcases List.mem_cons.mp hmem with rfl | hmem
        · rfl
        · exact hreq (by omega) op hmem
    · have hpos := numerals_pos hl
      rw [code_other hop]
      show 0 ≤ _ ∧ (0 = _ → _)
      exact ⟨Nat.zero_le _, fun heq => by omega⟩

/-! ### Programs -/

theorem code_linesOf (ss : List (Statement (List UInt8))) :
    (linesOf ss).map Line.instr = (ss.map fun s => s.value.code).flatten := by
  rw [linesOf, List.map_flatMap, List.flatMap_def]
  rfl

theorem mainCode_inj {a b : List Arm64.Instr} (h : mainCode a = mainCode b) : a = b :=
  List.append_cancel_right (List.cons.inj h).2

/-- The numbers of all statements, counted. -/
def numberCount (ss : List (Statement (List UInt8))) : Nat :=
  (ss.map fun s => s.value.numerals.length).sum

theorem covers_count {chunks : List (List Arm64.Instr)} {ss : List (Statement (List UInt8))}
    (h : List.Forall₂ (fun chunk s => Covers chunk s.value) chunks ss) :
    (immediates chunks.flatten).length = numberCount ss := by
  induction h with
  | nil => rfl
  | cons hc _ ih =>
    rw [List.flatten_cons, immediates_append, List.length_append, ih, hc.numbers, List.length_map]
    rfl

theorem code_count {ss : List (Statement (List UInt8))} (h : ∀ s ∈ ss, s.value.names = []) :
    (immediates (ss.map fun s => s.value.code).flatten).length ≤ numberCount ss ∧
      ((immediates (ss.map fun s => s.value.code).flatten).length = numberCount ss →
        ∀ s ∈ ss, ∀ op ∈ s.value.ops, op = ascii "+") := by
  induction ss with
  | nil => exact ⟨Nat.le_refl _, fun _ s hs => (nomatch hs)⟩
  | cons s ss ih =>
    obtain ⟨hle, heq⟩ := ih fun s' hs' => h s' (List.mem_cons_of_mem _ hs')
    obtain ⟨hsle, hseq⟩ := immediates_length (h s (List.mem_cons_self ..))
    have hcount : numberCount (s :: ss) = s.value.numerals.length + numberCount ss := rfl
    rw [List.map_cons, List.flatten_cons, immediates_append, List.length_append, hcount]
    refine ⟨by omega, fun hall s' hs' => ?_⟩
    rcases List.mem_cons.mp hs' with rfl | hs'
    · exact hseq (by omega)
    · exact heq (by omega) s' hs'

/-- The file covers the statements iff they only add. -/
theorem coversAll_iff {input : List UInt8} {ss : List (Statement (List UInt8))}
    (h : Prog (lexemes input) ss) (hnames : ∀ s ∈ ss, s.value.names = []) :
    CoversAll (prologue ++ textOf (linesOf ss) ++ epilogue) ss ↔
      ∀ s ∈ ss, ∀ op ∈ s.value.ops, op = ascii "+" := by
  have hcode := codeAt_main (h.lines_valid (lexical_lexemes input))
  rw [code_linesOf] at hcode
  constructor
  · rintro ⟨chunks, hchunks, hcovers⟩
    rw [hcode, Option.some.injEq] at hchunks
    have hcount := covers_count hcovers
    rw [← mainCode_inj hchunks] at hcount
    exact (code_count hnames).2 hcount
  · intro hops
    refine ⟨ss.map fun s => s.value.code, hcode, ?_⟩
    rw [List.forall₂_map_left_iff, List.forall₂_same]
    exact fun s hs => covers_of_additions (hnames s hs) (hops s hs)

theorem not_stuck_of_names {t : Tree (List UInt8)} (h : t.names = []) : t.stuck = false := by
  induction t with
  | number n => rfl
  | identifier name => cases h
  | binary op l r ihl ihr =>
    obtain ⟨hl, hr⟩ := List.append_eq_nil_iff.mp h
    simp [Tree.stuck, ihl hl, ihr hr]

/-! ### Operators on the tokens -/

theorem Phrase.ops_eq {k : Nonterminal} {u : List Lexeme} {t : Tree (List UInt8)} (h : Phrase k u t) :
    (u.filter fun l => l.kind == .Operator).map Lexeme.text = t.ops := by
  induction h with
  | number => rfl
  | identifier => rfl
  | parens _ ih => simpa [punct] using ih
  | factor _ ih => exact ih
  | term _ ih => exact ih
  | product _ _ _ ihl ihr => simp [Tree.ops, ← ihl, ← ihr]
  | sum _ _ _ ihl ihr => simp [Tree.ops, ← ihl, ← ihr]

theorem Phrase.ops_ne_equals {k : Nonterminal} {u : List Lexeme} {t : Tree (List UInt8)}
    (h : Phrase k u t) : ascii "=" ∉ t.ops := by
  induction h with
  | number => exact List.not_mem_nil
  | identifier => exact List.not_mem_nil
  | parens _ ih => exact ih
  | factor _ ih => exact ih
  | term _ ih => exact ih
  | product hop _ _ ihl ihr =>
    simp only [Tree.ops, List.mem_append, List.mem_cons, ihl, ihr, or_false, false_or]
    rcases hop with rfl | rfl <;> decide
  | sum hop _ _ ihl ihr =>
    simp only [Tree.ops, List.mem_append, List.mem_cons, ihl, ihr, or_false, false_or]
    rcases hop with rfl | rfl <;> decide

/-- The operator tokens are `+` and `=` alone. -/
def OnlyAdds (ls : List Lexeme) : Prop :=
  ∀ l ∈ ls, l.kind = .Operator → l.text = ascii "+" ∨ l.text = ascii "="

theorem Stmt.onlyAdds_iff {u : List Lexeme} {s : Statement (List UInt8)} (h : Stmt u s) :
    OnlyAdds u ↔ ∀ op ∈ s.value.ops, op = ascii "+" := by
  obtain @⟨name, u, t, ht⟩ := h
  have hmem (op : List UInt8) : op ∈ t.ops ↔ ∃ l ∈ u, l.kind = .Operator ∧ l.text = op := by
    rw [← ht.ops_eq]
    simp [and_assoc]
  constructor
  · intro honly op hop
    obtain ⟨l, hl, hk, rfl⟩ := (hmem op).mp hop
    refine (honly l ?_ hk).resolve_right fun heq => ?_
    · simp [hl]
    · rw [heq] at hop
      exact ht.ops_ne_equals hop
  · intro hops l hl hk
    simp only [List.mem_cons, List.mem_append, List.not_mem_nil, or_false] at hl
    rcases hl with rfl | rfl | rfl | hl | rfl
    · cases hk
    · cases hk
    · exact .inr rfl
    · exact .inl (hops _ ((hmem _).mpr ⟨l, hl, hk, rfl⟩))
    · cases hk

theorem Prog.onlyAdds_iff {ls : List Lexeme} {ss : List (Statement (List UInt8))} (h : Prog ls ss) :
    OnlyAdds ls ↔ ∀ s ∈ ss, ∀ op ∈ s.value.ops, op = ascii "+" := by
  induction h with
  | nil => exact ⟨fun _ s hs => (nomatch hs), fun _ l hl => (nomatch hl)⟩
  | @cons u v s ss hs _ ih =>
    have hsplit : OnlyAdds (u ++ v) ↔ OnlyAdds u ∧ OnlyAdds v := List.forall_mem_append
    rw [hsplit, hs.onlyAdds_iff, ih, List.forall_mem_cons]

/-! ### Additions are followed to the first operand -/

theorem Leftmost.followedFrom {nodes : ArrayList (Ast (List UInt8))} {p q : Pointer}
    {t : Tree (List UInt8)} (h : Leftmost nodes p q) (ht : Denotes nodes p t)
    (hops : ∀ op ∈ t.ops, op = ascii "+") : FollowedFrom nodes p q := by
  induction h generalizing t with
  | refl => exact .here
  | left hd _ ih =>
    cases ht with
    | number _ hd' => rw [hd] at hd'; cases hd'
    | identifier _ hd' => rw [hd] at hd'; cases hd'
    | binary _ hd' hl hr =>
      rw [hd] at hd'
      cases hd'
      obtain rfl := hops _ (List.mem_append_right _ (List.mem_cons_self ..))
      exact .left hd (ih hl fun op hop => hops op (List.mem_append_left _ hop))

/-- Where a program only adds, the pointers it has followed are current iff it has at most
49 operands: its very first operand is followed. -/
theorem followed_current_iff {input : List UInt8} {root : Pointer} {self : Parser (List UInt8)}
    (h : Chapter08.parse (Parser.init input) = .ok (root, self)) (hadds : OnlyAdds (lexemes input)) :
    (∀ p, Followed self.nodes root p → self.nodes.Current p) ↔
      (lexemes input).countP isWord ≤ 2 * (lexemes input).countP Descent.isSemicolon + 49 := by
  refine ⟨fun hcurrent => ?_, followed_current h⟩
  obtain ⟨ss, items, after, hss, hroot, hbuilt⟩ := Chapter08.program_of_parse h
  have hprog := (prog_iff (lexical_lexemes input)).mpr hss
  have hcount := hprog.pushedBy_eq
  cases hroot
  cases hvars : hbuilt.vars with
  | nil =>
    have : pushedBy ([] : List (Statement (List UInt8))) = 0 := rfl
    omega
  | @cons node s items ss hvar hrest =>
    obtain @⟨identifier, value, _, hname, hvalue⟩ := hvar
    have hgrows := (Follows.pushNode after (.Block (.Var identifier value :: items))).grows
    obtain ⟨q, hq, hzero⟩ := (hbuilt.first _ rfl _ _ rfl).2
    have hfrom := (hq.followedFrom hvalue (hprog.onlyAdds_iff.mp hadds s (List.mem_cons_self ..))).grows hgrows
    have hcur := hcurrent q (.value (deref_pushNode ..) (List.mem_cons_self ..) hfrom)
    have hle := (generation_zero_iff hbuilt).mp (hcur.symm.trans hzero)
    omega

/-- **Nothing is dropped iff the program only adds, and has at most 49 operands.** For an
accepted program without identifiers in its expressions, the compiler returns an error or
writes a file that has the code of every number and every operator iff no operator token of
the program is other than `+` and `=` and its operands are few enough that it does not stop
at a stale pointer instead. Whatever file it writes has all of the code iff the program only
adds. -/
theorem nothing_dropped_iff {input : List UInt8} {root : Pointer} {self : Parser (List UInt8)}
    {ss : List (Statement (List UInt8))} (h : Chapter08.parse (Parser.init input) = .ok (root, self))
    (hss : IsBlock self.nodes root ss) (hnames : ∀ s ∈ ss, s.value.names = []) :
    (((∃ e, assembler .checked (Parser.init input) = .error (.parser e)) ∨
        ∃ text, assembler .checked (Parser.init input) = .ok (.file text) ∧ CoversAll text ss) ↔
      OnlyAdds (lexemes input) ∧
        (lexemes input).countP isWord ≤ 2 * (lexemes input).countP Descent.isSemicolon + 49) ∧
      ∀ text, assembler .checked (Parser.init input) = .ok (.file text) →
        (CoversAll text ss ↔ OnlyAdds (lexemes input)) := by
  have hprogram := Chapter08.program_of_block h hss
  have hprog := (prog_iff (lexical_lexemes input)).mpr hprogram
  have hstuck : stuckIn ss = false :=
    List.any_eq_false.mpr fun s hs => by rw [not_stuck_of_names (hnames s hs)]; decide
  have hgranted := assembler_program hprogram
  rw [hstuck] at hgranted
  have hcovers := coversAll_iff hprog hnames
  rw [← hprog.onlyAdds_iff] at hcovers
  have hwritten : ∀ text, assembler .checked (Parser.init input) = .ok (.file text) →
      (CoversAll text ss ↔ OnlyAdds (lexemes input)) := by
    intro text htext
    have hsame := (assembler_granted_of_ok htext).symm.trans hgranted
    cases hsame
    exact hcovers
  refine ⟨⟨?_, ?_⟩, hwritten⟩
  · rintro (⟨e, he⟩ | ⟨text, htext, hall⟩)
    · -- the parser accepted, and the generator has no errors of its own
      rcases assembler_checked_or (Parser.init input) with hsame | hdangling
      · rw [hsame, hgranted] at he
        cases he
      · rw [hdangling] at he
        cases he
    · have hadds := (hwritten text htext).mp hall
      exact ⟨hadds, (followed_current_iff h hadds).mp (current_of_assembler_checked h htext)⟩
  · rintro ⟨hadds, hfew⟩
    refine .inr ⟨_, ?_, hcovers.mpr hadds⟩
    rw [assembler_checked_of_current h (followed_current h hfew)]
    exact hgranted

/-- `var a = 1 + 2; var b = 3 + 4 + 5;` as the parser reads it. -/
def twoSums : List (Statement (List UInt8)) :=
  [⟨ascii "a", .binary (ascii "+") (.number (ascii "1")) (.number (ascii "2"))⟩,
    ⟨ascii "b", .binary (ascii "+") (.binary (ascii "+") (.number (ascii "3")) (.number (ascii "4")))
      (.number (ascii "5"))⟩]

theorem nothing_dropped_sums : ∃ root self,
    Chapter08.parse (Parser.init (ascii "var a = 1 + 2; var b = 3 + 4 + 5;")) = .ok (root, self) ∧
      IsBlock self.nodes root twoSums ∧
      ((∃ e, assembler .checked (Parser.init (ascii "var a = 1 + 2; var b = 3 + 4 + 5;")) = .error (.parser e)) ∨
        ∃ text, assembler .checked (Parser.init (ascii "var a = 1 + 2; var b = 3 + 4 + 5;")) = .ok (.file text) ∧
          CoversAll text twoSums) := by
  obtain ⟨root, self, h, hblock⟩ :=
    Chapter08.exists_block (ascii "var a = 1 + 2; var b = 3 + 4 + 5;") twoSums (by decide +kernel)
  refine ⟨root, self, h, hblock, (nothing_dropped_iff h hblock ?_).1.mpr ⟨?_, ?_⟩⟩
  · decide +kernel
  · unfold OnlyAdds
    decide +kernel
  · decide +kernel

/-- `var x = 7 - 2;` compiles to an empty body. -/
theorem difference_dropped : ∃ root self,
    Chapter08.parse (Parser.init (ascii "var x = 7 - 2;")) = .ok (root, self) ∧
      IsBlock self.nodes root [⟨ascii "x", .binary (ascii "-") (.number (ascii "7")) (.number (ascii "2"))⟩] ∧
      assembler .checked (Parser.init (ascii "var x = 7 - 2;")) = .ok (.file (prologue ++ epilogue)) ∧
      ¬ CoversAll (prologue ++ epilogue)
        [⟨ascii "x", .binary (ascii "-") (.number (ascii "7")) (.number (ascii "2"))⟩] := by
  have hrun : Descent.program chapter08 16 16 (lexemes (ascii "var x = 7 - 2;")) =
      .ok [⟨ascii "x", .binary (ascii "-") (.number (ascii "7")) (.number (ascii "2"))⟩] := by
    decide +kernel
  obtain ⟨root, self, h, hblock⟩ := Chapter08.exists_block (ascii "var x = 7 - 2;") _ hrun
  refine ⟨root, self, h, hblock, by decide +kernel, fun hcovers => ?_⟩
  have hprog := (prog_iff (lexical_lexemes (ascii "var x = 7 - 2;"))).mpr (Descent.program_sound hrun)
  have hops := (coversAll_iff hprog (by decide)).mp hcovers _ (List.mem_singleton_self _) (ascii "-")
    (List.mem_singleton_self _)
  exact absurd hops (by decide)

end CompilingToAssembly
