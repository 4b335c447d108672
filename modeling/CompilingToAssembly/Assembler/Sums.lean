import CompilingToAssembly.Assembler.Agreement
import Mathlib.Data.BitVec
import Mathlib.Data.Nat.ModEq
import Mathlib.Tactic.Ring

/-! What the code of a sum computes.

The left operand of every addition waits in `x1` while the code of the right
operand runs. Where the right operand is a number that code leaves `x1` alone.
Where it is itself a sum, it parks its own left operand there, and the one that
waited is lost: along `l₁ + (l₂ + (... + (lₖ + n)))` the code adds the last left
operand `k` times and the others not at all. `weights` is that count for each leaf
of a tree, and `sum_code_correct_iff` compares the weighted sum with the sum. -/
namespace CompilingToAssembly
open Library

/-- A number as it is written. -/
structure Numeral where
  text : List UInt8
  isNumber : inClass .Number text = true

def Numeral.value (n : Numeral) : Nat := decimal n.text

/-- A tree of additions. -/
inductive SumTree where
  | leaf (n : Numeral)
  | add (left right : SumTree)

namespace SumTree

def toTree : SumTree → Tree (List UInt8)
  | leaf n => .number n.text
  | add left right => .binary (ascii "+") left.toTree right.toTree

def leaves : SumTree → List Nat
  | leaf n => [n.value]
  | add left right => left.leaves ++ right.leaves

/-- How often the code counts each leaf of a tree that itself counts `c` times and is
the right operand of `depth` additions in a row. -/
def weights (c depth : Nat) : SumTree → List Nat
  | leaf _ => [c]
  | add left (leaf _) => left.weights (c * (depth + 1)) 0 ++ [c]
  | add left (add l r) => left.leaves.map (fun _ => 0) ++ (add l r).weights c (depth + 1)

/-- The sum of the leaves, each as often as it is counted. -/
def weighted (c depth : Nat) (t : SumTree) : Nat :=
  (List.zipWith (· * ·) (t.weights c depth) t.leaves).sum

/-! ### What the registers hold -/

/-- `x0` and `x1` after the code of a tree, from `x1` before it. -/
def result : SumTree → Arm64.Word → Arm64.Word × Arm64.Word
  | leaf n, x₁ => (BitVec.ofNat 64 n.value, x₁)
  | add left right, x₁ =>
    let (sum, parked) := right.result (left.result x₁).1
    (sum + parked, parked)

theorem run_code (t : SumTree) (s : Arm64.State) :
    (Arm64.run t.toTree.code s).x 0 = (t.result (s.x 1)).1 ∧
      (Arm64.run t.toTree.code s).x 1 = (t.result (s.x 1)).2 := by
  induction t generalizing s with
  | leaf n => exact ⟨BitVec.ofInt_natCast .., rfl⟩
  | add left right ihl ihr =>
    rw [toTree, code_add, Arm64.run_append, Arm64.run_cons, Arm64.run_append]
    obtain ⟨hleft, _⟩ := ihl s
    obtain ⟨hsum, hparked⟩ := ihr ((Arm64.Instr.mov 1 0).step (Arm64.run left.toTree.code s))
    have hx₁ : ((Arm64.Instr.mov 1 0).step (Arm64.run left.toTree.code s)).x 1 =
        (left.result (s.x 1)).1 := by
      rw [← hleft]
      rfl
    rw [hx₁] at hsum hparked
    constructor
    · show (Arm64.run right.toTree.code _).x 0 + (Arm64.run right.toTree.code _).x 1 = _
      rw [hsum, hparked]
      rfl
    · show (Arm64.run right.toTree.code _).x 1 = _
      rw [hparked]
      rfl

theorem weights_length (c depth : Nat) (t : SumTree) :
    (t.weights c depth).length = t.leaves.length := by
  fun_induction weights c depth t with
  | case1 c depth n => rfl
  | case2 c depth left n ih => simp [leaves, ih]
  | case3 c depth left l r ih => simp [leaves, ih]

theorem weighted_leaf (c depth : Nat) (n : Numeral) : (leaf n).weighted c depth = c * n.value := by
  simp [weighted, weights, leaves]

theorem weighted_add_leaf (c depth : Nat) (left : SumTree) (n : Numeral) :
    (add left (leaf n)).weighted c depth = left.weighted (c * (depth + 1)) 0 + c * n.value := by
  unfold weighted
  rw [weights, leaves, List.zipWith_append (weights_length ..), List.sum_append]
  simp [leaves]

theorem weighted_add_add (c depth : Nat) (left l r : SumTree) :
    (add left (add l r)).weighted c depth = (add l r).weighted c (depth + 1) := by
  have hzero : ∀ ns : List Nat, (List.zipWith (· * ·) (ns.map fun _ => 0) ns).sum = 0 := by
    intro ns
    induction ns with
    | nil => rfl
    | cons n ns ih => simpa using ih
  unfold weighted
  rw [weights, leaves, List.zipWith_append (by simp), List.sum_append, hzero, Nat.zero_add]

/-- The weighted sum of a tree is what its code leaves in `x0`, and the parked operand
once more for each addition the tree is the right operand of. -/
theorem ofNat_weighted (c depth : Nat) (t : SumTree) (h : depth = 0 ∨ ∃ l r, t = add l r)
    (x₁ : Arm64.Word) :
    BitVec.ofNat 64 (t.weighted c depth) =
      BitVec.ofNat 64 c * ((t.result x₁).1 + BitVec.ofNat 64 depth * (t.result x₁).2) := by
  have hzero : BitVec.ofNat 64 0 = (0 : Arm64.Word) := rfl
  have hone : BitVec.ofNat 64 1 = (1 : Arm64.Word) := rfl
  fun_induction weights c depth t generalizing x₁ with
  | case1 c depth n =>
    obtain rfl : depth = 0 := h.resolve_right fun ⟨_, _, he⟩ => (nomatch he)
    rw [weighted_leaf, BitVec.ofNat_mul, hzero, result]
    ring
  | case2 c depth left n ih =>
    rw [weighted_add_leaf, BitVec.ofNat_add, ih (.inl rfl) x₁, BitVec.ofNat_mul, BitVec.ofNat_mul,
      BitVec.ofNat_add, hzero, hone]
    simp only [result]
    ring
  | case3 c depth left l r ih =>
    rw [weighted_add_add, ih (.inr ⟨l, r, rfl⟩) (left.result x₁).1, BitVec.ofNat_add, hone]
    show _ = BitVec.ofNat 64 c * (((add l r).result (left.result x₁).1).1 +
      ((add l r).result (left.result x₁).1).2 +
      BitVec.ofNat 64 depth * ((add l r).result (left.result x₁).1).2)
    ring

/-- What the code leaves in `x0` does not depend on where it starts. -/
theorem result_weighted (t : SumTree) (x₁ : Arm64.Word) :
    (t.result x₁).1 = BitVec.ofNat 64 (t.weighted 1 0) := by
  rw [ofNat_weighted 1 0 t (.inl rfl) x₁]
  have hzero : BitVec.ofNat 64 0 = (0 : Arm64.Word) := rfl
  have hone : BitVec.ofNat 64 1 = (1 : Arm64.Word) := rfl
  rw [hzero, hone]
  ring

theorem numerals_valid (t : SumTree) : ∀ n ∈ t.toTree.numerals, inClass .Number n = true := by
  induction t with
  | leaf n =>
    intro text htext
    obtain rfl := List.mem_singleton.mp htext
    exact n.isNumber
  | add left right ihl ihr => exact List.forall_mem_append.mpr ⟨ihl, ihr⟩

/-- Every immediate of the code is a leaf. -/
theorem movImm_mem {d : Arm64.Reg} {imm : Int} (t : SumTree) (h : .movImm d imm ∈ t.toTree.code) :
    ∃ v ∈ t.leaves, imm = v := by
  induction t with
  | leaf n =>
    cases List.mem_singleton.mp h
    exact ⟨n.value, List.mem_singleton_self _, rfl⟩
  | add left right ihl ihr =>
    rw [toTree, code_add] at h
    have hor : .movImm d imm ∈ left.toTree.code ∨ .movImm d imm ∈ right.toTree.code := by
      simpa using h
    rcases hor with hl | hr
    · obtain ⟨v, hv, rfl⟩ := ihl hl
      exact ⟨v, List.mem_append_left _ hv, rfl⟩
    · obtain ⟨v, hv, rfl⟩ := ihr hr
      exact ⟨v, List.mem_append_right _ hv, rfl⟩

theorem not_stuck (t : SumTree) : t.toTree.stuck = false := by
  induction t with
  | leaf n => rfl
  | add left right ihl ihr => simp [toTree, Tree.stuck, ihl, ihr]

end SumTree

theorem ofNat_eq_iff (a b : Nat) : BitVec.ofNat 64 a = BitVec.ofNat 64 b ↔ a ≡ b [MOD 2 ^ 64] := by
  rw [← BitVec.toNat_inj, BitVec.toNat_ofNat, BitVec.toNat_ofNat]
  exact Iff.rfl

/-- **The code of a sum is right iff its leaves, each as often as the code counts it,
add up to the sum.** For a tree of additions in any node list, `asm_expression`
appends code that leaves the sum of the leaves in `x0`, from every state, iff the
weighted sum is the sum modulo `2 ^ 64`. -/
theorem sum_code_correct_iff (t : SumTree) {nodes : ArrayList (Ast (List UInt8))} {p : Pointer}
    (hp : Denotes nodes p t.toTree) {n : Nat} (hn : t.toTree.size ≤ n) (list : List UInt8) :
    ∃ text code, asmExpression .granted nodes n list p = .ok (list ++ text) ∧ Arm64.decode text = some code ∧
      ((∀ s, (Arm64.run code s).x 0 = BitVec.ofNat 64 t.leaves.sum) ↔
        t.weighted 1 0 ≡ t.leaves.sum [MOD 2 ^ 64]) := by
  refine ⟨textOf t.toTree.lines, t.toTree.code, ?_, ?_, ?_⟩
  · rw [asmExpression_eq hp hn, t.not_stuck]
    rfl
  · exact decode_textOf (Tree.lines_valid t.numerals_valid)
  · rw [← ofNat_eq_iff]
    constructor
    · intro h
      rw [← h ⟨fun _ => 0, 0, fun _ => 0⟩, (t.run_code _).1, t.result_weighted]
    · intro h s
      rw [(t.run_code s).1, t.result_weighted, h]

def Numeral.ofText (text : String) (h : inClass .Number (ascii text) = true) : Numeral :=
  ⟨ascii text, h⟩

def one : Numeral := .ofText "1" (by decide)
def two : Numeral := .ofText "2" (by decide)
def three : Numeral := .ofText "3" (by decide)

/-- `1 + 2 + 3` -/
def oneTwoThree : SumTree := .add (.add (.leaf one) (.leaf two)) (.leaf three)

/-- As the parser builds it, `1 + 2 + 3` gives code that computes `6`. -/
theorem sum_code_correct_six : ∃ root self identifier value,
    Chapter08.parse (Parser.init (ascii "var x = 1 + 2 + 3;")) = .ok (root, self) ∧
      self.nodes.deref root = some (.Block [.Var identifier value]) ∧
      ∃ text code, asmExpression .granted self.nodes 5 [] value = .ok text ∧
        Arm64.decode text = some code ∧ ∀ s, (Arm64.run code s).x 0 = 6 := by
  obtain ⟨root, self, h, items, hroot, hvars⟩ := Chapter08.exists_block (ascii "var x = 1 + 2 + 3;")
    [⟨ascii "x", oneTwoThree.toTree⟩] (by decide +kernel)
  cases hvars with
  | cons hvar hnil =>
    cases hnil
    obtain @⟨identifier, value, _, _, hvalue⟩ := hvar
    obtain ⟨text, code, htext, hcode, hiff⟩ := sum_code_correct_iff oneTwoThree hvalue (Nat.le_refl 5) []
    exact ⟨root, self, identifier, value, h, hroot, text, code, htext, hcode, hiff.mpr (by decide)⟩

/-- `1 + (2 + 3)` -/
def rightNested : SumTree := .add (.leaf one) (.add (.leaf two) (.leaf three))

/-- As the parser builds it, `1 + (2 + 3)` gives code that computes `7`. -/
theorem right_nested_sum_wrong : ∃ root self identifier value,
    Chapter08.parse (Parser.init (ascii "var x = 1 + (2 + 3);")) = .ok (root, self) ∧
      self.nodes.deref root = some (.Block [.Var identifier value]) ∧
      Denotes self.nodes value rightNested.toTree ∧ rightNested.leaves.sum = 6 ∧
      ∃ text code, asmExpression .checked self.nodes 5 [] value = .ok text ∧
        Arm64.decode text = some code ∧ ∀ s, (Arm64.run code s).x 0 = 7 := by
  obtain ⟨root, self, h, items, hroot, hvars⟩ := Chapter08.exists_block (ascii "var x = 1 + (2 + 3);")
    [⟨ascii "x", rightNested.toTree⟩] (by decide +kernel)
  cases hvars with
  | cons hvar hnil =>
    cases hnil
    obtain @⟨identifier, value, _, _, hvalue⟩ := hvar
    refine ⟨root, self, identifier, value, h, hroot, hvalue, by decide,
      textOf rightNested.toTree.lines, rightNested.toTree.code, ?_, ?_, ?_⟩
    · have hcurrent : ∀ q, FollowedFrom self.nodes value q → self.nodes.Current q := fun q hq =>
        followed_current h (by decide +kernel) q (.value hroot (List.mem_singleton_self _) hq)
      rw [asmExpression_checked_of_current hcurrent, asmExpression_eq hvalue (Nat.le_refl 5)]
      rfl
    · exact decode_textOf (Tree.lines_valid rightNested.numerals_valid)
    · intro s
      rw [(rightNested.run_code s).1, rightNested.result_weighted]
      decide

/-! ### Which shapes are safe -/

namespace SumTree

/-- Every right operand is a number. -/
def leftLeaning : SumTree → Bool
  | leaf _ => true
  | add left (leaf _) => left.leftLeaning
  | add _ (add _ _) => false

/-- The tree with another first number. -/
def withFirst (n : Numeral) : SumTree → SumTree
  | leaf _ => leaf n
  | add left right => add (left.withFirst n) right

theorem weighted_leftLeaning {t : SumTree} (h : t.leftLeaning = true) (c : Nat) :
    t.weighted c 0 = c * t.leaves.sum := by
  fun_induction leftLeaning t generalizing c with
  | case1 n => simp [weighted_leaf, leaves]
  | case2 left n ih =>
    rw [weighted_add_leaf, ih h, leaves, List.sum_append]
    simp [leaves, Nat.mul_add]
  | case3 left l r => cases h

/-- Where some right operand is a sum the first number is not counted. -/
theorem weighted_withFirst {t : SumTree} (h : t.leftLeaning = false) (c : Nat) (n : Numeral) :
    (t.withFirst n).weighted c 0 = t.weighted c 0 := by
  fun_induction leftLeaning t generalizing c with
  | case1 n => cases h
  | case2 left m ih =>
    rw [withFirst, weighted_add_leaf, weighted_add_leaf, ih h]
  | case3 left l r => rw [withFirst, weighted_add_add, weighted_add_add]

theorem leaves_withFirst (t : SumTree) : ∃ rest, ∀ n, (t.withFirst n).leaves = n.value :: rest := by
  induction t with
  | leaf m => exact ⟨[], fun n => rfl⟩
  | add left right ihl _ =>
    obtain ⟨rest, hrest⟩ := ihl
    exact ⟨rest ++ right.leaves, fun n => by rw [withFirst, leaves, hrest]; rfl⟩

theorem leftLeaning_withFirst (t : SumTree) (n : Numeral) :
    (t.withFirst n).leftLeaning = t.leftLeaning := by
  fun_induction leftLeaning t with
  | case1 m => rfl
  | case2 left m ih => exact ih
  | case3 left l r => rfl

/-- **The safe shapes are the left-leaning ones**: the code is right whatever the first
number is iff no right operand is a sum. -/
theorem leftLeaning_iff (t : SumTree) :
    t.leftLeaning = true ↔
      ∀ n, (t.withFirst n).weighted 1 0 ≡ (t.withFirst n).leaves.sum [MOD 2 ^ 64] := by
  constructor
  · intro h n
    rw [weighted_leftLeaning (by rw [leftLeaning_withFirst]; exact h), Nat.one_mul]
  · intro h
    by_contra hno
    have hno : t.leftLeaning = false := by simpa using hno
    obtain ⟨rest, hrest⟩ := t.leaves_withFirst
    have hone := h one
    have htwo := h two
    rw [weighted_withFirst hno, hrest, List.sum_cons] at hone htwo
    -- the same weighted sum cannot be congruent to both `1 + r` and `2 + r`
    have hsame : 1 + rest.sum ≡ 2 + rest.sum [MOD 2 ^ 64] := hone.symm.trans htwo
    exact absurd (Nat.ModEq.add_right_cancel' _ hsame) (by decide)

end SumTree
end CompilingToAssembly
