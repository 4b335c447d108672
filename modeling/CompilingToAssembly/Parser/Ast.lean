import CompilingToAssembly.Library.ArrayList
import CompilingToAssembly.Parser.Lexer

/-! Syntax trees: as the parser stores them, and as mathematics.

The parser keeps its nodes in one growable list and links them by pointers into
it, so an `Ast` mentions its children by `Pointer`. `Tree` is what such a node
stands for, and `Denotes nodes p t` reads it off the list. Only an expression has
a tree: of the ten kinds of node, these are the three that the expression parser
builds. -/
namespace CompilingToAssembly
open Library

/-- The nodes of `parser.zig`. `ν` is what a chapter stores for a number. -/
inductive Ast (ν : Type) where
  | Number (value : ν)
  | UnaryOperator (op : List UInt8) (expr : Pointer)
  | BinaryOperator (op : List UInt8) (left right : Pointer)
  | If
  | Identifier (name : List UInt8)
  | Call (func : Pointer) (args : List Pointer)
  | Function
  | Block (nodes : List (Ast ν))
  | Return (value : Pointer)
  | Var (identifier value : Pointer)

inductive Tree (ν : Type) where
  | number (value : ν)
  | identifier (name : List UInt8)
  | binary (op : List UInt8) (left right : Tree ν)
deriving DecidableEq, Repr

/-- One `var` statement. -/
structure Statement (ν : Type) where
  name : List UInt8
  value : Tree ν
deriving DecidableEq, Repr

variable {ν : Type}

/-- The number of nodes of a tree. -/
def Tree.size : Tree ν → Nat
  | .number _ => 1
  | .identifier _ => 1
  | .binary _ left right => left.size + right.size + 1

/-- `p` was handed out by the list `nodes`, and the node it was handed out for is
the root of the tree. -/
inductive Denotes (nodes : ArrayList (Ast ν)) : Pointer → Tree ν → Prop where
  | number {p value} : p.generation ≤ nodes.generation → nodes.deref p = some (.Number value) →
      Denotes nodes p (.number value)
  | identifier {p name} : p.generation ≤ nodes.generation →
      nodes.deref p = some (.Identifier name) → Denotes nodes p (.identifier name)
  | binary {p op l r left right} : p.generation ≤ nodes.generation →
      nodes.deref p = some (.BinaryOperator op l r) → Denotes nodes l left → Denotes nodes r right →
      Denotes nodes p (.binary op left right)

namespace Denotes
variable {nodes nodes' : ArrayList (Ast ν)} {p : Pointer} {t t' : Tree ν}

theorem generation_le (h : Denotes nodes p t) : p.generation ≤ nodes.generation := by
  cases h <;> assumption

/-- Appending nodes changes no tree. -/
theorem grows (h : Denotes nodes p t) (hg : nodes.Grows nodes') : Denotes nodes' p t := by
  induction h with
  | number hp hd => exact .number (Nat.le_trans hp hg.generation) (hg.deref hd)
  | identifier hp hd => exact .identifier (Nat.le_trans hp hg.generation) (hg.deref hd)
  | binary hp hd _ _ ihl ihr => exact .binary (Nat.le_trans hp hg.generation) (hg.deref hd) ihl ihr

theorem unique (h : Denotes nodes p t) (h' : Denotes nodes p t') : t = t' := by
  induction h generalizing t' with
  | number _ hd =>
    cases h' with
    | number _ hd' => rw [hd] at hd'; cases hd'; rfl
    | identifier _ hd' => rw [hd] at hd'; cases hd'
    | binary _ hd' _ _ => rw [hd] at hd'; cases hd'
  | identifier _ hd =>
    cases h' with
    | number _ hd' => rw [hd] at hd'; cases hd'
    | identifier _ hd' => rw [hd] at hd'; cases hd'; rfl
    | binary _ hd' _ _ => rw [hd] at hd'; cases hd'
  | binary _ hd _ _ ihl ihr =>
    cases h' with
    | number _ hd' => rw [hd] at hd'; cases hd'
    | identifier _ hd' => rw [hd] at hd'; cases hd'
    | binary _ hd' hl hr =>
      rw [hd] at hd'
      cases hd'
      rw [ihl hl, ihr hr]

end Denotes

/-- `q` is met from `p` on by left operands alone. -/
inductive Leftmost (nodes : ArrayList (Ast ν)) : Pointer → Pointer → Prop where
  | refl {p} : Leftmost nodes p p
  | left {p op l r q} : nodes.deref p = some (.BinaryOperator op l r) → Leftmost nodes l q →
      Leftmost nodes p q

namespace Leftmost
variable {nodes nodes' : ArrayList (Ast ν)} {p q r : Pointer}

theorem trans (h : Leftmost nodes p q) (h' : Leftmost nodes q r) : Leftmost nodes p r := by
  induction h with
  | refl => exact h'
  | left hd _ ih => exact .left hd (ih h')

theorem grows (h : Leftmost nodes p q) (hg : nodes.Grows nodes') : Leftmost nodes' p q := by
  induction h with
  | refl => exact .refl
  | left hd _ ih => exact .left (hg.deref hd) ih

end Leftmost

/-- The node is the `Var` of a statement. -/
inductive IsVar (nodes : ArrayList (Ast ν)) : Ast ν → Statement ν → Prop where
  | mk {identifier value s} : Denotes nodes identifier (.identifier s.name) →
      Denotes nodes value s.value → IsVar nodes (.Var identifier value) s

/-- The node `p` points to is the `Block` of a list of statements, one `Var` for
each and in their order. -/
def IsBlock (nodes : ArrayList (Ast ν)) (p : Pointer) (ss : List (Statement ν)) : Prop :=
  ∃ items, nodes.deref p = some (.Block items) ∧ List.Forall₂ (IsVar nodes) items ss

namespace IsVar
variable {nodes nodes' : ArrayList (Ast ν)} {node : Ast ν} {s s' : Statement ν}

theorem grows (h : IsVar nodes node s) (hg : nodes.Grows nodes') : IsVar nodes' node s := by
  cases h with
  | mk hi hv => exact ⟨hi.grows hg, hv.grows hg⟩

theorem unique (h : IsVar nodes node s) (h' : IsVar nodes node s') : s = s' := by
  cases h with
  | mk hi hv =>
    cases h' with
    | mk hi' hv' =>
      obtain ⟨name, value⟩ := s
      obtain ⟨name', value'⟩ := s'
      have hname := hi.unique hi'
      have hvalue := hv.unique hv'
      cases hname
      cases hvalue
      rfl

end IsVar

theorem forall₂_isVar_unique {nodes : ArrayList (Ast ν)} {items : List (Ast ν)}
    {ss ss' : List (Statement ν)} (h : List.Forall₂ (IsVar nodes) items ss)
    (h' : List.Forall₂ (IsVar nodes) items ss') : ss = ss' := by
  induction h generalizing ss' with
  | nil => cases h'; rfl
  | cons hs _ ih =>
    cases h' with
    | cons hs' h' => rw [hs.unique hs', ih h']

theorem IsBlock.unique {nodes : ArrayList (Ast ν)} {p : Pointer} {ss ss' : List (Statement ν)}
    (h : IsBlock nodes p ss) (h' : IsBlock nodes p ss') : ss = ss' := by
  obtain ⟨items, hd, hss⟩ := h
  obtain ⟨items', hd', hss'⟩ := h'
  rw [hd] at hd'
  cases hd'
  exact forall₂_isVar_unique hss hss'

end CompilingToAssembly
