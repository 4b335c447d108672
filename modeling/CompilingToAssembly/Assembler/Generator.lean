import CompilingToAssembly.Parser.Parse

/-! The code generator of chapter 8's `main.zig`.

The generator walks the tree by following pointers into the parser's node list and
appends text to a list of bytes. Writing that list out is the result of
`assembler`. Its pointers are followed in one of two ways: `checked` is what the
code may rely on, `granted` takes every pointer to lead to the node it was handed out
for, and where all of them are current the two are one (`assembler_checked_of_current`).
Reaching `unreachable` is a fault. The recursion carries a budget, since nothing in
a node list says that it holds a tree; the number of nodes is enough for one. -/
namespace CompilingToAssembly
open Library

/-- What ends the generator. `dangling` is a pointer that leads to no node, because the
buffer it points into was given up: a Debug build has overwritten that buffer, and its
switch on what is there takes `else => unreachable`. `fuel` is a budget spent, which does
not happen on what the parser builds. -/
inductive Fault where
  | unreachable
  | dangling
  | fuel
deriving DecidableEq, Repr

def asmNumber (list : List UInt8) : Ast (List UInt8) → Except Fault (List UInt8)
  | .Number n => .ok (list ++ (ascii "\tmov x0, #" ++ n ++ ascii "\n"))
  | _ => .error .unreachable

def asmAdd (asmExpression : List UInt8 → Pointer → Except Fault (List UInt8)) (list : List UInt8) :
    Ast (List UInt8) → Except Fault (List UInt8)
  | .BinaryOperator _ left right =>
    match asmExpression list left with
    | .error f => .error f
    | .ok list =>
      match asmExpression (list ++ ascii "\tmov x1, x0\n") right with
      | .error f => .error f
      | .ok list => .ok (list ++ ascii "\tadd x0, x0, x1\n")
  | _ => .error .unreachable

section
variable (access : Access) (nodes : ArrayList (Ast (List UInt8)))

def asmExpression : Nat → List UInt8 → Pointer → Except Fault (List UInt8)
  | 0, _, _ => .error .fuel
  | n + 1, list, p =>
    match nodes.follow access p with
    | none => .error .dangling
    | some node =>
      match node with
      -- an operator other than `+` is passed over in silence
      | .BinaryOperator op _ _ =>
        if op == ascii "+" then asmAdd (asmExpression n) list node else .ok list
      | .Number _ => asmNumber list node
      | _ => .error .unreachable

def asmStatement (list : List UInt8) : Ast (List UInt8) → Except Fault (List UInt8)
  | .Var _ value => asmExpression access nodes nodes.items.length list value
  | _ => .error .unreachable

/-- The loop of `assembler` over the items of the `Block`. -/
def asmItems : List UInt8 → List (Ast (List UInt8)) → Except Fault (List UInt8)
  | list, [] => .ok list
  | list, node :: items =>
    match node with
    | .Var .. =>
      match asmStatement access nodes list node with
      | .error f => .error f
      | .ok list => asmItems list items
    | _ => asmItems list items

end

def prologue : List UInt8 :=
  ascii ".section .text\n" ++ ascii ".global main\n" ++ ascii "main:\n" ++
    ascii "\tstp x29, x30, [sp, #-16]!\n"

def epilogue : List UInt8 :=
  ascii "\tldp x29, x30, [sp], #16\n" ++ ascii "\tret" ++ ascii "\n"

/-- Why there is no assembly file. -/
inductive Stop where
  | parser (e : Error)
  | fault (f : Fault)
deriving DecidableEq, Repr

/-- What a run that ends well leaves: the file on standard output, or the message
`Invalid node type.` -/
inductive Output where
  | file (text : List UInt8)
  | invalidNodeType
deriving DecidableEq, Repr

def assembler (access : Access) (parser : Parser (List UInt8)) : Except Stop Output :=
  match Chapter08.parse parser with
  | .error e => .error (.parser e)
  | .ok (node, parser) =>
    match parser.nodes.follow access node with
    | none => .error (.fault .dangling)
    | some (.Block items) =>
      match asmItems access parser.nodes prologue items with
      | .error f => .error (.fault f)
      | .ok list => .ok (.file (list ++ epilogue))
    | some _ => .ok .invalidNodeType

end CompilingToAssembly
