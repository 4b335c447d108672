import CompilingToAssembly.Parser.Ast

/-! The parser of `parser.zig`, for both chapters.

A chapter is its digit test and what it makes of a number's text: chapter 8 keeps
the bytes, chapter 6 converts them with `std.fmt.parseInt`. Everything else is one
text. Allocation is assumed to succeed.

The parser is a lexer and the list of nodes; every function takes it and returns
it. `parseExpression` and its helpers call one another, so the helpers take the
recursive call as an argument and the recursion and the two loops carry a budget.
The budget exceeds the number of bytes left, and running out of it would show as
`Failure.fuel`, which no run from `init` returns (`Descent.program_fuel`). -/
namespace CompilingToAssembly
open Library

/-- What differs between the chapters. A number token is never empty, or else the
empty text is no number. -/
structure Chapter (ν : Type) where
  isNumeric : UInt8 → Bool
  number : List UInt8 → Except ParseIntError ν
  nonempty : (∀ c, between '1' '9' c = true → isNumeric c = true) ∨ ∃ e, number [] = .error e

/-- `std.fmt.parseInt(i64, text, 10)` on the texts a number token can have. -/
def parseInt (text : List UInt8) : Except ParseIntError Int :=
  if text.isEmpty || !text.all isDigit then .error .InvalidCharacter
  else if decimal text ≤ 2 ^ 63 - 1 then .ok (decimal text)
  else .error .Overflow

def chapter06 : Chapter Int where
  isNumeric := Chapter06.isNumeric
  number := parseInt
  nonempty := .inr ⟨.InvalidCharacter, rfl⟩

def chapter08 : Chapter (List UInt8) where
  isNumeric := Chapter08.isNumeric
  number := .ok
  nonempty := .inl fun c h =>
    forall_byte (P := fun c => between '1' '9' c = true → Chapter08.isNumeric c = true)
      (by decide +kernel) c h

inductive Precedence where
  | Lowest | Sum | Product | Prefix | Call
deriving DecidableEq, Repr

/-- `@intFromEnum` -/
def Precedence.toU8 : Precedence → UInt8
  | .Lowest => 0
  | .Sum => 1
  | .Product => 2
  | .Prefix => 3
  | .Call => 4

structure Parser (ν : Type) where
  lexer : Lexer
  nodes : ArrayList (Ast ν)

namespace Parser
variable {ν : Type}

def init (input : List UInt8) : Parser ν := ⟨Lexer.init input, ArrayList.initCapacity 100⟩

def pushNode (self : Parser ν) (node : Ast ν) : Pointer × Parser ν :=
  let nodes := self.nodes.append node
  (nodes.lastPointer, { self with nodes := nodes })

def getPrecedence (self : Parser ν) (token : Token) : Precedence :=
  match token.tokenType with
  | .Operator =>
    match self.lexer.input[token.start]? with
    | some c =>
      if c == byte '+' || c == byte '-' then .Sum
      else if c == byte '*' || c == byte '/' then .Product
      else .Lowest
    | none => .Lowest
  | _ => .Lowest

def checkTokenStr (self : Parser ν) (token : Token) (str : String) : Bool :=
  self.lexer.slice token == ascii str

/-- What bounds every loop and recursion. -/
def budget (self : Parser ν) : Nat := self.lexer.input.length + 2

variable (ch : Chapter ν)

def next (self : Parser ν) : Except Error (Token × Parser ν) :=
  match self.lexer.next ch.isNumeric with
  | .error e => .error e
  | .ok (token, lexer) => .ok (token, { self with lexer := lexer })

def peek (self : Parser ν) : Option Token := self.lexer.peek ch.isNumeric

def expectTokenType (self : Parser ν) (tokenType : TokenType) : Except Error (Parser ν) :=
  match self.next ch with
  | .error e => .error e
  | .ok (token, self) => if token.tokenType ≠ tokenType then .error InvalidToken else .ok self

def parseIdentifier (self : Parser ν) : Except Error (Pointer × Parser ν) :=
  match self.next ch with
  | .error e => .error e
  | .ok (token, self) =>
    if token.tokenType ≠ .Identifier then .error InvalidToken
    else .ok (self.pushNode (.Identifier (self.lexer.slice token)))

def parseNumber (self : Parser ν) : Except Error (Pointer × Parser ν) :=
  match self.next ch with
  | .error e => .error e
  | .ok (token, self) =>
    if token.tokenType ≠ .Number then .error InvalidToken
    else
      match ch.number (self.lexer.slice token) with
      | .error e => .error (.leaf e)
      | .ok number => .ok (self.pushNode (.Number number))

def parsePrimaryExpression (self : Parser ν) : Except Error (Pointer × Parser ν) :=
  match self.peek ch with
  | some token =>
    match token.tokenType with
    | .Identifier => self.parseIdentifier ch
    | .Number => self.parseNumber ch
    | _ => .error InvalidToken
  | none => .error MissingToken

section
variable (parseExpression : UInt8 → Parser ν → Except Error (Pointer × Parser ν))

def parsePrefix (self : Parser ν) : Except Error (Pointer × Parser ν) :=
  match self.peek ch with
  | some token =>
    match token.tokenType with
    | .Number => self.parsePrimaryExpression ch
    | .Identifier => self.parsePrimaryExpression ch
    | .LeftParen =>
      match self.expectTokenType ch .LeftParen with
      | .error e => .error e
      | .ok self =>
        match parseExpression 0 self with
        | .error e => .error e
        | .ok (node, self) =>
          match self.expectTokenType ch .RightParen with
          | .error e => .error e
          | .ok self => .ok (node, self)
    | _ => .error InvalidToken
  | none => .error MissingToken

def parseInfix (self : Parser ν) (left : Pointer) : Except Error (Pointer × Parser ν) :=
  match self.next ch with
  | .error e => .error e
  | .ok (token, self) =>
    match token.tokenType with
    | .Operator =>
      if self.checkTokenStr token "+" || self.checkTokenStr token "-" ||
          self.checkTokenStr token "*" || self.checkTokenStr token "/" then
        let op := self.lexer.slice token
        let tokenPrecedence := (self.getPrecedence token).toU8
        match parseExpression tokenPrecedence self with
        | .error e => .error e
        | .ok (right, self) => .ok (self.pushNode (.BinaryOperator op left right))
      else .error InvalidToken
    | _ => .error InvalidToken

/-- The `while` loop of `parseExpression`, with what it has parsed so far. -/
def parseInfixes (precedence : UInt8) :
    Nat → Pointer → Parser ν → Except Error (Pointer × Parser ν)
  | 0, _, _ => .error .fuel
  | n + 1, left, self =>
    match self.peek ch with
    | none => .ok (left, self)
    | some token =>
      if precedence < (self.getPrecedence token).toU8 then
        match self.parseInfix ch parseExpression left with
        | .error e => .error e
        | .ok (left, self) => parseInfixes precedence n left self
      else .ok (left, self)

end

/-- `parseExpression` within a budget. -/
def parseExpressionWithin : Nat → UInt8 → Parser ν → Except Error (Pointer × Parser ν)
  | 0, _, _ => .error .fuel
  | n + 1, precedence, self =>
    match self.parsePrefix ch (parseExpressionWithin n) with
    | .error e => .error e
    | .ok (left, self) => parseInfixes ch (parseExpressionWithin n) precedence n left self

def parseExpression (self : Parser ν) (precedence : UInt8) : Except Error (Pointer × Parser ν) :=
  parseExpressionWithin ch self.budget precedence self

def parseStatement (self : Parser ν) : Except Error (Ast ν × Parser ν) :=
  match self.next ch with
  | .error e => .error e
  | .ok (token, self) =>
    match token.tokenType with
    | .Identifier =>
      if !self.checkTokenStr token "var" then .error InvalidToken
      else
        match self.parseIdentifier ch with
        | .error e => .error e
        | .ok (identifier, self) =>
          match self.next ch with
          | .error e => .error e
          | .ok (eqToken, self) =>
            if !self.checkTokenStr eqToken "=" then .error InvalidToken
            else
              match self.parseExpression ch 0 with
              | .error e => .error e
              | .ok (value, self) =>
                match self.expectTokenType ch .Semicolon with
                | .error e => .error e
                | .ok self => .ok (.Var identifier value, self)
    | _ => .error InvalidToken

/-- The `while` loop of `parseBody`, with the statements so far. -/
def parseStatements : Nat → List (Ast ν) → Parser ν → Except Error (List (Ast ν) × Parser ν)
  | 0, _, _ => .error .fuel
  | n + 1, nodes, self =>
    match self.peek ch with
    | none => .ok (nodes, self)
    | some _ =>
      match self.parseStatement ch with
      | .error e => .error e
      | .ok (node, self) => parseStatements n (nodes ++ [node]) self

end Parser

namespace Chapter08

/-- The `Block` is pushed last and its pointer returned. -/
def parseBody (self : Parser (List UInt8)) : Except Error (Pointer × Parser (List UInt8)) :=
  match self.parseStatements chapter08 self.budget [] with
  | .error e => .error e
  | .ok (nodes, self) => .ok (self.pushNode (.Block nodes))

def parse (self : Parser (List UInt8)) : Except Error (Pointer × Parser (List UInt8)) :=
  parseBody self

end Chapter08

namespace Chapter06

/-- The `Block` is appended last and nothing returned. -/
def parseBody (self : Parser Int) : Except Error (Parser Int) :=
  match self.parseStatements chapter06 self.budget [] with
  | .error e => .error e
  | .ok (nodes, self) => .ok { self with nodes := self.nodes.append (.Block nodes) }

def parse (self : Parser Int) : Except Error (Parser Int) := parseBody self

end Chapter06
end CompilingToAssembly
