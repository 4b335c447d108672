import CompilingToAssembly.Library.Bytes
import CompilingToAssembly.Library.Climb

/-! The lexer of `parser.zig`, for both chapters.

`Lexer.next` walks the input from the current index. Its `switch` is `prong`: the
arm a byte selects, with what distinguishes the arms of one kind as data (the
token type of a single-byte token, the second bytes that extend an operator). The
arms themselves are `Lexer.scan`, on the bytes from the index on. A byte no other
arm claims is stepped over.

The two chapters share this text but for `isNumeric`, which is therefore a
parameter. In chapter 6 it excludes `0` and `9`, so that its number arm, entered
on any of `1` to `9`, can return a token that is empty. -/
namespace CompilingToAssembly
open Library

inductive TokenType where
  | Identifier | Number | Keyword | Operator
  | LeftCurly | RightCurly | LeftParen | RightParen | LeftBracket | RightBracket
  | Comma | Semicolon | Colon
deriving DecidableEq, Repr

/-- What `std.fmt.parseInt` reports. -/
inductive ParseIntError where
  | Overflow
  | InvalidCharacter
deriving DecidableEq, Repr

/-- The errors that reach the caller of a parser. `ParserError` of the source is the
first two; `Failure.fuel` is the model's own and is never returned. -/
abbrev Error := Failure ParseIntError

@[match_pattern] abbrev InvalidToken : Error := .invalid
@[match_pattern] abbrev MissingToken : Error := .missing

/-- The bytes from `start` up to but not including `finish`. -/
structure Token where
  tokenType : TokenType
  start : Nat
  finish : Nat
deriving DecidableEq, Repr

def Chapter06.isNumeric (c : UInt8) : Bool := byte '0' < c && c < byte '9'

def Chapter08.isNumeric (c : UInt8) : Bool := byte '0' ≤ c && c ≤ byte '9'

def isAlphabetic (c : UInt8) : Bool := between 'a' 'z' c || between 'A' 'Z' c

/-- The arms of the lexer's `switch`. -/
inductive Prong where
  | identifier
  | number
  | single (tokenType : TokenType)
  | operator (second : List UInt8)
  | skip
deriving DecidableEq, Repr

def prong (ch : UInt8) : Prong :=
  if between 'a' 'z' ch || between 'A' 'Z' ch || ch == byte '_' then .identifier
  else if between '1' '9' ch then .number
  else if ch == byte '{' then .single .LeftCurly
  else if ch == byte '}' then .single .RightCurly
  else if ch == byte '(' then .single .LeftParen
  else if ch == byte ')' then .single .RightParen
  else if ch == byte '[' then .single .LeftBracket
  else if ch == byte ']' then .single .RightBracket
  else if ch == byte '+' || ch == byte '-' || ch == byte '*' || ch == byte '/' then .operator []
  else if ch == byte '=' then .operator [byte '=']
  else if ch == byte '<' then .operator [byte '=', byte '<']
  else if ch == byte '>' then .operator [byte '=', byte '>']
  else if ch == byte ',' then .single .Comma
  else if ch == byte ';' then .single .Semicolon
  else if ch == byte ':' then .single .Colon
  else if ch == byte '!' then .operator [byte '=']
  else .skip

structure Lexer where
  input : List UInt8
  index : Nat
  done : Bool

namespace Lexer

def init (input : List UInt8) : Lexer := ⟨input, 0, false⟩

/-- The bytes of the input that a token spans. -/
def slice (self : Lexer) (token : Token) : List UInt8 :=
  (self.input.drop token.start).take (token.finish - token.start)

/-- The inner loops: step over bytes that satisfy `keep`, and return the index of
the first that does not. -/
def scanWhile (keep : UInt8 → Bool) : List UInt8 → Nat → Nat
  | [], index => index
  | c :: rest, index => if keep c then scanWhile keep rest (index + 1) else index

/-- The bytes that continue an identifier. -/
def identifierByte (isNumeric : UInt8 → Bool) (c : UInt8) : Bool :=
  c == byte '_' || isAlphabetic c || isNumeric c

/-- The outer loop, on the bytes from `index` on. -/
def scan (isNumeric : UInt8 → Bool) : List UInt8 → Nat → Except Error Token
  | [], _ => .error MissingToken
  | ch :: rest, index =>
    match prong ch with
    | .identifier =>
      .ok ⟨.Identifier, index, scanWhile (identifierByte isNumeric) (ch :: rest) index⟩
    | .number => .ok ⟨.Number, index, scanWhile isNumeric (ch :: rest) index⟩
    | .single tokenType => .ok ⟨tokenType, index, index + 1⟩
    | .operator second =>
      match rest with
      | c2 :: _ =>
        if second.contains c2 then .ok ⟨.Operator, index, index + 2⟩
        else .ok ⟨.Operator, index, index + 1⟩
      | [] => .ok ⟨.Operator, index, index + 1⟩
    | .skip => scan isNumeric rest (index + 1)

def next (isNumeric : UInt8 → Bool) (self : Lexer) : Except Error (Token × Lexer) :=
  if self.done then .error MissingToken
  else
    match scan isNumeric (self.input.drop self.index) self.index with
    | .error e => .error e
    | .ok token => .ok (token, { self with index := token.finish })

/-- The next token. The source puts the index back, so the lexer is as it was. -/
def peek (isNumeric : UInt8 → Bool) (self : Lexer) : Option Token :=
  match self.next isNumeric with
  | .error _ => none
  | .ok (token, _) => some token

/-- The tokens of repeated calls of `next`, at most `n` of them. -/
def tokens (isNumeric : UInt8 → Bool) : Nat → Lexer → List Token
  | 0, _ => []
  | n + 1, self =>
    match self.next isNumeric with
    | .error _ => []
    | .ok (token, self) => token :: tokens isNumeric n self

end Lexer

/-- A token without its position: what it is and what it reads. -/
structure Lexeme where
  kind : TokenType
  text : List UInt8
deriving DecidableEq, Repr

def Lexer.lexeme (self : Lexer) (token : Token) : Lexeme := ⟨token.tokenType, self.slice token⟩

/-- The token sequence chapter 8 reads in an input. A token takes at least one
byte there, so the bound is never met (`yields_tokens`). -/
def lexemes (input : List UInt8) : List Lexeme :=
  ((Lexer.init input).tokens Chapter08.isNumeric (input.length + 1)).map (Lexer.init input).lexeme

end CompilingToAssembly
