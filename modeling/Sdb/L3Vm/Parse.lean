import Sdb.L1Data.Text

/-!
# Watch expressions (`ParseExpression` and its readers, SquirrelVmHelpers.cpp:712-949)

A position in the watch text is the text from there on. An `ExpressionNode` is a
pointer of the source: `null`, or a node with its `next` and its
`accessorExpression`. While a chain is parsed its finished nodes are a list and
its last node, the one the source's `currentExpression` points to, is apart;
`chain` links them.

`parseExpression` is bounded by `fuel`. Every round reads at least one
character, so the length of the text plus one is enough (`parseWatch_fuel`).
-/
namespace Sdb.L3

open Sdb.L1

inductive ExpressionNodeType where
  | undefined | string | number | identifier
  deriving DecidableEq, Repr

/-- `ExpressionNode*` -/
inductive ExpressionNode where
  | null
  | node (type : ExpressionNodeType) (accessorValue : Bytes)
      (accessorExpression next : ExpressionNode)
  deriving DecidableEq, Repr

inductive ParseError where
  /-- `WatchParseError` at a position. -/
  | watch (what : String) (pos : Bytes)
  /-- A write past the end of a string. -/
  | undefined
  | fuel
  deriving DecidableEq, Repr

/-! ## Strings, numbers and identifiers -/

/-- The digits `processStringEscape` stores, at most `maxDigits`, and the
position after them.
mirrors SquirrelVmHelpers.cpp:726-734 -/
def escapeDigits (eofError : String) : Nat → Bytes → Except ParseError (Bytes × Bytes)
  | _, [] => .error (.watch eofError [])
  | 0, pos => .ok ([], pos)
  | n + 1, c :: cs =>
    if isXDigit c then
      match escapeDigits eofError n cs with
      | .ok (digits, pos) => .ok (c :: digits, pos)
      | .error e => .error e
    else .ok ([], c :: cs)

/-- An escape with hexadecimal digits: `size` characters `'0'` are overwritten
from the left by up to `maxDigits` digits, and read as a number of which the low
byte is kept.
mirrors SquirrelVmHelpers.cpp:718-735, 773-800 -/
def stringEscape (eofError : String) (size maxDigits : Nat) :
    Bytes → Except ParseError (UInt8 × Bytes)
  | [] => .error (.watch eofError [])
  | c :: cs =>
    if !isXDigit c then .error (.watch "hexadecimal number expected" (c :: cs))
    else
      match escapeDigits eofError maxDigits (c :: cs) with
      | .error e => .error e
      | .ok (digits, pos) =>
        if size < digits.length then .error .undefined
        else
          let temp := digits ++ List.replicate (size - digits.length) 48
          .ok (UInt8.ofNat (xdigitsValue temp), pos)

/-- The character a one-letter escape stands for. -/
def simpleEscape (c : UInt8) : Option UInt8 :=
  if c = 116 then some 9
  else if c = 97 then some 7
  else if c = 98 then some 8
  else if c = 110 then some 10
  else if c = 114 then some 13
  else if c = 118 then some 11
  else if c = 102 then some 12
  else if c = 48 then some 0
  else if c = 92 ∨ c = 34 ∨ c = 39 then some c
  else none

/-- The loop of `ReadString`, which accepts a string that is not closed. After a
hexadecimal escape the loop's `++pos` skips one more character.
mirrors SquirrelVmHelpers.cpp:737-822 -/
def readStringLoop (enclosingChar : UInt8) (eofError : String) :
    Nat → Bytes → Except ParseError (Bytes × Bytes)
  | 0, _ => .error .fuel
  | _ + 1, [] => .ok ([], [])
  | n + 1, c :: cs =>
    let push (out : UInt8) (pos : Bytes) : Except ParseError (Bytes × Bytes) :=
      match readStringLoop enclosingChar eofError n pos with
      | .ok (output, pos) => .ok (out :: output, pos)
      | .error e => .error e
    if c = 92 then
      match cs with
      | [] => .error (.watch eofError [])
      | e :: rest =>
        match simpleEscape e with
        | some out => push out rest
        | none =>
          if e = 120 then
            match stringEscape eofError 2 2 rest with
            | .ok (out, pos) => push out pos.tail
            | .error err => .error err
          else if e = 117 then
            match stringEscape eofError 4 8 rest with
            | .ok (out, pos) => push out pos.tail
            | .error err => .error err
          else if e = 85 then
            match stringEscape eofError 8 8 rest with
            | .ok (out, pos) => push out pos.tail
            | .error err => .error err
          else .error (.watch "unknown escape character" (e :: rest))
    else if c = 34 ∨ c = 39 then
      if c = enclosingChar then .ok ([], cs) else push c cs
    else if c = 10 then .error (.watch "newline in an inline string" (c :: cs))
    else push c cs

/-- From the opening quote: the string and the position after it.
mirrors SquirrelVmHelpers.cpp:712-822 -/
def readString (enclosingChar : UInt8) (pos : Bytes) : Except ParseError (Bytes × Bytes) :=
  readStringLoop enclosingChar
    (if enclosingChar = 39 then "Encountered EOF when looking for '"
      else "Encountered EOF when looking for \"") (pos.length + 1) pos

/-- mirrors SquirrelVmHelpers.cpp:824-835 -/
def readNumber (pos : Bytes) : Bytes × Bytes := pos.span isDigit

/-- mirrors SquirrelVmHelpers.cpp:837-848 -/
def readIdentifier (pos : Bytes) : Bytes × Bytes := pos.span fun c => isAlnum c || c = 95

/-! ## Expressions -/

/-- A node whose `next` is not linked yet. -/
structure Link where
  type : ExpressionNodeType := .undefined
  accessorValue : Bytes := []
  accessorExpression : ExpressionNode := .null

/-- `rootExpression`, from its nodes in order. -/
def chain : List Link → ExpressionNode
  | [] => .null
  | l :: ls => .node l.type l.accessorValue l.accessorExpression (chain ls)

def ExpressionNode.type : ExpressionNode → ExpressionNodeType
  | null => .undefined
  | node type _ _ _ => type

/-- The loop of `ParseExpression`: the expression and the position after it.
mirrors SquirrelVmHelpers.cpp:850-949 -/
def parseLoop : Nat → List Link → Link → Bytes → Except ParseError (ExpressionNode × Bytes)
  | 0, _, _, _ => .error .fuel
  | _ + 1, done, current, [] => .ok (chain (done ++ [current]), [])
  | n + 1, done, current, c :: cs =>
    if c = 32 then parseLoop n done current cs
    else if c = 46 then
      if current.type ≠ .identifier then
        .error (.watch "Attempted to access field of a non-identifier" (c :: cs))
      else
        match cs with
        | [] => .error (.watch "Expected identifier character after . but got EOF" [])
        | d :: rest =>
          if !isAlpha d ∧ d ≠ 95 then
            .error (.watch "Expected identifier character after ." (d :: rest))
          else parseLoop n (done ++ [current]) {} cs
    else if c = 91 then
      if current.type ≠ .string ∧ current.type ≠ .identifier then
        .error (.watch "[ must follow an identifier or string" (c :: cs))
      else
        match parseLoop n [] {} cs with
        | .error e => .error e
        | .ok (accessor, pos) =>
          if accessor.type = .undefined then
            .error (.watch "Could not create accessor expression" pos)
          else
            parseLoop n (done ++ [current])
              { type := .identifier, accessorExpression := accessor } pos
    else if c = 93 then
      if current.type = .undefined then
        .error (.watch "Closing square bracket without a contained expression" (c :: cs))
      else .ok (chain (done ++ [current]), cs)
    else if c = 34 ∨ c = 39 then
      if current.type ≠ .undefined then
        .error (.watch "String must not follow another expression" (c :: cs))
      else
        match readString c cs with
        | .error e => .error e
        | .ok (value, pos) =>
          parseLoop n done { current with type := .string, accessorValue := value } pos
    else if current.type ≠ .undefined then
      .error (.watch "Identifier or number must not directly follow another expression" (c :: cs))
    else if isDigit c then
      let (value, pos) := readNumber (c :: cs)
      parseLoop n done { current with type := .number, accessorValue := value } pos
    else if isAlpha c ∨ c = 95 then
      let (value, pos) := readIdentifier (c :: cs)
      parseLoop n done { current with type := .identifier, accessorValue := value } pos
    else .error (.watch "Invalid character, expected alphanumeric or underscore." (c :: cs))

def parseExpression (fuel : Nat) (pos : Bytes) : Except ParseError (ExpressionNode × Bytes) :=
  parseLoop fuel [] {} pos

/-- The parse stage of `GetImmediateValue`: the whole text has to be read.
mirrors SquirrelDebugger.cpp:416-424 -/
def parseWatch (watch : Bytes) : Except ParseError ExpressionNode :=
  match parseExpression (watch.length + 1) watch with
  | .error e => .error e
  | .ok (root, []) => .ok root
  | .ok (_, pos) => .error (.watch "Invalid content after the end of the parsed expression" pos)

end Sdb.L3
