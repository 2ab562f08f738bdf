import Netplay.Stream

/-!
# The lexer

`lexer` of `query_parser.h`. A lookahead reads a token and then pushes its
characters back one by one. `char c = stream_.get()` narrows to a signed char,
so that `EOF` and the byte `0xFF` give the same `c`.
-/

namespace Netplay.Lexer

open Text

inductive TokenId where
  | INVALID | END | OR | AND | NOT | LEFT | RIGHT | OPERATOR | OPERAND
  deriving DecidableEq, Repr

structure LexToken where
  id : TokenId
  value : Bytes
  deriving DecidableEq, Repr

/-- The `char` value of `EOF`. -/
def eofChar : UInt8 := 0xFF

/-- `char c = stream_.get()`. -/
def getChar (s : Stream) : UInt8 × Stream := (s.get.1.getD eofChar, s.get.2)

/-- `iswspace(stream_.peek())`. -/
def peekSpace (s : Stream) : Bool × Stream := ((s.peek.1.map iswspace).getD false, s.peek.2)

/-- `opvalid`. -/
def opvalid (c : UInt8) : Bool :=
  isalnum c || c == ch '.' || c == ch '_' || c == ch '/' || c == ch '-'

/-- `while (iswspace(stream_.peek())) stream_.get();`, one round a byte. -/
def skipSpace : Nat → Stream → Stream
  | 0, s => s
  | n + 1, s =>
    let (sp, s) := peekSpace s
    if sp then skipSpace n s.get.2 else s

/-- `while (opvalid(stream_.peek())) operand += (char) stream_.get();` -/
def readOperand : Nat → Stream → Bytes × Stream
  | 0, s => ([], s)
  | n + 1, s =>
    let (c, s) := s.peek
    match c with
    | some c =>
      if opvalid c then
        let (v, s) := readOperand n s.get.2
        (c :: v, s)
      else ([], s)
    | none => ([], s)

/-- A two-character token whose second character must be `c`. -/
def pair (id : TokenId) (c : UInt8) (msg : Bytes) (s : Stream) :
    Except Fault (LexToken × Stream) :=
  let (d, s) := s.get
  if d = some c then .ok (⟨id, [c, c]⟩, s) else throwParse msg

/-- The tokens `<` and `>` with an optional `=`. -/
def comparison (c : UInt8) (s : Stream) : LexToken × Stream :=
  let (d, s) := s.get
  if d = some (ch '=') then (⟨.OPERATOR, [c, ch '=']⟩, s)
  else (⟨.OPERATOR, [c]⟩, s.unget)

/-- The tail of the `default` case: the last `unget` and the operand loop. -/
def operand (s : Stream) : LexToken × Stream :=
  let s := s.unget
  let (v, s) := readOperand (s.rest.length + 1) s
  (⟨.OPERAND, v⟩, s)

/-- The case `'!'`: `!=`, `!in` before white space, or `!`. -/
def bang (s : Stream) : LexToken × Stream :=
  let (c1, s) := getChar s
  if c1 = ch '=' then (⟨.OPERATOR, lit "!="⟩, s)
  else if c1 = ch 'i' then
    let (c2, s) := s.get
    if c2 = some (ch 'n') then
      let (sp, s) := peekSpace s
      if sp then (⟨.OPERATOR, lit "!in"⟩, s) else (⟨.NOT, lit "!"⟩, s.unget.unget)
    else (⟨.NOT, lit "!"⟩, s.unget.unget)
  else (⟨.NOT, lit "!"⟩, s.unget)

/-- An operand that starts with `i`, or the operator `in` before white space. -/
def word (s : Stream) : LexToken × Stream :=
  let (c1, s) := s.get
  if c1 = some (ch 'n') then
    let (sp, s) := peekSpace s
    if sp then (⟨.OPERATOR, lit "in"⟩, s) else operand s.unget
  else operand s.unget

/-- `lexer::next_token`. -/
def nextToken (s : Stream) : Except Fault (LexToken × Stream) :=
  let s := skipSpace (s.rest.length + 1) s
  let (c, s) := getChar s
  if c = eofChar then .ok (⟨.END, []⟩, s)
  else if c = ch '|' then
    pair .OR (ch '|') (lit "Invalid token starting with |; did you mean ||?") s
  else if c = ch '&' then
    pair .AND (ch '&') (lit "Invalid token starting with &; did you mean &&?") s
  else if c = ch '!' then .ok (bang s)
  else if c = ch '(' then .ok (⟨.LEFT, lit "("⟩, s)
  else if c = ch ')' then .ok (⟨.RIGHT, lit ")"⟩, s)
  else if c = ch '=' then
    pair .OPERATOR (ch '=') (lit "Invalid token starting with =; did you mean ==?") s
  else if c = ch '<' then .ok (comparison (ch '<') s)
  else if c = ch '>' then .ok (comparison (ch '>') s)
  else if !opvalid c then throwParse (lit "All operands must conform to [a-zA-Z0-9_.]+")
  else if c = ch 'i' then .ok (word s)
  else .ok (operand s)

/-- `lexer::put_back`: one `unget` for each character of the token. -/
def putBack : Nat → Stream → Stream
  | 0, s => s
  | n + 1, s => putBack n s.unget

/-- `lexer::peek_token`. -/
def peekToken (s : Stream) : Except Fault (LexToken × Stream) := do
  let (tok, s) ← nextToken s
  pure (tok, putBack tok.value.length s)

end Netplay.Lexer
