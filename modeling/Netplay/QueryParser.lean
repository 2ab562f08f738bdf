import Netplay.Expression
import Netplay.Lexer

/-!
# The recursive-descent parser

`parser` of `query_parser.h`, over any source of tokens with the lexer's two
operations. The fuel counts nested calls and loop rounds; `parse` gives enough
for every text.
-/

namespace Netplay.QueryParser

open Text Lexer

/-- What the parser uses of `lex_`. -/
structure TokenSource (σ : Type) where
  nextToken : σ → Except Fault (LexToken × σ)
  peekToken : σ → Except Fault (LexToken × σ)

variable {σ : Type}

mutual

/-- `parser::exp`. -/
def exp (lex : TokenSource σ) : Nat → σ → Except Fault (Expression × σ)
  | 0, _ => .error .fuel
  | n + 1, s => do
    let (t, s) ← term lex n s
    let (tok, s) ← lex.peekToken s
    if tok.id ≠ .OR then pure (t, s)
    else do
      let (ts, s) ← expLoop lex n s
      pure (.disjunction (t :: ts), s)

/-- The `while` loop of `exp`. -/
def expLoop (lex : TokenSource σ) : Nat → σ → Except Fault (List Expression × σ)
  | 0, _ => .error .fuel
  | n + 1, s => do
    let (tok, s) ← lex.peekToken s
    if tok.id = .OR then do
      let (_, s) ← lex.nextToken s
      let (t, s) ← term lex n s
      let (ts, s) ← expLoop lex n s
      pure (t :: ts, s)
    else pure ([], s)

/-- `parser::term`. -/
def term (lex : TokenSource σ) : Nat → σ → Except Fault (Expression × σ)
  | 0, _ => .error .fuel
  | n + 1, s => do
    let (f, s) ← factor lex n s
    let (tok, s) ← lex.peekToken s
    if tok.id ≠ .AND then pure (f, s)
    else do
      let (fs, s) ← termLoop lex n s
      pure (.conjunction (f :: fs), s)

/-- The `while` loop of `term`. -/
def termLoop (lex : TokenSource σ) : Nat → σ → Except Fault (List Expression × σ)
  | 0, _ => .error .fuel
  | n + 1, s => do
    let (tok, s) ← lex.peekToken s
    if tok.id = .AND then do
      let (_, s) ← lex.nextToken s
      let (f, s) ← factor lex n s
      let (fs, s) ← termLoop lex n s
      pure (f :: fs, s)
    else pure ([], s)

/-- `parser::factor`. -/
def factor (lex : TokenSource σ) : Nat → σ → Except Fault (Expression × σ)
  | 0, _ => .error .fuel
  | n + 1, s => do
    let (tok, s) ← lex.nextToken s
    if tok.id = .NOT then do
      let (f, s) ← factor lex n s
      let e ← f.negate
      pure (e, s)
    else if tok.id = .LEFT then do
      let (e, s) ← exp lex n s
      let (right, s) ← lex.nextToken s
      if right.id ≠ .RIGHT then throwParse (lit "Could not find matching right parenthesis")
      else pure (e, s)
    else if tok.id = .OPERAND then do
      let (op, s) ← lex.nextToken s
      if op.id ≠ .OPERATOR then
        throwParse (lit "First operand must be followed by operator in all predicates")
      else do
        let (operand, s) ← lex.nextToken s
        if operand.id ≠ .OPERAND then
          throwParse (lit "Operand must be followed by operator in all predicates")
        else pure (.predicate ⟨tok.value, op.value, operand.value⟩, s)
    else throwParse (lit "Unexpected token " ++ tok.value)

end

/-- `parser::parse` from a given state of the token source. -/
def parseFrom (lex : TokenSource σ) (n : Nat) (s : σ) : Except Fault Expression := do
  let (e, s) ← exp lex n s
  let (tok, _) ← lex.nextToken s
  if tok.id ≠ .END then throwParse (lit "Parsing ended prematurely")
  else pure e

/-- Nested calls and loop rounds that `size` tokens can take. -/
def enough (size : Nat) : Nat := 3 * size + 3

/-- The lexer over its string stream. -/
def lex : TokenSource Stream := ⟨nextToken, peekToken⟩

/-- `parser(exp).parse()`. -/
def parse (text : Bytes) : Except Fault Expression :=
  parseFrom lex (enough text.length) (.str text)

end Netplay.QueryParser
