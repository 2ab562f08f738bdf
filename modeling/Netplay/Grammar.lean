import Netplay.QueryParser

/-!
# The documented grammar

    <expression> ::= <term> {'||' <term>}
    <term>       ::= <factor> {'&&' <factor>}
    <factor>     ::= <predicate> | '!' <factor> | (<expression>)
    <predicate>  ::= <attribute> <op> <value>

`Derives` is the grammar over token lists, with the reading of a derivation as
a `Source` tree. `Source.value` is the meaning the grammar gives it: `!` binds
to its factor and `&&` tighter than `||`.
-/

namespace Netplay

open Text Lexer

inductive Source where
  | predicate : Predicate → Source
  | not : Source → Source
  | all : List Source → Source
  | any : List Source → Source

namespace Source

mutual

/-- The truth value of a reading. -/
def value (v : Predicate → Bool) : Source → Bool
  | .predicate p => v p
  | .not f => !value v f
  | .all fs => valueAll v fs
  | .any ts => valueAny v ts

def valueAll (v : Predicate → Bool) : List Source → Bool
  | [] => true
  | f :: fs => value v f && valueAll v fs

def valueAny (v : Predicate → Bool) : List Source → Bool
  | [] => false
  | t :: ts => value v t || valueAny v ts

end

/-- A node for several children; a single child stands for itself. -/
def gather (node : List Expression → Expression) : List Expression → Expression
  | [e] => e
  | es => node es

mutual

/-- The tree for a reading, with every negation pushed to the predicates. -/
def tree : Source → Expression
  | .predicate p => .predicate p
  | .not f => (tree f).flip
  | .all fs => gather .conjunction (trees fs)
  | .any ts => gather .disjunction (trees ts)

def trees : List Source → List Expression
  | [] => []
  | s :: ss => tree s :: trees ss

end

@[simp] theorem gather_single (node : List Expression → Expression) (e : Expression) :
    gather node [e] = e := rfl

@[simp] theorem gather_pair (node : List Expression → Expression) (a b : Expression)
    (es : List Expression) : gather node (a :: b :: es) = node (a :: b :: es) := rfl

mutual

/-- Every predicate of the reading satisfies `P`. -/
def Forall (P : Predicate → Prop) : Source → Prop
  | .predicate p => P p
  | .not f => Forall P f
  | .all fs => ForallMem P fs
  | .any ts => ForallMem P ts

def ForallMem (P : Predicate → Prop) : List Source → Prop
  | [] => True
  | s :: ss => Forall P s ∧ ForallMem P ss

end

/-- Every operator of the reading is an operator lexeme. -/
def Plain (s : Source) : Prop := s.Forall fun p => p.op ∈ Expression.operators

theorem gather_plain {node : List Expression → Expression} {es : List Expression}
    (hnode : ∀ es, (node es).Plain ↔ Expression.PlainAll es) (h : Expression.PlainAll es) :
    (gather node es).Plain := by
  match es, h with
  | [], h => exact (hnode []).mpr h
  | [_], h => exact h.1
  | _ :: _ :: _, h => exact (hnode _).mpr h

mutual

theorem tree_plain : ∀ s : Source, s.Plain → s.tree.Plain
  | .predicate _, h => h
  | .not f, h => Expression.flip_plain _ (tree_plain f h)
  | .all fs, h => gather_plain (fun _ => Iff.rfl) (trees_plain fs h)
  | .any ts, h => gather_plain (fun _ => Iff.rfl) (trees_plain ts h)

theorem trees_plain : ∀ ss : List Source,
    ForallMem (fun p => p.op ∈ Expression.operators) ss → Expression.PlainAll (trees ss)
  | [], _ => trivial
  | s :: ss, h => ⟨tree_plain s h.1, trees_plain ss h.2⟩

end

theorem value_gather_conjunction (v : Predicate → Bool) (es : List Expression) :
    (gather .conjunction es).value v = Expression.valueAll v es := by
  match es with
  | [] => rfl
  | [_] => simp [Expression.valueAll]
  | _ :: _ :: _ => rfl

theorem value_gather_disjunction (v : Predicate → Bool) (es : List Expression) :
    (gather .disjunction es).value v = Expression.valueAny v es := by
  match es with
  | [] => rfl
  | [_] => simp [Expression.valueAny]
  | _ :: _ :: _ => rfl

mutual

/-- Pushing the negations down keeps the meaning of the text. -/
theorem value_tree (v : Predicate → Bool) (hv : Expression.Complementary v) :
    ∀ s : Source, s.Plain → s.tree.value v = s.value v
  | .predicate _, _ => rfl
  | .not f, h => by
    rw [tree, value, Expression.value_flip v hv _ (tree_plain f h), value_tree v hv f h]
  | .all fs, h => by
    rw [tree, value, value_gather_conjunction, (value_trees v hv fs h).1]
  | .any ts, h => by
    rw [tree, value, value_gather_disjunction, (value_trees v hv ts h).2]

theorem value_trees (v : Predicate → Bool) (hv : Expression.Complementary v) :
    ∀ ss : List Source, ForallMem (fun p => p.op ∈ Expression.operators) ss →
      Expression.valueAll v (trees ss) = valueAll v ss ∧
        Expression.valueAny v (trees ss) = valueAny v ss
  | [], _ => ⟨rfl, rfl⟩
  | s :: ss, h => by
    have hs := value_tree v hv s h.1
    have hss := value_trees v hv ss h.2
    simp only [trees, Expression.valueAll, Expression.valueAny, valueAll, valueAny, hs, hss.1, hss.2,
      and_self]

end

end Source

namespace Lexer

def orToken : LexToken := ⟨.OR, lit "||"⟩
def andToken : LexToken := ⟨.AND, lit "&&"⟩
def notToken : LexToken := ⟨.NOT, lit "!"⟩
def leftToken : LexToken := ⟨.LEFT, lit "("⟩
def rightToken : LexToken := ⟨.RIGHT, lit ")"⟩
def operatorToken (op : Bytes) : LexToken := ⟨.OPERATOR, op⟩
def operandToken (v : Bytes) : LexToken := ⟨.OPERAND, v⟩

end Lexer

inductive Level where
  | factor | term | expression

/-- The token list is a factor, a term or an expression with the given reading. -/
inductive Derives : Level → List LexToken → Source → Prop where
  | predicate (a op v : Bytes) (h : op ∈ Expression.operators) :
      Derives .factor [operandToken a, operatorToken op, operandToken v] (.predicate ⟨a, op, v⟩)
  | not {ts : List LexToken} {f : Source} (h : Derives .factor ts f) :
      Derives .factor (notToken :: ts) (.not f)
  | group {ts : List LexToken} {e : Source} (h : Derives .expression ts e) :
      Derives .factor (leftToken :: ts ++ [rightToken]) e
  | factor {ts : List LexToken} {f : Source} (h : Derives .factor ts f) :
      Derives .term ts (.all [f])
  | and {ts us : List LexToken} {f : Source} {fs : List Source} (hf : Derives .factor ts f)
      (h : Derives .term us (.all fs)) : Derives .term (ts ++ andToken :: us) (.all (f :: fs))
  | term {ts : List LexToken} {t : Source} (h : Derives .term ts t) :
      Derives .expression ts (.any [t])
  | or {ts us : List LexToken} {t : Source} {rs : List Source} (ht : Derives .term ts t)
      (h : Derives .expression us (.any rs)) :
      Derives .expression (ts ++ orToken :: us) (.any (t :: rs))

theorem Derives.plain {l : Level} {ts : List LexToken} {s : Source} (h : Derives l ts s) :
    s.Plain := by
  induction h with
  | predicate a op v h => exact h
  | not h ih => exact ih
  | group h ih => exact ih
  | factor h ih => exact ⟨ih, trivial⟩
  | and hf h ihf ih => exact ⟨ihf, ih⟩
  | term h ih => exact ⟨ih, trivial⟩
  | or ht h iht ih => exact ⟨iht, ih⟩

end Netplay
