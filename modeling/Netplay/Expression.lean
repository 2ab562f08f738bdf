import Netplay.Text

/-!
# Expression trees and negation

The tree of `expression.h` and `parser::negate`, which pushes a negation down
by De Morgan and flips the operator string at each predicate. `value` reads a
tree under an arbitrary valuation of its predicates.
-/

namespace Netplay

open Text

structure Predicate where
  attr : Bytes
  op : Bytes
  value : Bytes
  deriving DecidableEq, Repr

inductive Expression where
  | predicate : Predicate → Expression
  | conjunction : List Expression → Expression
  | disjunction : List Expression → Expression
  | negation : Expression → Expression
  deriving Repr

namespace Expression

/-- `parser::negate(std::string& op)`. -/
def negateOp (op : Bytes) : Except Fault Bytes :=
  if op = lit "==" then .ok (lit "!=")
  else if op = lit "!=" then .ok (lit "==")
  else if op = lit "<" then .ok (lit ">=")
  else if op = lit ">" then .ok (lit "<=")
  else if op = lit "<=" then .ok (lit ">")
  else if op = lit ">=" then .ok (lit "<")
  else if op = lit "in" then .ok (lit "!in")
  else if op = lit "!in" then .ok (lit "in")
  else throwParse (lit "Invalid operator " ++ op)

mutual

/-- `parser::negate(expression* exp)`. -/
def negate : Expression → Except Fault Expression
  | .conjunction cs => do
    let ds ← negateChildren cs
    pure (.disjunction ds)
  | .disjunction ds => do
    let cs ← negateChildren ds
    pure (.conjunction cs)
  | .negation e => pure e
  | .predicate p => do
    let op ← negateOp p.op
    pure (.predicate { p with op := op })

/-- The loop over `children` in the two De Morgan cases of `negate`. -/
def negateChildren : List Expression → Except Fault (List Expression)
  | [] => pure []
  | e :: es => do
    let d ← negate e
    let ds ← negateChildren es
    pure (d :: ds)

end

mutual

/-- The truth value of a tree when each predicate has the value `v` gives it. -/
def value (v : Predicate → Bool) : Expression → Bool
  | .predicate p => v p
  | .conjunction cs => valueAll v cs
  | .disjunction cs => valueAny v cs
  | .negation e => !value v e

def valueAll (v : Predicate → Bool) : List Expression → Bool
  | [] => true
  | e :: es => value v e && valueAll v es

def valueAny (v : Predicate → Bool) : List Expression → Bool
  | [] => false
  | e :: es => value v e || valueAny v es

end

/-- The operator lexemes. -/
def operators : List Bytes :=
  [lit "==", lit "!=", lit "<", lit "<=", lit ">", lit ">=", lit "in", lit "!in"]

/-- What `negateOp` returns on the operator lexemes, and the identity elsewhere. -/
def flipOp (op : Bytes) : Bytes := (negateOp op).toOption.getD op

theorem negateOp_operators {op : Bytes} (h : op ∈ operators) :
    negateOp op = .ok (flipOp op) ∧ flipOp op ∈ operators ∧ flipOp (flipOp op) = op := by
  simp only [operators, List.mem_cons, List.not_mem_nil, or_false] at h
  rcases h with rfl | rfl | rfl | rfl | rfl | rfl | rfl | rfl <;> decide

mutual

/-- Every node is a conjunction, a disjunction or a predicate with an operator
lexeme: the trees the parser builds. -/
def Plain : Expression → Prop
  | .predicate p => p.op ∈ operators
  | .conjunction cs => PlainAll cs
  | .disjunction cs => PlainAll cs
  | .negation _ => False

def PlainAll : List Expression → Prop
  | [] => True
  | e :: es => Plain e ∧ PlainAll es

end

mutual

/-- De Morgan as a total function; it is `negate` on plain trees. -/
def flip : Expression → Expression
  | .predicate p => .predicate { p with op := flipOp p.op }
  | .conjunction cs => .disjunction (flipAll cs)
  | .disjunction cs => .conjunction (flipAll cs)
  | .negation e => e

def flipAll : List Expression → List Expression
  | [] => []
  | e :: es => flip e :: flipAll es

end

mutual

theorem negate_plain : ∀ e, Plain e → negate e = .ok (flip e)
  | .predicate p, h => by rw [negate, (negateOp_operators h).1]; rfl
  | .conjunction cs, h => by rw [negate, negateChildren_plain cs h]; rfl
  | .disjunction cs, h => by rw [negate, negateChildren_plain cs h]; rfl
  | .negation _, h => h.elim

theorem negateChildren_plain : ∀ es, PlainAll es → negateChildren es = .ok (flipAll es)
  | [], _ => rfl
  | e :: es, h => by
    rw [negateChildren, negate_plain e h.1, negateChildren_plain es h.2]; rfl

end

mutual

theorem flip_plain : ∀ e, Plain e → Plain (flip e)
  | .predicate _, h => (negateOp_operators h).2.1
  | .conjunction cs, h => flipAll_plain cs h
  | .disjunction cs, h => flipAll_plain cs h
  | .negation _, h => h.elim

theorem flipAll_plain : ∀ es, PlainAll es → PlainAll (flipAll es)
  | [], _ => trivial
  | e :: es, h => ⟨flip_plain e h.1, flipAll_plain es h.2⟩

end

mutual

theorem flip_flip : ∀ e, Plain e → flip (flip e) = e
  | .predicate _, h => by simp [flip, (negateOp_operators h).2.2]
  | .conjunction cs, h => by simp [flip, flipAll_flipAll cs h]
  | .disjunction cs, h => by simp [flip, flipAll_flipAll cs h]
  | .negation _, h => h.elim

theorem flipAll_flipAll : ∀ es, PlainAll es → flipAll (flipAll es) = es
  | [], _ => rfl
  | e :: es, h => by simp [flipAll, flip_flip e h.1, flipAll_flipAll es h.2]

end

/-- Applying `negate` twice gives back the tree, node for node. -/
theorem negate_negate (e : Expression) (h : Plain e) :
    (negate e >>= negate) = .ok e := by
  rw [negate_plain e h]
  change negate (flip e) = .ok e
  rw [negate_plain _ (flip_plain e h), flip_flip e h]

/-- A valuation under which the two operators of each pair are complementary. -/
def Complementary (v : Predicate → Bool) : Prop :=
  ∀ attr value : Bytes, v ⟨attr, lit "!=", value⟩ = !v ⟨attr, lit "==", value⟩ ∧
    v ⟨attr, lit ">=", value⟩ = !v ⟨attr, lit "<", value⟩ ∧
    v ⟨attr, lit "<=", value⟩ = !v ⟨attr, lit ">", value⟩ ∧
    v ⟨attr, lit "!in", value⟩ = !v ⟨attr, lit "in", value⟩

/-- `negate` takes an operator to the other one of its pair. -/
theorem Complementary.flipOp {v : Predicate → Bool} (hv : Complementary v) {p : Predicate}
    (h : p.op ∈ operators) : v { p with op := flipOp p.op } = !v p := by
  obtain ⟨attr, op, value⟩ := p
  obtain ⟨heq, hlt, hgt, hin⟩ := hv attr value
  simp only [operators, List.mem_cons, List.not_mem_nil, or_false] at h
  rcases h with rfl | rfl | rfl | rfl | rfl | rfl | rfl | rfl
  · exact heq
  · exact (Bool.not_eq_eq_eq_not.mpr heq).symm
  · exact hlt
  · exact (Bool.not_eq_eq_eq_not.mpr hgt).symm
  · exact hgt
  · exact (Bool.not_eq_eq_eq_not.mpr hlt).symm
  · exact hin
  · exact (Bool.not_eq_eq_eq_not.mpr hin).symm

mutual

/-- De Morgan: the flipped tree has the opposite value. -/
theorem value_flip (v : Predicate → Bool) (hv : Complementary v) :
    ∀ e, Plain e → value v (flip e) = !value v e
  | .predicate _, h => hv.flipOp h
  | .conjunction cs, h => by simpa [flip, value] using (value_flipAll v hv cs h).1
  | .disjunction cs, h => by simpa [flip, value] using (value_flipAll v hv cs h).2
  | .negation _, h => h.elim

theorem value_flipAll (v : Predicate → Bool) (hv : Complementary v) :
    ∀ es, PlainAll es → valueAny v (flipAll es) = !valueAll v es ∧
      valueAll v (flipAll es) = !valueAny v es
  | [], _ => by simp [flipAll, valueAny, valueAll]
  | e :: es, h => by
    have he := value_flip v hv e h.1
    have hes := value_flipAll v hv es h.2
    simp [flipAll, valueAny, valueAll, he, hes.1, hes.2]

end

end Expression

end Netplay
