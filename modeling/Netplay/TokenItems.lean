import Netplay.Grammar

/-!
# The parser over a list of items

An item is a token together with whether pushing its characters back restores
it: a lookahead drops an item whose `kept` flag is off. `Read` is the grammar
the parser follows on such lists: dropped items may stand where the parser looks
ahead, after a term and after an expression. On kept tokens it is the
documented grammar.
-/

namespace Netplay

open Text Lexer QueryParser

inductive Item where
  | token : LexToken → Bool → Item
  | bad : Bytes → Item
  deriving DecidableEq, Repr

namespace Item

def keep (t : LexToken) : Item := .token t true

@[simp] theorem keep_inj (t u : LexToken) : keep t = keep u ↔ t = u := by simp [keep]
@[simp] theorem token_eq_keep (t u : LexToken) (k : Bool) :
    .token t k = keep u ↔ t = u ∧ k = true := by simp [keep]

def next : List Item → Except Fault (LexToken × List Item)
  | [] => .ok (⟨.END, []⟩, [])
  | .token t _ :: r => .ok (t, r)
  | .bad msg :: _ => throwParse msg

/-- The list after a lookahead at it. -/
def settle : List Item → List Item
  | .token _ false :: r => r
  | r => r

def peek (is : List Item) : Except Fault (LexToken × List Item) := do
  let (t, _) ← next is
  pure (t, settle is)

def source : TokenSource (List Item) := ⟨next, peek⟩

@[simp] theorem next_token (t : LexToken) (k : Bool) (r : List Item) :
    next (.token t k :: r) = .ok (t, r) := rfl
@[simp] theorem next_keep (t : LexToken) (r : List Item) : next (keep t :: r) = .ok (t, r) := rfl
@[simp] theorem settle_keep (t : LexToken) (r : List Item) :
    settle (keep t :: r) = keep t :: r := rfl
@[simp] theorem settle_drop (t : LexToken) (r : List Item) :
    settle (.token t false :: r) = r := rfl
@[simp] theorem peek_keep (t : LexToken) (r : List Item) :
    peek (keep t :: r) = .ok (t, keep t :: r) := rfl
@[simp] theorem peek_drop (t : LexToken) (r : List Item) :
    peek (.token t false :: r) = .ok (t, r) := rfl
@[simp] theorem source_next : source.nextToken = next := rfl
@[simp] theorem source_peek : source.peekToken = peek := rfl

theorem peek_eq_ok {is r : List Item} {t : LexToken} :
    peek is = .ok (t, r) ↔ (∃ r', next is = .ok (t, r')) ∧ r = settle is := by
  rw [peek, bind_eq_ok]
  constructor
  · rintro ⟨⟨t', r'⟩, h, h'⟩
    cases h'
    exact ⟨⟨r', h⟩, rfl⟩
  · rintro ⟨⟨r', h⟩, rfl⟩
    exact ⟨(t, r'), h, rfl⟩

/-- A lookahead at the list finds a token that is not `id`. -/
def Closes (id : TokenId) (is : List Item) : Prop :=
  ∃ t r, next is = .ok (t, r) ∧ t.id ≠ id

theorem closes_peek {id : TokenId} {is : List Item} (h : Closes id is) :
    ∃ t, peek is = .ok (t, settle is) ∧ t.id ≠ id := by
  obtain ⟨t, r, hn, hid⟩ := h
  exact ⟨t, peek_eq_ok.mpr ⟨⟨r, hn⟩, rfl⟩, hid⟩

theorem closes_nil {id : TokenId} (h : id ≠ .END) : Closes id [] :=
  ⟨_, _, rfl, fun he => h he.symm⟩

theorem closes_token {id : TokenId} {t : LexToken} {k : Bool} {r : List Item} (h : t.id ≠ id) :
    Closes id (.token t k :: r) := ⟨t, r, rfl, h⟩

/-- An item that a lookahead drops; never an `&&` or an `||`. -/
def Dropped : Item → Prop
  | .token t k => k = false ∧ t.id ≠ .AND ∧ t.id ≠ .OR
  | .bad _ => False

theorem settle_append_dropped {u : Item} (h : Dropped u) (r : List Item) :
    settle (u :: r) = r := by
  match u, h with
  | .token t false, _ => rfl

theorem closes_dropped {u : Item} (h : Dropped u) (r : List Item) :
    Closes .AND (u :: r) ∧ Closes .OR (u :: r) := by
  match u, h with
  | .token t k, ⟨_, hand, hor⟩ => exact ⟨closes_token hand, closes_token hor⟩

/-- What a lexer delivers: the fixed tokens with their own text, the tokens the
parser looks for always kept, and the end of the input never. -/
def Proper : Item → Prop
  | .bad _ => True
  | .token t k => match t.id with
    | .OR => t = orToken ∧ k = true
    | .AND => t = andToken ∧ k = true
    | .RIGHT => t = rightToken ∧ k = true
    | .LEFT => t = leftToken
    | .NOT => t = notToken
    | .OPERATOR => t.value ∈ Expression.operators
    | .END => k = false
    | _ => True

/-- The items are a factor, a term or an expression as the parser reads it. -/
inductive Read : Level → List Item → Source → Prop where
  | predicate (a op v : Bytes) (ka ko kv : Bool) (h : op ∈ Expression.operators) :
      Read .factor [.token (operandToken a) ka, .token (operatorToken op) ko,
        .token (operandToken v) kv] (.predicate ⟨a, op, v⟩)
  | not {is : List Item} {f : Source} (k : Bool) (h : Read .factor is f) :
      Read .factor (.token notToken k :: is) (.not f)
  | group {is us : List Item} {e : Source} (k : Bool) (h : Read .expression is e)
      (hu : ∀ u ∈ us, Dropped u) (hlen : us.length ≤ 2) :
      Read .factor (.token leftToken k :: is ++ us ++ [keep rightToken]) e
  | factor {is : List Item} {f : Source} (h : Read .factor is f) : Read .term is (.all [f])
  | and {is js : List Item} {f : Source} {fs : List Source} (hf : Read .factor is f)
      (h : Read .term js (.all fs)) : Read .term (is ++ keep andToken :: js) (.all (f :: fs))
  | term {is : List Item} {t : Source} (h : Read .term is t) : Read .expression is (.any [t])
  | or {is us js : List Item} {t : Source} {ts : List Source} (ht : Read .term is t)
      (hu : ∀ u ∈ us, Dropped u) (hlen : us.length ≤ 1) (h : Read .expression js (.any ts)) :
      Read .expression (is ++ us ++ keep orToken :: js) (.any (t :: ts))

theorem Read.plain {l : Level} {is : List Item} {s : Source} (h : Read l is s) : s.Plain := by
  induction h with
  | predicate a op v ka ko kv h => exact h
  | not k h ih => exact ih
  | group k h hu hlen ih => exact ih
  | factor h ih => exact ⟨ih, trivial⟩
  | and hf h ihf ih => exact ⟨ihf, ih⟩
  | term h ih => exact ⟨ih, trivial⟩
  | or ht hu hlen h iht ih => exact ⟨iht, ih⟩

theorem nothing_dropped : ∀ u ∈ ([] : List Item), Dropped u := by simp

/-- A documented derivation is one over kept items. -/
theorem Read.ofDerives {l : Level} {ts : List LexToken} {s : Source} (h : Derives l ts s) :
    Read l (ts.map keep) s := by
  induction h with
  | predicate a op v h => exact .predicate a op v true true true h
  | not h ih => exact .not true ih
  | group h ih => simpa [keep] using Read.group true ih nothing_dropped (by simp)
  | factor h ih => exact .factor ih
  | and hf h ihf ih => simpa using Read.and ihf ih
  | term h ih => exact .term ih
  | or ht h iht ih => simpa using Read.or iht nothing_dropped (by simp) ih

end Item

end Netplay
