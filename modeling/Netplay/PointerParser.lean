import Netplay.ExpressionHeap
import Netplay.QueryParser

/-!
# The parser as it allocates

`parser` of `query_parser.h` with the nodes it allocates, fills, rebuilds and deletes. An exception
leaves what has been allocated where it is. The fuel counts nested calls and loop rounds, as in the
parser of trees; `negate` gets twice as much, for its own calls and rounds.
-/

namespace Netplay.PointerParser

open Text Lexer HeapProgram
open QueryParser (TokenSource)
open Expression (cost costAll)

variable {σ : Type}

mutual

/-- `parser::exp`. -/
def exp (lex : TokenSource σ) : Nat → σ → NodeProgram (Nat × σ)
  | 0, _ => throw .fuel
  | n + 1, s => do
    let (t, s) ← term lex n s
    let (tok, s) ← lift (lex.peekToken s)
    if tok.id ≠ .OR then pure (t, s)
    else do
      let d ← new (.disjunction [])
      Node.pushBack d t
      let s ← expLoop lex n d s
      pure (d, s)

/-- The `while` loop of `exp`. -/
def expLoop (lex : TokenSource σ) : Nat → (d : Nat) → σ → NodeProgram σ
  | 0, _, _ => throw .fuel
  | n + 1, d, s => do
    let (tok, s) ← lift (lex.peekToken s)
    if tok.id = .OR then do
      let (_, s) ← lift (lex.nextToken s)
      let (t, s) ← term lex n s
      Node.pushBack d t
      expLoop lex n d s
    else pure s

/-- `parser::term`. -/
def term (lex : TokenSource σ) : Nat → σ → NodeProgram (Nat × σ)
  | 0, _ => throw .fuel
  | n + 1, s => do
    let (f, s) ← factor lex n s
    let (tok, s) ← lift (lex.peekToken s)
    if tok.id ≠ .AND then pure (f, s)
    else do
      let c ← new (.conjunction [])
      Node.pushBack c f
      let s ← termLoop lex n c s
      pure (c, s)

/-- The `while` loop of `term`. -/
def termLoop (lex : TokenSource σ) : Nat → (c : Nat) → σ → NodeProgram σ
  | 0, _, _ => throw .fuel
  | n + 1, c, s => do
    let (tok, s) ← lift (lex.peekToken s)
    if tok.id = .AND then do
      let (_, s) ← lift (lex.nextToken s)
      let (f, s) ← factor lex n s
      Node.pushBack c f
      termLoop lex n c s
    else pure s

/-- `parser::factor`. -/
def factor (lex : TokenSource σ) : Nat → σ → NodeProgram (Nat × σ)
  | 0, _ => throw .fuel
  | n + 1, s => do
    let (tok, s) ← lift (lex.nextToken s)
    if tok.id = .NOT then do
      let (f, s) ← factor lex n s
      let e ← Node.negate (2 * n) f
      pure (e, s)
    else if tok.id = .LEFT then do
      let (e, s) ← exp lex n s
      let (right, s) ← lift (lex.nextToken s)
      if right.id ≠ .RIGHT then lift (throwParse (lit "Could not find matching right parenthesis"))
      else pure (e, s)
    else if tok.id = .OPERAND then do
      let p ← new (.predicate ⟨[], [], []⟩)
      put .undefined p (some (.predicate ⟨tok.value, [], []⟩))
      let (op, s) ← lift (lex.nextToken s)
      if op.id ≠ .OPERATOR then
        lift (throwParse (lit "First operand must be followed by operator in all predicates"))
      else do
        put .undefined p (some (.predicate ⟨tok.value, op.value, []⟩))
        let (operand, s) ← lift (lex.nextToken s)
        if operand.id ≠ .OPERAND then
          lift (throwParse (lit "Operand must be followed by operator in all predicates"))
        else do
          put .undefined p (some (.predicate ⟨tok.value, op.value, operand.value⟩))
          pure (p, s)
    else lift (throwParse (lit "Unexpected token " ++ tok.value))

end

/-- `parser::parse` from a given state of the token source. -/
def parseFrom (lex : TokenSource σ) (n : Nat) (s : σ) : NodeProgram Nat := do
  let (e, s) ← exp lex n s
  let (tok, _) ← lift (lex.nextToken s)
  if tok.id ≠ .END then lift (throwParse (lit "Parsing ended prematurely"))
  else pure e

/-- `parser(exp).parse()`. -/
def parse (text : Bytes) : NodeProgram Nat :=
  parseFrom QueryParser.lex (QueryParser.enough text.length) (.str text)

/-! ## Against the parser of trees -/

/-- The pointer and the tree that a function of the parser returns, with the same tokens left. -/
def Parsed (n : Nat) (x : Nat × σ) (y : Expression × σ) (h : Heap Node) (F : Set Nat) : Prop :=
  x.2 = y.2 ∧ cost y.1 ≤ 2 * n ∧ Rep h y.1 x.1 F

/-- A loop of the parser has put the trees it has read behind those of its gate. -/
def Filled (g : Gate) (ds : List Expression) (d n : Nat) (s : σ) (y : List Expression × σ)
    (h : Heap Node) (F : Set Nat) : Prop :=
  s = y.2 ∧ costAll y.1 ≤ 2 * n ∧ Rep h (g.tree (ds ++ y.1)) d F

/-- A function that reads a tree. -/
def Reads (m : σ → NodeProgram (Nat × σ)) (r : σ → Except Fault (Expression × σ)) (n : Nat) : Prop :=
  ∀ (s : σ) (h : Heap Node), Refines (m s) h ∅ (r s) (Parsed n)

/-- A loop that reads trees into a gate. -/
def ReadsInto (g : Gate) (m : Nat → σ → NodeProgram σ)
    (r : σ → Except Fault (List Expression × σ)) (n : Nat) : Prop :=
  ∀ (s : σ) (h : Heap Node) (ds : List Expression) (d : Nat) (D : Set Nat), Rep h (g.tree ds) d D →
    Refines (m d s) h D (r s) (Filled g ds d n)

theorem cost_tree_le {g : Gate} {t : Expression} {ts : List Expression} {n : Nat}
    (ht : cost t ≤ 2 * n) (hts : costAll ts ≤ 2 * n) : cost (g.tree (t :: ts)) ≤ 2 * (n + 1) := by
  rw [g.cost_tree, costAll]
  omega

/-- A tree that a loop has read goes into its gate, and the loop goes on. -/
theorem pushBack_refines {g : Gate} {m : Nat → σ → NodeProgram σ}
    {r : σ → Except Fault (List Expression × σ)} {x : σ → NodeProgram (Nat × σ)}
    {y : σ → Except Fault (Expression × σ)} {n : Nat} (ht : Reads x y n) (hl : ReadsInto g m r n)
    (s : σ) {h : Heap Node} {ds : List Expression} {d : Nat} {D : Set Nat}
    (hd : Rep h (g.tree ds) d D) :
    Refines
      (do
        let (t, s) ← x s
        Node.pushBack d t
        m d s) h D
      (do
        let (t, s) ← y s
        let (ts, s) ← r s
        pure (t :: ts, s)) (Filled g ds d (n + 1)) := by
  have hx := (ht s h).framed hd.live fun _ _ hin => hin
  rw [Set.empty_union] at hx
  refine .bind hx ?_
  rintro ⟨a, s₁⟩ ⟨t, s₁'⟩ h₁ _ ⟨F, rfl, ⟨hs, hcost, hrep⟩, hdF, hsame⟩ -
  obtain rfl : s₁ = s₁' := hs
  dsimp only at hcost hrep ⊢
  obtain ⟨h₂, hpush, hd₂, hu₂⟩ := g.pushBack_run (hd.same hsame) hrep hdF
  rw [Set.union_comm F D]
  refine .step hpush hu₂ (.map (fun z : List Expression × σ => (t :: z.1, z.2)) (hl s₁ h₂ _ d _ hd₂) ?_)
  rintro s₂ ⟨ts, s₂'⟩ h₃ X ⟨hs, hcosts, hd₃⟩
  rw [List.append_assoc] at hd₃
  refine ⟨hs, ?_, hd₃⟩
  dsimp only at hcosts ⊢
  rw [costAll]
  omega

/-- The gate is made for the first tree, and the loop fills it. -/
theorem gate_refines {g : Gate} {m : Nat → σ → NodeProgram σ}
    {r : σ → Except Fault (List Expression × σ)} {n : Nat} (hl : ReadsInto g m r n) (s : σ)
    {h : Heap Node} {t : Expression} {a : Nat} {F : Set Nat} (hcost : cost t ≤ 2 * n)
    (ht : Rep h t a F) :
    Refines
      (do
        let d ← new (g.node [])
        Node.pushBack d a
        let s ← m d s
        pure (d, s)) h F
      (do
        let (ts, s) ← r s
        pure (g.tree (t :: ts), s)) (Parsed (n + 1)) := by
  have hne : ∀ y ∈ F, y ≠ h.next := fun y hy => Nat.ne_of_lt (ht.live.lt hy)
  have ht₁ : Rep (h.alloc (g.node [])) t a F := ht.same fun y hy => Heap.alloc_other h _ (hne y hy)
  obtain ⟨h₂, hpush, hd, hu⟩ := g.pushBack_run (g.rep_new h) ht₁ fun y hy hin => hne y hin hy
  have hnew := (Heap.Updates.alloc h (g.node [])).framed ht.live fun _ _ hin => hin
  rw [Set.empty_union] at hnew
  refine .step rfl hnew (.step hpush hu (.bind (hl s h₂ _ _ _ hd) ?_))
  rintro s₁ ⟨ts, s₁'⟩ h₃ X ⟨hs, hcosts, hd₃⟩ -
  obtain rfl : s₁ = s₁' := hs
  exact .pure hd₃.live ⟨rfl, cost_tree_le hcost hcosts, hd₃⟩

theorem expLoop_step {lex : TokenSource σ} {n : Nat}
    (ht : Reads (term lex n) (QueryParser.term lex n) n)
    (hl : ReadsInto .or (expLoop lex n) (QueryParser.expLoop lex n) n) :
    ReadsInto .or (expLoop lex (n + 1)) (QueryParser.expLoop lex (n + 1)) (n + 1) := by
  intro s h ds d D hd
  rw [expLoop, QueryParser.expLoop]
  refine .bind (.lift hd.live _) ?_
  rintro ⟨tok, s₁⟩ _ _ _ ⟨rfl, rfl, rfl⟩ -
  dsimp only
  by_cases hor : tok.id = .OR
  · rw [if_pos hor, if_pos hor]
    refine .bind (.lift hd.live _) ?_
    rintro ⟨tok', s₂⟩ _ _ _ ⟨rfl, rfl, rfl⟩ -
    exact pushBack_refines ht hl s₂ hd
  · rw [if_neg hor, if_neg hor]
    refine .pure hd.live ⟨rfl, ?_, ?_⟩
    · rw [costAll]
      omega
    · rwa [List.append_nil]

theorem termLoop_step {lex : TokenSource σ} {n : Nat}
    (ht : Reads (factor lex n) (QueryParser.factor lex n) n)
    (hl : ReadsInto .and (termLoop lex n) (QueryParser.termLoop lex n) n) :
    ReadsInto .and (termLoop lex (n + 1)) (QueryParser.termLoop lex (n + 1)) (n + 1) := by
  intro s h ds d D hd
  rw [termLoop, QueryParser.termLoop]
  refine .bind (.lift hd.live _) ?_
  rintro ⟨tok, s₁⟩ _ _ _ ⟨rfl, rfl, rfl⟩ -
  dsimp only
  by_cases hand : tok.id = .AND
  · rw [if_pos hand, if_pos hand]
    refine .bind (.lift hd.live _) ?_
    rintro ⟨tok', s₂⟩ _ _ _ ⟨rfl, rfl, rfl⟩ -
    exact pushBack_refines ht hl s₂ hd
  · rw [if_neg hand, if_neg hand]
    refine .pure hd.live ⟨rfl, ?_, ?_⟩
    · rw [costAll]
      omega
    · rwa [List.append_nil]

theorem exp_step {lex : TokenSource σ} {n : Nat}
    (ht : Reads (term lex n) (QueryParser.term lex n) n)
    (hl : ReadsInto .or (expLoop lex n) (QueryParser.expLoop lex n) n) :
    Reads (exp lex (n + 1)) (QueryParser.exp lex (n + 1)) (n + 1) := by
  intro s h
  rw [exp, QueryParser.exp]
  refine .bind (ht s h) ?_
  rintro ⟨a, s₁⟩ ⟨t, s₁'⟩ h₁ F ⟨hs, hcost, hrep⟩ -
  obtain rfl : s₁ = s₁' := hs
  refine .bind (.lift hrep.live _) ?_
  rintro ⟨tok, s₂⟩ _ _ _ ⟨rfl, rfl, rfl⟩ -
  dsimp only at hcost hrep ⊢
  by_cases hor : tok.id = .OR
  · rw [if_neg (not_not.mpr hor), if_neg (not_not.mpr hor)]
    exact gate_refines hl s₂ hcost hrep
  · rw [if_pos hor, if_pos hor]
    exact .pure hrep.live ⟨rfl, Nat.le_trans hcost (by omega), hrep⟩

theorem term_step {lex : TokenSource σ} {n : Nat}
    (ht : Reads (factor lex n) (QueryParser.factor lex n) n)
    (hl : ReadsInto .and (termLoop lex n) (QueryParser.termLoop lex n) n) :
    Reads (term lex (n + 1)) (QueryParser.term lex (n + 1)) (n + 1) := by
  intro s h
  rw [term, QueryParser.term]
  refine .bind (ht s h) ?_
  rintro ⟨a, s₁⟩ ⟨t, s₁'⟩ h₁ F ⟨hs, hcost, hrep⟩ -
  obtain rfl : s₁ = s₁' := hs
  refine .bind (.lift hrep.live _) ?_
  rintro ⟨tok, s₂⟩ _ _ _ ⟨rfl, rfl, rfl⟩ -
  dsimp only at hcost hrep ⊢
  by_cases hand : tok.id = .AND
  · rw [if_neg (not_not.mpr hand), if_neg (not_not.mpr hand)]
    exact gate_refines hl s₂ hcost hrep
  · rw [if_pos hand, if_pos hand]
    exact .pure hrep.live ⟨rfl, Nat.le_trans hcost (by omega), hrep⟩

/-- A predicate is allocated for its first operand, before the rest of it is read. -/
theorem predicate_refines {lex : TokenSource σ} (tok : LexToken) (s : σ) (h : Heap Node) (n : Nat) :
    Refines
      (do
        let p ← new (.predicate ⟨[], [], []⟩)
        put .undefined p (some (.predicate ⟨tok.value, [], []⟩))
        let (op, s) ← lift (lex.nextToken s)
        if op.id ≠ .OPERATOR then
          lift (throwParse (lit "First operand must be followed by operator in all predicates"))
        else do
          put .undefined p (some (.predicate ⟨tok.value, op.value, []⟩))
          let (operand, s) ← lift (lex.nextToken s)
          if operand.id ≠ .OPERAND then
            lift (throwParse (lit "Operand must be followed by operator in all predicates"))
          else do
            put .undefined p (some (.predicate ⟨tok.value, op.value, operand.value⟩))
            pure (p, s)) h ∅
      (do
        let (op, s) ← lex.nextToken s
        if op.id ≠ .OPERATOR then
          throwParse (lit "First operand must be followed by operator in all predicates")
        else do
          let (operand, s) ← lex.nextToken s
          if operand.id ≠ .OPERAND then
            throwParse (lit "Operand must be followed by operator in all predicates")
          else pure (.predicate ⟨tok.value, op.value, operand.value⟩, s)) (Parsed (n + 1)) := by
  -- the cell of the predicate through its three stores
  have hstore : ∀ {h : Heap Node} {a : Nat} {p : Predicate} (q : Predicate),
      Rep h (.predicate p) a {a} → ∃ h', put Fault.undefined a (some (.predicate q)) h = (.ok (), h') ∧
        Rep h' (.predicate q) a {a} ∧ Heap.Updates h h' {a} {a} := fun q hp =>
    ⟨_, put_run _ hp.1 _, ⟨Heap.set_self .., rfl⟩, .write (Heap.lt_next hp.1) _⟩
  have hnew : Rep (h.alloc (.predicate ⟨[], [], []⟩)) (.predicate ⟨[], [], []⟩) h.next {h.next} :=
    ⟨Heap.alloc_self h _, rfl⟩
  obtain ⟨h₁, hrun₁, hrep₁, hu₁⟩ := hstore ⟨tok.value, [], []⟩ hnew
  refine .step rfl (.alloc h _) (.step hrun₁ hu₁ (.bind (.lift hrep₁.live _) ?_))
  rintro ⟨op, s₁⟩ _ _ _ ⟨rfl, rfl, rfl⟩ -
  dsimp only
  by_cases hop : op.id = .OPERATOR
  · rw [if_neg (not_not.mpr hop), if_neg (not_not.mpr hop)]
    obtain ⟨h₂, hrun₂, hrep₂, hu₂⟩ := hstore ⟨tok.value, op.value, []⟩ hrep₁
    refine .step hrun₂ hu₂ (.bind (.lift hrep₂.live _) ?_)
    rintro ⟨operand, s₂⟩ _ _ _ ⟨rfl, rfl, rfl⟩ -
    dsimp only
    by_cases hoperand : operand.id = .OPERAND
    · rw [if_neg (not_not.mpr hoperand), if_neg (not_not.mpr hoperand)]
      obtain ⟨h₃, hrun₃, hrep₃, hu₃⟩ := hstore ⟨tok.value, op.value, operand.value⟩ hrep₂
      refine .step hrun₃ hu₃ (.pure hrep₃.live ⟨rfl, ?_, hrep₃⟩)
      rw [cost]
      omega
    · rw [if_pos hoperand, if_pos hoperand]
      exact .throw hrep₂.live _
  · rw [if_pos hop, if_pos hop]
    exact .throw hrep₁.live _

theorem factor_step {lex : TokenSource σ} {n : Nat}
    (hf : Reads (factor lex n) (QueryParser.factor lex n) n)
    (he : Reads (exp lex n) (QueryParser.exp lex n) n) :
    Reads (factor lex (n + 1)) (QueryParser.factor lex (n + 1)) (n + 1) := by
  intro s h
  have hempty : h.Live ∅ := fun y hy => hy.elim
  rw [factor, QueryParser.factor]
  refine .bind (.lift hempty _) ?_
  rintro ⟨tok, s₁⟩ _ h _ ⟨rfl, rfl, rfl⟩ -
  dsimp only
  by_cases hnot : tok.id = .NOT
  · rw [if_pos hnot, if_pos hnot]
    refine .bind (hf s₁ h) ?_
    rintro ⟨a, s₂⟩ ⟨t, s₂'⟩ h₁ F ⟨hs, hcost, hrep⟩ -
    obtain rfl : s₂ = s₂' := hs
    dsimp only at hcost hrep ⊢
    refine .bind ((negate_refines _).1 hcost hrep).known ?_
    rintro b e h₂ F' ⟨hrep', hneg⟩ -
    refine .pure hrep'.live ⟨rfl, ?_, hrep'⟩
    exact Nat.le_trans (Expression.cost_negate hneg) (Nat.le_trans hcost (by omega))
  · rw [if_neg hnot, if_neg hnot]
    by_cases hleft : tok.id = .LEFT
    · rw [if_pos hleft, if_pos hleft]
      refine .bind (he s₁ h) ?_
      rintro ⟨a, s₂⟩ ⟨t, s₂'⟩ h₁ F ⟨hs, hcost, hrep⟩ -
      obtain rfl : s₂ = s₂' := hs
      dsimp only at hcost hrep ⊢
      refine .bind (.lift hrep.live _) ?_
      rintro ⟨right, s₃⟩ _ _ _ ⟨rfl, rfl, rfl⟩ -
      dsimp only
      by_cases hright : right.id = .RIGHT
      · rw [if_neg (not_not.mpr hright), if_neg (not_not.mpr hright)]
        exact .pure hrep.live ⟨rfl, Nat.le_trans hcost (by omega), hrep⟩
      · rw [if_pos hright, if_pos hright]
        exact .throw hrep.live _
    · rw [if_neg hleft, if_neg hleft]
      by_cases hoperand : tok.id = .OPERAND
      · rw [if_pos hoperand, if_pos hoperand]
        exact predicate_refines tok s₁ h n
      · rw [if_neg hoperand, if_neg hoperand]
        exact .throw hempty _

/-- All functions of the parser at one fuel. -/
structure AllRead (lex : TokenSource σ) (n : Nat) : Prop where
  exp : Reads (exp lex n) (QueryParser.exp lex n) n
  expLoop : ReadsInto .or (expLoop lex n) (QueryParser.expLoop lex n) n
  term : Reads (term lex n) (QueryParser.term lex n) n
  termLoop : ReadsInto .and (termLoop lex n) (QueryParser.termLoop lex n) n
  factor : Reads (factor lex n) (QueryParser.factor lex n) n

theorem allRead (lex : TokenSource σ) (n : Nat) : AllRead lex n := by
  induction n with
  | zero =>
    refine ⟨fun s h => ?_, fun s h ds d D hd => ?_, fun s h => ?_, fun s h ds d D hd => ?_,
      fun s h => ?_⟩
    · exact .throw (fun y hy => hy.elim) _
    · exact .throw hd.live _
    · exact .throw (fun y hy => hy.elim) _
    · exact .throw hd.live _
    · exact .throw (fun y hy => hy.elim) _
  | succ n ih =>
    exact ⟨exp_step ih.term ih.expLoop, expLoop_step ih.term ih.expLoop,
      term_step ih.factor ih.termLoop, termLoop_step ih.factor ih.termLoop,
      factor_step ih.factor ih.exp⟩

/-- The pointer to a tree. -/
def Built (n : Nat) (a : Nat) (e : Expression) (h : Heap Node) (F : Set Nat) : Prop :=
  cost e ≤ 2 * n ∧ Rep h e a F

theorem parseFrom_refines (lex : TokenSource σ) (n : Nat) (s : σ) (h : Heap Node) :
    Refines (parseFrom lex n s) h ∅ (QueryParser.parseFrom lex n s) (Built n) := by
  rw [parseFrom, QueryParser.parseFrom]
  refine .bind ((allRead lex n).exp s h) ?_
  rintro ⟨a, s₁⟩ ⟨t, s₁'⟩ h₁ F ⟨hs, hcost, hrep⟩ -
  obtain rfl : s₁ = s₁' := hs
  dsimp only at hcost hrep ⊢
  refine .bind (.lift hrep.live _) ?_
  rintro ⟨tok, s₂⟩ _ _ _ ⟨rfl, rfl, rfl⟩ -
  dsimp only
  by_cases hend : tok.id = .END
  · rw [if_neg (not_not.mpr hend), if_neg (not_not.mpr hend)]
    exact .pure hrep.live ⟨hcost, hrep⟩
  · rw [if_pos hend, if_pos hend]
    exact .throw hrep.live _

/-- What the parser allocates is the tree: a text is parsed, or rejected with the same exception, as
by the parser of trees; of a parsed text the nodes left are the tree, each at an address of its own,
and in any case every node that was there before is as it was. -/
theorem parse_refines (text : Bytes) (h : Heap Node) :
    match QueryParser.parse text with
    | .ok e => ∃ a h' F, parse text h = (.ok a, h') ∧ Rep h' e a F ∧
        (∀ x, h.next ≤ x → ((h'.cells x).isSome ↔ x ∈ F)) ∧ ∀ x, x < h.next → h'.cells x = h.cells x
    | .error f => ∃ h', parse text h = (.error f, h') ∧ ∀ x, x < h.next → h'.cells x = h.cells x := by
  have hparse := parseFrom_refines QueryParser.lex (QueryParser.enough text.length) (.str text) h
  change Refines (parse text) h ∅ (QueryParser.parse text) _ at hparse
  cases hr : QueryParser.parse text with
  | ok e =>
    rw [hr] at hparse
    obtain ⟨a, h', F, hrun, ⟨-, hrep⟩, hu⟩ := hparse
    exact ⟨a, h', F, hrun, hrep, fun x hx => hu.live x (.inr hx),
      fun x hx => hu.frame x (fun hin => hin) hx⟩
  | error f =>
    rw [hr] at hparse
    obtain ⟨h', F, hrun, hu⟩ := hparse
    exact ⟨h', hrun, fun x hx => hu.frame x (fun hin => hin) hx⟩

/-! ## The builders -/

/-- A `cast_builder` or `character_builder` from its constructor to its destructor. -/
def builder (text : Bytes) : NodeProgram Unit := do
  let exp ← parse text
  Node.freeExpression (2 * QueryParser.enough text.length) exp

/-- A builder on a text that is parsed deletes every node it has allocated, those that `negate` has
made and those it has kept, and no node twice; the memory is as it was before. -/
theorem builder_restores {text : Bytes} {e : Expression} (he : QueryParser.parse text = .ok e)
    (h : Heap Node) : ∃ h', builder text h = (.ok (), h') ∧ h'.cells = h.cells := by
  have hparse := parseFrom_refines QueryParser.lex (QueryParser.enough text.length) (.str text) h
  change Refines (parse text) h ∅ (QueryParser.parse text) _ at hparse
  rw [he] at hparse
  obtain ⟨a, h₁, F, hrun, ⟨hcost, hrep⟩, hu⟩ := hparse
  obtain ⟨_, h₂, X, hfree, rfl, hu'⟩ := (free_refines _).1 hcost hrep
  refine ⟨h₂, ?_, Heap.Updates.restored ((hu.trans hu' fun _ hin => hin).congr fun x => ?_)⟩
  · rw [builder, bind_ok hrun]
    exact hfree
  · simp only [Set.mem_ofPred_eq]
    exact ⟨fun hin => hin.elim id fun hno => absurd hno.1 hno.2, Or.inl⟩

theorem builder_restores_negated : ∃ h' : Heap Node,
    builder (lit "!(a<b||c in d)") .empty = (.ok (), h') ∧ ∀ a, h'.cells a = none := by
  have hok : (QueryParser.parse (lit "!(a<b||c in d)")).toBool = true := by decide +kernel
  cases he : QueryParser.parse (lit "!(a<b||c in d)") with
  | error f => rw [he] at hok; cases hok
  | ok e =>
    obtain ⟨h', hrun, hcells⟩ := builder_restores he .empty
    exact ⟨h', hrun, fun a => by rw [hcells]; rfl⟩

end Netplay.PointerParser
