import Netplay.CellHeap
import Netplay.Expression

/-!
# Expressions in memory

The nodes of `expression.h` with their pointers, `parser::negate` as it rebuilds them, and
`free_expression`. A node is loaded again each time the source reads it through its pointer. The
fuel counts nested calls and loop rounds.
-/

namespace Netplay

open Text HeapProgram

/-- `predicate`, `conjunction`, `disjunction` and `negation`. -/
inductive Node where
  | predicate : Predicate → Node
  | conjunction : (children : List Nat) → Node
  | disjunction : (children : List Nat) → Node
  | negation : (child : Nat) → Node
  deriving DecidableEq, Repr

abbrev NodeProgram := HeapProgram Node Fault

namespace Node

/-- `children` of a conjunction or a disjunction. -/
def children (a : Nat) : NodeProgram (List Nat) := do
  match ← load .undefined a with
  | .conjunction cs => pure cs
  | .disjunction cs => pure cs
  | _ => throw .undefined

/-- `children.push_back`. -/
def pushBack (a x : Nat) : NodeProgram Unit := do
  match ← load .undefined a with
  | .conjunction cs => put .undefined a (some (.conjunction (cs ++ [x])))
  | .disjunction cs => put .undefined a (some (.disjunction (cs ++ [x])))
  | _ => throw .undefined

/-- `delete`. -/
def delete (a : Nat) : NodeProgram Unit := put .undefined a none

mutual

/-- `parser::negate(expression* exp)`. -/
def negate : Nat → Nat → NodeProgram Nat
  | 0, _ => throw .fuel
  | n + 1, a => do
    match ← load .undefined a with
    | .conjunction _ => do
      let d ← new (.disjunction [])
      negateLoop n a d 0
      delete a
      pure d
    | .disjunction _ => do
      let c ← new (.conjunction [])
      negateLoop n a c 0
      delete a
      pure c
    | .negation e => do
      delete a
      pure e
    | .predicate p => do
      let op ← lift (Expression.negateOp p.op)
      put .undefined a (some (.predicate { p with op := op }))
      pure a

/-- The loop over the children of `src` from the `i`-th on, which fills `dst`. -/
def negateLoop : Nat → (src dst i : Nat) → NodeProgram Unit
  | 0, _, _, _ => throw .fuel
  | n + 1, src, dst, i => do
    let cs ← children src
    match cs[i]? with
    | some child => do
      let x ← negate n child
      pushBack dst x
      negateLoop n src dst (i + 1)
    | none => pure ()

end

mutual

/-- `free_expression`. -/
def freeExpression : Nat → Nat → NodeProgram Unit
  | 0, _ => throw .fuel
  | n + 1, a => do
    match ← load .undefined a with
    | .predicate _ => delete a
    | .negation e => do
      freeExpression n e
      delete a
    | .conjunction _ => do
      freeLoop n a 0
      delete a
    | .disjunction _ => do
      freeLoop n a 0
      delete a

/-- The loop over the children from the `i`-th on. -/
def freeLoop : Nat → (a i : Nat) → NodeProgram Unit
  | 0, _, _ => throw .fuel
  | n + 1, a, i => do
    let cs ← children a
    match cs[i]? with
    | some child => do
      freeExpression n child
      freeLoop n a (i + 1)
    | none => pure ()

end

end Node

/-! ## Trees in memory -/

mutual

/-- The tree at an address, and the cells it consists of; no cell belongs to two nodes. -/
def Rep (h : Heap Node) : Expression → Nat → Set Nat → Prop
  | .predicate p, a, F => h.cells a = some (.predicate p) ∧ F = {a}
  | .conjunction es, a, F => ∃ as G, h.cells a = some (.conjunction as) ∧ Reps h es as G ∧ a ∉ G ∧
      F = G ∪ {a}
  | .disjunction es, a, F => ∃ as G, h.cells a = some (.disjunction as) ∧ Reps h es as G ∧ a ∉ G ∧
      F = G ∪ {a}
  | .negation e, a, F => ∃ b G, h.cells a = some (.negation b) ∧ Rep h e b G ∧ a ∉ G ∧ F = G ∪ {a}

def Reps (h : Heap Node) : List Expression → List Nat → Set Nat → Prop
  | [], as, F => as = [] ∧ F = ∅
  | e :: es, as, F => ∃ a bs G G', as = a :: bs ∧ Rep h e a G ∧ Reps h es bs G' ∧
      (∀ x ∈ G, x ∉ G') ∧ F = G ∪ G'

end

mutual

/-- Cells with the same content hold the same tree. -/
theorem Rep.same {h h' : Heap Node} : ∀ {e : Expression} {a : Nat} {F : Set Nat}, Rep h e a F →
    (∀ x ∈ F, h'.cells x = h.cells x) → Rep h' e a F
  | .predicate _, _, _, hr, heq => by
    obtain ⟨ha, rfl⟩ := hr
    exact ⟨(heq _ rfl).trans ha, rfl⟩
  | .conjunction _, _, _, hr, heq => by
    obtain ⟨as, G, ha, hs, hnot, rfl⟩ := hr
    exact ⟨as, G, (heq _ (.inr rfl)).trans ha, hs.same fun x hx => heq x (.inl hx), hnot, rfl⟩
  | .disjunction _, _, _, hr, heq => by
    obtain ⟨as, G, ha, hs, hnot, rfl⟩ := hr
    exact ⟨as, G, (heq _ (.inr rfl)).trans ha, hs.same fun x hx => heq x (.inl hx), hnot, rfl⟩
  | .negation _, _, _, hr, heq => by
    obtain ⟨b, G, ha, hs, hnot, rfl⟩ := hr
    exact ⟨b, G, (heq _ (.inr rfl)).trans ha, hs.same fun x hx => heq x (.inl hx), hnot, rfl⟩

theorem Reps.same {h h' : Heap Node} : ∀ {es : List Expression} {as : List Nat} {F : Set Nat},
    Reps h es as F → (∀ x ∈ F, h'.cells x = h.cells x) → Reps h' es as F
  | [], _, _, hs, _ => hs
  | _ :: _, _, _, hs, heq => by
    obtain ⟨a, bs, G, G', rfl, hr, hs, hd, rfl⟩ := hs
    exact ⟨a, bs, G, G', rfl, hr.same fun x hx => heq x (.inl hx),
      hs.same fun x hx => heq x (.inr hx), hd, rfl⟩

end

mutual

/-- All cells of a tree are there. -/
theorem Rep.live {h : Heap Node} : ∀ {e : Expression} {a : Nat} {F : Set Nat}, Rep h e a F → h.Live F
  | .predicate _, _, _, hr => by
    obtain ⟨ha, rfl⟩ := hr
    rintro x rfl
    rw [ha]
    rfl
  | .conjunction _, _, _, hr => by
    obtain ⟨as, G, ha, hs, -, rfl⟩ := hr
    rintro x (hx | rfl)
    · exact hs.live x hx
    · rw [ha]
      rfl
  | .disjunction _, _, _, hr => by
    obtain ⟨as, G, ha, hs, -, rfl⟩ := hr
    rintro x (hx | rfl)
    · exact hs.live x hx
    · rw [ha]
      rfl
  | .negation _, _, _, hr => by
    obtain ⟨b, G, ha, hs, -, rfl⟩ := hr
    rintro x (hx | rfl)
    · exact hs.live x hx
    · rw [ha]
      rfl

theorem Reps.live {h : Heap Node} : ∀ {es : List Expression} {as : List Nat} {F : Set Nat},
    Reps h es as F → h.Live F
  | [], _, _, hs => by
    obtain ⟨-, rfl⟩ := hs
    exact fun x hx => hx.elim
  | _ :: _, _, _, hs => by
    obtain ⟨a, bs, G, G', -, hr, hs, -, rfl⟩ := hs
    rintro x (hx | hx)
    · exact hr.live x hx
    · exact hs.live x hx

end

/-- One more tree behind the others. -/
theorem Reps.snoc {h : Heap Node} {e : Expression} {x : Nat} {X : Set Nat} (hr : Rep h e x X) :
    ∀ {es : List Expression} {as : List Nat} {F : Set Nat}, Reps h es as F → (∀ y ∈ F, y ∉ X) →
      Reps h (es ++ [e]) (as ++ [x]) (F ∪ X)
  | [], _, _, hs, _ => by
    obtain ⟨rfl, rfl⟩ := hs
    exact ⟨x, [], X, ∅, rfl, hr, ⟨rfl, rfl⟩, fun _ _ hin => hin, Set.union_comm _ _⟩
  | _ :: _, _, _, hs, hd => by
    obtain ⟨a, bs, G, G', rfl, hr', hs, hd', rfl⟩ := hs
    refine ⟨a, bs ++ [x], G, G' ∪ X, rfl, hr', hs.snoc hr fun y hy => hd y (.inr hy), ?_,
      Set.union_assoc _ _ _⟩
    rintro y hy (hin | hin)
    · exact hd' y hy hin
    · exact hd y (.inl hy) hin

/-! ## Conjunctions and disjunctions alike -/

inductive Gate where
  | and : Gate
  | or : Gate

namespace Gate

def tree : Gate → List Expression → Expression
  | .and => .conjunction
  | .or => .disjunction

def node : Gate → List Nat → Node
  | .and => .conjunction
  | .or => .disjunction

theorem rep_iff (g : Gate) {h : Heap Node} {es : List Expression} {a : Nat} {F : Set Nat} :
    Rep h (g.tree es) a F ↔ ∃ as G, h.cells a = some (g.node as) ∧ Reps h es as G ∧ a ∉ G ∧
      F = G ∪ {a} := by
  cases g <;> exact Iff.rfl

theorem children_run (g : Gate) {h : Heap Node} {a : Nat} {as : List Nat}
    (ha : h.cells a = some (g.node as)) : Node.children a h = (.ok as, h) := by
  rw [Node.children, bind_ok (load_run _ ha)]
  cases g <;> rfl

/-- A gate without children, just allocated. -/
theorem rep_new (g : Gate) (h : Heap Node) :
    Rep (h.alloc (g.node [])) (g.tree []) h.next {h.next} := by
  rw [g.rep_iff]
  exact ⟨[], ∅, Heap.alloc_self h _, ⟨rfl, rfl⟩, fun hin => hin, (Set.empty_union _).symm⟩

/-- A child that the owner of a gate owns besides becomes part of it. -/
theorem pushBack_run (g : Gate) {h : Heap Node} {ds : List Expression} {e : Expression} {d x : Nat}
    {D X : Set Nat} (hd : Rep h (g.tree ds) d D) (hx : Rep h e x X) (hapart : ∀ y ∈ D, y ∉ X) :
    ∃ h', Node.pushBack d x h = (.ok (), h') ∧ Rep h' (g.tree (ds ++ [e])) d (D ∪ X) ∧
      Heap.Updates h h' (D ∪ X) (D ∪ X) := by
  obtain ⟨as, G, hcell, hs, hnot, rfl⟩ := g.rep_iff.mp hd
  have hlt := Heap.lt_next hcell
  have hrun : Node.pushBack d x h = (.ok (), h.set d (some (g.node (as ++ [x]))) hlt) := by
    rw [Node.pushBack, bind_ok (load_run _ hcell)]
    cases g <;> exact put_run _ hcell _
  have hother : ∀ y, y ≠ d → (h.set d (some (g.node (as ++ [x]))) hlt).cells y = h.cells y :=
    fun y hy => Heap.set_other h _ hlt hy
  have hG : ∀ y ∈ G, y ≠ d := fun y hy heq => hnot (heq ▸ hy)
  have hX : ∀ y ∈ X, y ≠ d := fun y hy heq => hapart d (.inr rfl) (heq ▸ hy)
  refine ⟨_, hrun, g.rep_iff.mpr ⟨as ++ [x], G ∪ X, Heap.set_self h d _ hlt, ?_, ?_, ?_⟩, ?_⟩
  · exact (hs.same fun y hy => hother y (hG y hy)).snoc (hx.same fun y hy => hother y (hX y hy))
      fun y hy => hapart y (.inl hy)
  · rintro (hin | hin)
    · exact hnot hin
    · exact hX d hin rfl
  · rw [Set.union_assoc, Set.union_comm {d} X, Set.union_assoc]
  · have hwrite := (Heap.Updates.write hlt (g.node (as ++ [x]))).framed (R := G ∪ X) ?_ ?_
    · rwa [Set.union_comm {d} (G ∪ X), Set.union_assoc, Set.union_comm X {d}, ← Set.union_assoc]
        at hwrite
    · rintro y (hy | hy)
      · exact hs.live y hy
      · exact hx.live y hy
    · rintro y (hy | hy) rfl
      · exact hnot hy
      · exact hX _ hy rfl

end Gate

/-! ## Negation and deletion -/

namespace Expression

mutual

/-- Nested calls and loop rounds that a tree takes. -/
def cost : Expression → Nat
  | .predicate _ => 1
  | .conjunction es => 1 + costAll es
  | .disjunction es => 1 + costAll es
  | .negation e => 1 + cost e

def costAll : List Expression → Nat
  | [] => 1
  | e :: es => 1 + max (cost e) (costAll es)

end

end Expression

open Expression (cost costAll)

mutual

/-- Negation makes no tree larger. -/
theorem Expression.cost_negate : ∀ {e e' : Expression}, e.negate = .ok e' → cost e' ≤ cost e
  | .predicate p, e', h => by
    rw [Expression.negate] at h
    obtain ⟨op, -, hok⟩ := bind_eq_ok.mp h
    cases hok
    exact Nat.le_refl _
  | .conjunction es, e', h => by
    rw [Expression.negate] at h
    obtain ⟨ds, hds, hok⟩ := bind_eq_ok.mp h
    cases hok
    rw [cost, cost]
    exact Nat.add_le_add_left (Expression.cost_negateChildren hds) 1
  | .disjunction es, e', h => by
    rw [Expression.negate] at h
    obtain ⟨ds, hds, hok⟩ := bind_eq_ok.mp h
    cases hok
    rw [cost, cost]
    exact Nat.add_le_add_left (Expression.cost_negateChildren hds) 1
  | .negation e, e', h => by
    rw [Expression.negate] at h
    cases h
    rw [cost]
    exact Nat.le_add_left _ _

theorem Expression.cost_negateChildren : ∀ {es ds : List Expression},
    Expression.negateChildren es = .ok ds → costAll ds ≤ costAll es
  | [], ds, h => by
    cases h
    exact Nat.le_refl _
  | e :: es, ds, h => by
    rw [Expression.negateChildren] at h
    obtain ⟨d, hd, h⟩ := bind_eq_ok.mp h
    obtain ⟨ds, hds, hok⟩ := bind_eq_ok.mp h
    cases hok
    have h1 := Expression.cost_negate hd
    have h2 := Expression.cost_negateChildren hds
    rw [costAll, costAll]
    omega

end

namespace Gate

/-- The gate that `negate` puts in its place. -/
def dual : Gate → Gate
  | .and => .or
  | .or => .and

theorem cost_tree (g : Gate) (es : List Expression) : cost (g.tree es) = 1 + costAll es := by
  cases g <;> rw [tree, cost]

theorem negate_tree (g : Gate) (es : List Expression) :
    Expression.negate (g.tree es) =
      Expression.negateChildren es >>= fun ds => Except.ok (g.dual.tree ds) := by
  cases g <;> rw [tree, Expression.negate] <;> rfl

theorem negate_run (g : Gate) (n : Nat) {h : Heap Node} {a : Nat} {as : List Nat}
    (ha : h.cells a = some (g.node as)) :
    Node.negate (n + 1) a h = (do
      let d ← new (g.dual.node [])
      Node.negateLoop n a d 0
      Node.delete a
      pure d : NodeProgram Nat) h := by
  rw [Node.negate, bind_ok (load_run _ ha)]
  cases g <;> rfl

theorem freeExpression_run (g : Gate) (n : Nat) {h : Heap Node} {a : Nat} {as : List Nat}
    (ha : h.cells a = some (g.node as)) :
    Node.freeExpression (n + 1) a h = (do
      Node.freeLoop n a 0
      Node.delete a : NodeProgram Unit) h := by
  rw [Node.freeExpression, bind_ok (load_run _ ha)]
  cases g <;> rfl

end Gate

/-- `delete` of a cell that is owned besides others. -/
theorem Heap.Updates.deleted {h : Heap Node} {a : Nat} {v : Node} {R : Set Nat}
    (ha : h.cells a = some v) (hl : h.Live R) (hnot : a ∉ R) :
    Heap.Updates h (h.set a none (Heap.lt_next ha)) (R ∪ {a}) R := by
  have hdel := (Heap.Updates.delete (Heap.lt_next ha)).framed hl fun y hy heq => hnot (heq ▸ hy)
  rwa [Set.union_comm {a} R, Set.empty_union] at hdel

/-- `negate` of a tree, with the cells that it consists of. -/
def NegateRefines (n : Nat) : Prop :=
  ∀ {e : Expression} {a : Nat} {F : Set Nat} {h : Heap Node}, cost e ≤ n → Rep h e a F →
    Refines (Node.negate n a) h F e.negate fun a' e' h' F' => Rep h' e' a' F'

/-- The loop of `negate` over the trees that are left, with the gate that it fills. -/
def NegateLoopRefines (n : Nat) : Prop :=
  ∀ {g g' : Gate} {es ds : List Expression} {cs : List Nat} {src dst i : Nat} {G D : Set Nat}
    {h : Heap Node}, costAll es ≤ n → h.cells src = some (g'.node cs) → Reps h es (cs.drop i) G →
    Rep h (g.tree ds) dst D → (∀ y ∈ G, y ∉ D) → src ∉ G → src ∉ D →
    Refines (Node.negateLoop n src dst i) h (G ∪ D) (Expression.negateChildren es)
      fun _ ds' h' X => Rep h' (g.tree (ds ++ ds')) dst X

theorem negateLoop_step {n : Nat} (hn : NegateRefines n) (hl : NegateLoopRefines n) :
    NegateLoopRefines (n + 1) := by
  intro g g' es ds cs src dst i G D h hcost hsrc hs hd hapart hsG hsD
  have hlive : h.Live (G ∪ D) := by
    rintro y (hy | hy)
    · exact hs.live y hy
    · exact hd.live y hy
  rw [Node.negateLoop]
  refine .step (g'.children_run hsrc) (.refl hlive) ?_
  cases es with
  | nil =>
    obtain ⟨hdrop, rfl⟩ := hs
    rw [List.getElem?_eq_none (List.drop_eq_nil_iff.mp hdrop)]
    refine .pure hlive ?_
    rwa [List.append_nil, Set.empty_union]
  | cons e es =>
    obtain ⟨x, bs, X, G', hdrop, hx, hs, hXG, rfl⟩ := hs
    have hget : cs[i]? = some x := by
      rw [← List.head?_drop, hdrop]
      rfl
    have hbs : cs.drop (i + 1) = bs := by rw [← List.tail_drop, hdrop]; rfl
    rw [costAll] at hcost
    rw [hget, Expression.negateChildren, Set.union_assoc]
    have hrest : h.Live (G' ∪ D) := fun y hy => hlive y (hy.imp_left Or.inr)
    refine .bind ((hn (by omega) hx).framed hrest ?_) ?_
    · rintro y (hy | hy) hin
      · exact hXG y hin hy
      · exact hapart y (.inl hin) hy
    · rintro x' e' h₁ _ ⟨X', rfl, hx', hdX, hsame⟩ hu
      have hd₁ := hd.same fun y hy => hsame y (.inr hy)
      obtain ⟨h₂, hpush, hd₂, hu₂⟩ := g.pushBack_run hd₁ hx' fun y hy => hdX y (.inr hy)
      have hG₁ : h₁.Live G' := fun y hy => by
        rw [hsame y (.inl hy)]
        exact hrest y (.inl hy)
      have hGD : ∀ y ∈ G', y ∉ D ∪ X' := by
        rintro y hy (hin | hin)
        · exact hapart y (.inr hy) hin
        · exact hdX y (.inl hy) hin
      have hu₂' := hu₂.framed hG₁ hGD
      rw [Set.union_comm _ G', ← Set.union_assoc, Set.union_comm _ X'] at hu₂'
      have hunion : X' ∪ (G' ∪ D) = G' ∪ (D ∪ X') := by rw [Set.union_comm X', Set.union_assoc]
      rw [hunion] at hu₂' hu ⊢
      have hout : src ∉ X ∪ (G' ∪ D) := by
        rw [← Set.union_assoc]
        rintro (hin | hin)
        · exact hsG hin
        · exact hsD hin
      have hsrc₁ := hu.same hout hsrc
      have hout₁ : src ∉ G' ∪ (D ∪ X') :=
        hu.apart (R := {src}) (fun y hy => by rw [hy, hsrc]; rfl) (fun y hy => hy ▸ hout) src rfl
      refine .step hpush hu₂' ?_
      refine .map _ (hl (by omega) (hu₂'.same hout₁ hsrc₁) ?_ hd₂ hGD (fun hin => hout₁ (.inl hin))
        fun hin => hout₁ (.inr hin)) fun b ds' h₃ X₃ hd₃ => ?_
      · rw [hbs]
        refine hs.same fun y hy => ?_
        rw [hu₂.frame y (hGD y hy) (hG₁.lt hy), hsame y (.inl hy)]
      · rwa [List.append_assoc] at hd₃

theorem negate_step {n : Nat} (hl : NegateLoopRefines n) : NegateRefines (n + 1) := by
  intro e a F h hcost hr
  have hgate : ∀ (g : Gate) (es : List Expression), costAll es ≤ n → Rep h (g.tree es) a F →
      Refines (Node.negate (n + 1) a) h F (g.tree es).negate fun a' e' h' F' => Rep h' e' a' F' := by
    intro g es hcost hr
    obtain ⟨as, G, ha, hs, hnot, rfl⟩ := g.rep_iff.mp hr
    have hlt := Heap.lt_next ha
    have hfresh : ∀ y ∈ G ∪ {a}, y ∉ ({h.next} : Set Nat) := by
      rintro y hy rfl
      exact Nat.lt_irrefl _ (hr.live.lt hy)
    rw [g.negate_tree]
    refine .of_updates (.refl hr.live) ?_ _ (g.negate_run n ha)
    have hnew := (Heap.Updates.alloc h (g.dual.node [])).framed (R := G ∪ {a}) hr.live
      fun _ _ hin => hin
    rw [Set.empty_union, ← Set.union_assoc, Set.union_comm {h.next} G] at hnew
    refine .step rfl hnew ?_
    have hsame : ∀ y ∈ G ∪ {a}, (h.alloc (g.dual.node [])).cells y = h.cells y :=
      fun y hy => Heap.alloc_other h _ (Nat.ne_of_lt (hr.live.lt hy))
    have ha₁ := (hsame a (.inr rfl)).trans ha
    have hne : a ≠ h.next := Nat.ne_of_lt hlt
    refine .bind ((hl (i := 0) hcost ha₁ (hs.same fun y hy => hsame y (.inl hy)) (g.dual.rep_new h)
      (fun y hy => hfresh y (.inl hy)) hnot hne).framed (R := {a}) ?_ ?_) ?_
    · rintro y rfl
      rw [ha₁]
      rfl
    · rintro y rfl (hin | hin)
      · exact hnot hin
      · exact hne hin
    · rintro u ds' h₂ _ ⟨D', rfl, hd₂, haD, ha₂⟩ -
      have ha₂' := (ha₂ a rfl).trans ha₁
      refine .step (put_run _ ha₂' none) (.deleted ha₂' hd₂.live (haD a rfl)) ?_
      have hd₃ : Rep (h₂.set a none (Heap.lt_next ha₂')) (g.dual.tree ds') h.next D' :=
        hd₂.same fun y hy => Heap.set_other h₂ none _ fun heq => haD a rfl (heq ▸ hy)
      exact .pure hd₃.live hd₃
  cases e with
  | conjunction es =>
    rw [cost] at hcost
    exact hgate .and es (by omega) hr
  | disjunction es =>
    rw [cost] at hcost
    exact hgate .or es (by omega) hr
  | negation e =>
    obtain ⟨b, G, ha, hs, hnot, rfl⟩ := hr
    rw [Node.negate, Expression.negate]
    refine .step (load_run _ ha) (.refl (Rep.live (e := .negation e) ⟨b, G, ha, hs, hnot, rfl⟩)) ?_
    refine .step (put_run _ ha none) (.deleted ha hs.live hnot) ?_
    have hs' : Rep (h.set a none (Heap.lt_next ha)) e b G :=
      hs.same fun y hy => Heap.set_other h none _ fun heq => hnot (heq ▸ hy)
    exact .pure hs'.live hs'
  | predicate p =>
    obtain ⟨ha, rfl⟩ := hr
    have hlive : h.Live {a} := fun y hy => by rw [hy, ha]; rfl
    rw [Node.negate, Expression.negate]
    refine .step (load_run _ ha) (.refl hlive) (.bind (.lift hlive _) ?_)
    rintro op _ _ _ ⟨rfl, rfl, rfl⟩ -
    refine .step (put_run _ ha _) (.write (Heap.lt_next ha) _) (.pure ?_ ?_)
    · rintro y rfl
      rw [Heap.set_self]
      rfl
    · exact ⟨Heap.set_self .., rfl⟩

/-- `negate` computes the negation of the tree in memory: it deletes the gates it replaces and keeps
the predicates. -/
theorem negate_refines (n : Nat) : NegateRefines n ∧ NegateLoopRefines n := by
  induction n with
  | zero =>
    refine ⟨fun {e} _ _ _ hcost _ => ?_, fun {_ _ es} _ _ _ _ _ _ _ _ hcost => ?_⟩
    · cases e <;> simp only [cost] at hcost <;> omega
    · cases es <;> simp only [costAll] at hcost <;> omega
  | succ n ih => exact ⟨negate_step ih.2, negateLoop_step ih.1 ih.2⟩

/-- `free_expression` of a tree deletes each of its cells, and none twice. -/
def FreeRefines (n : Nat) : Prop :=
  ∀ {e : Expression} {a : Nat} {F : Set Nat} {h : Heap Node}, cost e ≤ n → Rep h e a F →
    Refines (Node.freeExpression n a) h F (.ok ()) fun _ _ _ X => X = ∅

/-- The loop of `free_expression` over the trees that are left. -/
def FreeLoopRefines (n : Nat) : Prop :=
  ∀ {g : Gate} {es : List Expression} {cs : List Nat} {a i : Nat} {G : Set Nat} {h : Heap Node},
    costAll es ≤ n → h.cells a = some (g.node cs) → Reps h es (cs.drop i) G → a ∉ G →
    Refines (Node.freeLoop n a i) h G (.ok ()) fun _ _ _ X => X = ∅

theorem freeLoop_step {n : Nat} (hn : FreeRefines n) (hl : FreeLoopRefines n) :
    FreeLoopRefines (n + 1) := by
  intro g es cs a i G h hcost ha hs hnot
  rw [Node.freeLoop]
  refine .step (g.children_run ha) (.refl hs.live) ?_
  cases es with
  | nil =>
    obtain ⟨hdrop, rfl⟩ := hs
    rw [List.getElem?_eq_none (List.drop_eq_nil_iff.mp hdrop)]
    exact .pure (fun y hy => hy.elim) rfl
  | cons e es =>
    obtain ⟨x, bs, X, G', hdrop, hx, hs, hXG, rfl⟩ := hs
    have hget : cs[i]? = some x := by
      rw [← List.head?_drop, hdrop]
      rfl
    have hbs : cs.drop (i + 1) = bs := by rw [← List.tail_drop, hdrop]; rfl
    rw [costAll] at hcost
    have hrest : costAll es ≤ n := by omega
    rw [hget]
    refine .bind ((hn (by omega) hx).framed hs.live fun y hy hin => hXG y hin hy) ?_
    rintro _ _ h₁ _ ⟨X', rfl, rfl, -, hsame⟩ hu
    rw [Set.empty_union]
    refine hl hrest (hu.same hnot ha) ?_ fun hin => hnot (.inr hin)
    rw [hbs]
    exact hs.same hsame

theorem free_step {n : Nat} (hn : FreeRefines n) (hl : FreeLoopRefines n) : FreeRefines (n + 1) := by
  intro e a F h hcost hr
  have hdelete : ∀ {h₁ : Heap Node} {v : Node}, h₁.cells a = some v →
      Refines (Node.delete a) h₁ {a} (.ok ()) fun _ _ _ X => X = ∅ :=
    fun {h₁ v} ha => ⟨(), h₁.set a none (Heap.lt_next ha), ∅, put_run _ ha none, rfl,
      .delete (Heap.lt_next ha)⟩
  have hgate : ∀ (g : Gate) (es : List Expression), costAll es ≤ n → Rep h (g.tree es) a F →
      Refines (Node.freeExpression (n + 1) a) h F (.ok ()) fun _ _ _ X => X = ∅ := by
    intro g es hcost hr
    obtain ⟨as, G, ha, hs, hnot, rfl⟩ := g.rep_iff.mp hr
    refine .of_updates (.refl hr.live) ?_ _ (g.freeExpression_run n ha)
    refine .bind ((hl (i := 0) hcost ha hs hnot).framed (R := {a}) ?_ ?_) ?_
    · rintro y rfl
      rw [ha]
      rfl
    · rintro y rfl
      exact hnot
    · rintro _ _ h₁ _ ⟨_, rfl, rfl, -, hsame⟩ -
      rw [Set.empty_union]
      exact hdelete ((hsame a rfl).trans ha)
  cases e with
  | conjunction es =>
    rw [cost] at hcost
    exact hgate .and es (by omega) hr
  | disjunction es =>
    rw [cost] at hcost
    exact hgate .or es (by omega) hr
  | negation e =>
    obtain ⟨b, G, ha, hs, hnot, rfl⟩ := hr
    rw [cost] at hcost
    rw [Node.freeExpression]
    refine .step (load_run _ ha) (.refl (Rep.live (e := .negation e) ⟨b, G, ha, hs, hnot, rfl⟩)) ?_
    refine .bind ((hn (by omega) hs).framed (R := {a}) ?_ ?_) ?_
    · rintro y rfl
      rw [ha]
      rfl
    · rintro y rfl
      exact hnot
    · rintro _ _ h₁ _ ⟨_, rfl, rfl, -, hsame⟩ -
      rw [Set.empty_union]
      exact hdelete ((hsame a rfl).trans ha)
  | predicate p =>
    obtain ⟨ha, rfl⟩ := hr
    rw [Node.freeExpression]
    refine .step (load_run _ ha) (.refl ?_) (hdelete ha)
    rintro y rfl
    rw [ha]
    rfl

theorem free_refines (n : Nat) : FreeRefines n ∧ FreeLoopRefines n := by
  induction n with
  | zero =>
    refine ⟨fun {e} _ _ _ hcost _ => ?_, fun {_ es} _ _ _ _ _ hcost => ?_⟩
    · cases e <;> simp only [cost] at hcost <;> omega
    · cases es <;> simp only [costAll] at hcost <;> omega
  | succ n ih => exact ⟨free_step ih.1 ih.2, freeLoop_step ih.1 ih.2⟩

end Netplay
