import Netplay.FilterMeaning
import Netplay.GroupedText
import Netplay.Literals
import Netplay.QueryPlanner

/-!
# The plan of a negated query

Only a single predicate has a plan together with its negation: the negation of
a conjunction or a disjunction is not in disjunctive normal form. Of the single
predicates only the port comparisons have complementary plans.
-/

namespace Netplay.NegatedPlan

open Text QueryParser Item NetplayUtils QueryPlanner FilterMeaning ParserText GroupedText

/-- The number of tokens of the attribute. -/
def size : Attribute → Nat
  | .srcPort | .dstPort => 2 ^ 16
  | _ => 2 ^ 32

/-- A token for every attribute. -/
structure Assignment where
  token : Attribute → Nat
  fits : ∀ a, token a < size a

/-- Some clause has the token of its index filter's attribute in the range and,
where it filters packets, every token in the range of the packet filter. -/
def Accepts (plan : QueryPlan) (σ : Assignment) : Prop :=
  ∃ c ∈ plan,
    (∃ a : Attribute, c.idxFilter.indexId = a.index ∧ c.idxFilter.tokRange.Contains (σ.token a)) ∧
    (c.performPktFilter = true → ∀ a, (c.pktFilter.range a).Contains (σ.token a))

/-! ## Plans that exist -/

theorem buildIndexFilter_nil (attr op : Bytes) (now : UInt32) (f : IndexFilter) :
    buildIndexFilter ⟨attr, op, []⟩ now ≠ .ok f := by
  have hfind : find (lit "now") [] ≠ some 0 := by decide
  refine buildIndexFilter_unread (fun n => ?_) hfind now f
  rw [List.take_nil]
  rfl

theorem buildClause_values {now : UInt32} {es : List Expression} {fs : List IndexFilter}
    (h : buildClause now es = .ok fs) : [] ∉ Expression.valuesAll es := by
  induction es generalizing fs with
  | nil => simp [Expression.valuesAll]
  | cons e es ih =>
    cases e with
    | predicate p =>
      obtain ⟨f, hf, h1⟩ := bind_eq_ok.mp h
      obtain ⟨gs, hgs, -⟩ := bind_eq_ok.mp h1
      have hp : p.value ≠ [] := by
        intro he
        obtain ⟨attr, op, v⟩ := p
        obtain rfl : v = [] := he
        exact buildIndexFilter_nil attr op now f hf
      simp [Expression.valuesAll, Expression.values, ih hgs, Ne.symm hp]
    | _ => simp [buildClause] at h

theorem planClauses_values {counts : Counts} {now : UInt32} {ds : List Expression} {q : QueryPlan}
    (h : planClauses counts now ds = .ok q) : [] ∉ Expression.valuesAll ds := by
  induction ds generalizing q with
  | nil => simp [Expression.valuesAll]
  | cons d ds ih =>
    cases d with
    | conjunction cs =>
      obtain ⟨fs, hfs, h1⟩ := bind_eq_ok.mp h
      obtain ⟨_, -, h2⟩ := bind_eq_ok.mp h1
      obtain ⟨q', hq', -⟩ := bind_eq_ok.mp h2
      simp [Expression.valuesAll, Expression.values, buildClause_values hfs, ih hq']
    | _ => simp [planClauses] at h

/-- A planned tree has no empty value. -/
theorem plan_values {counts : Counts} {e : Expression} {now : UInt32} {q : QueryPlan}
    (he : e.Plain) (h : plan counts e now = .ok q) : [] ∉ e.values := by
  cases e with
  | predicate p =>
    have h' : buildClause now [.predicate p] = .ok [(q.map (·.idxFilter)).headD ⟨0, .all⟩] := by
      obtain ⟨f, hf, h1⟩ := bind_eq_ok.mp h
      cases h1
      simp [buildClause, hf, bind, Except.bind, pure, Except.pure]
    simpa [Expression.valuesAll] using buildClause_values h'
  | conjunction cs =>
    obtain ⟨fs, hfs, -⟩ := bind_eq_ok.mp h
    exact buildClause_values hfs
  | disjunction ds => exact planClauses_values h
  | negation e => exact he.elim

theorem read_values_ne {l : Level} {is : List Item} {s : Source} (h : Read l is s) :
    s.values ≠ [] := by
  induction h with
  | predicate => simp [Source.values]
  | not k h ih => exact ih
  | group k h hu hlen ih => exact ih
  | factor h ih => simpa [Source.values, Source.valuesAll] using ih
  | and hf h ihf ih => simp [Source.values, Source.valuesAll, ihf]
  | term h ih => simpa [Source.values, Source.valuesAll] using ih
  | or ht hu hlen h iht ih => simp [Source.values, Source.valuesAll, iht]

/-- A tree that the parser returns has a predicate and no `NOT`. -/
theorem parse_tree {text : Bytes} {e : Expression} (h : parse text = .ok e) :
    e.Plain ∧ e.values ≠ [] := by
  rcases LexerItems.parse_outcome text with ⟨src, hacc, hok⟩ | ⟨-, msg, hthrow⟩
  · obtain rfl : e = src.tree := by
      have := h.symm.trans hok
      simpa using this
    obtain ⟨pre, us, rest, -, hread, -⟩ := hacc
    refine ⟨Source.tree_plain src hread.plain, ?_⟩
    rw [Source.values_tree]
    exact read_values_ne hread
  · rw [h] at hthrow
    cases hthrow

/-- The plan of a single predicate. -/
theorem plan_predicate {counts : Counts} {p : Predicate} {now : UInt32} {q : QueryPlan}
    (h : plan counts (.predicate p) now = .ok q) :
    ∃ f, buildIndexFilter p now = .ok f ∧ q = [⟨f, unsetFilter, false⟩] := by
  obtain ⟨f, hf, h1⟩ := bind_eq_ok.mp h
  cases h1
  exact ⟨f, hf, rfl⟩

/-- A tree that is planned together with its negation is a single predicate. -/
theorem planned_with_negation {counts counts' : Counts} {e : Expression} {now now' : UInt32}
    {q q' : QueryPlan} (he : e.Plain) (hne : e.values ≠ []) (h : plan counts e now = .ok q)
    (h' : plan counts' e.flip now' = .ok q') : ∃ p, e = .predicate p := by
  cases e with
  | predicate p => exact ⟨p, rfl⟩
  | conjunction cs =>
    obtain ⟨fs, hfs, -⟩ := bind_eq_ok.mp h
    match cs, hne with
    | .predicate p :: cs, _ => cases h'
    | .conjunction _ :: _, _ => cases hfs
    | .disjunction _ :: _, _ => cases hfs
    | .negation _ :: _, _ => cases hfs
  | disjunction ds =>
    match ds, hne with
    | .conjunction cs :: ds, _ => cases h'
    | .predicate _ :: _, _ => cases h
    | .disjunction _ :: _, _ => cases h
    | .negation _ :: _, _ => cases h
  | negation e => exact he.elim

/-! ## Ranges of a predicate and of its negation -/

theorem ipFilter_flip {id : Nat} {op v : Bytes} {f f' : IndexFilter}
    (hop : op ∈ Expression.operators) (h : ipFilter id op v = .ok f)
    (h' : ipFilter id (Expression.flipOp op) v = .ok f') : f = f' := by
  have member : ∀ {x y : Except Fault TokRange}, x = y →
      (x >>= fun r => pure (⟨id, r⟩ : IndexFilter)) = .ok f →
      (y >>= fun r => pure (⟨id, r⟩ : IndexFilter)) = .ok f' → f = f' := by
    rintro x _ rfl h h'
    simpa using h.symm.trans h'
  have equal : ∀ {x y : Except Fault Nat}, x = y →
      (x >>= fun ip => pure (⟨id, ⟨ip, ip⟩⟩ : IndexFilter)) = .ok f →
      (y >>= fun ip => pure (⟨id, ⟨ip, ip⟩⟩ : IndexFilter)) = .ok f' → f = f' := by
    rintro x _ rfl h h'
    simpa using h.symm.trans h'
  simp only [Expression.operators, List.mem_cons, List.not_mem_nil, or_false] at hop
  rcases hop with rfl | rfl | rfl | rfl | rfl | rfl | rfl | rfl
  · exact equal rfl h h'
  · exact equal rfl h h'
  · cases h
  · cases h
  · cases h
  · cases h
  · exact member rfl h h'
  · exact member rfl h h'

/-- The number a port literal is read as. -/
def portOf (v : Bytes) : Option Nat := (stoi v).map (wrap 16)

/-- The comparisons whose ranges complement each other at `port`. -/
def SplitsAt (op : Bytes) (port : Nat) : Prop :=
  op ∈ [lit "<=", lit ">"] ∨ op ∈ [lit "<", lit ">="] ∧ port ≠ 0

theorem portRange_flip {op : Bytes} {port tok : Nat} {r r' : TokRange}
    (hop : op ∈ Expression.operators) (hport : port < 2 ^ 16) (htok : tok < 2 ^ 16)
    (h : portRange op port = .ok r) (h' : portRange (Expression.flipOp op) port = .ok r') :
    (r.Contains tok ↔ ¬ r'.Contains tok) ↔ SplitsAt op port := by
  have hbelow : (⟨0, wrap 64 ((port : Int) - 1)⟩ : TokRange).Contains tok ↔
      port = 0 ∨ tok < port := contains_below (by omega) (by omega)
  have neither : ∀ op, op ∉ [lit "<=", lit ">"] → op ∉ [lit "<", lit ">="] → ¬ SplitsAt op port :=
    fun op h1 h2 hs => hs.elim h1 fun hs => h2 hs.1
  have above : ∀ op, op ∉ [lit "<=", lit ">"] → op ∈ [lit "<", lit ">="] →
      (SplitsAt op port ↔ port ≠ 0) :=
    fun op h1 h2 => ⟨fun hs => (hs.resolve_left h1).2, fun h0 => .inr ⟨h2, h0⟩⟩
  simp only [Expression.operators, List.mem_cons, List.not_mem_nil, or_false] at hop
  rcases hop with rfl | rfl | rfl | rfl | rfl | rfl | rfl | rfl
  · cases h; cases h'
    exact iff_of_false (by simp) (neither _ (by decide) (by decide))
  · cases h; cases h'
    exact iff_of_false (by simp) (neither _ (by decide) (by decide))
  · cases h; cases h'
    rw [above _ (by decide) (by decide), hbelow]
    simp only [TokRange.Contains]
    omega
  · cases h; cases h'
    refine iff_of_true ?_ (.inl (by decide))
    simp only [TokRange.Contains]
    omega
  · cases h; cases h'
    refine iff_of_true ?_ (.inl (by decide))
    simp only [TokRange.Contains]
    omega
  · cases h; cases h'
    rw [above _ (by decide) (by decide), hbelow]
    simp only [TokRange.Contains]
    omega
  · cases h
  · cases h

theorem portFilter_flip {id tok : Nat} {op v : Bytes} {f f' : IndexFilter}
    (hop : op ∈ Expression.operators) (htok : tok < 2 ^ 16) (h : portFilter id op v = .ok f)
    (h' : portFilter id (Expression.flipOp op) v = .ok f') :
    (f.tokRange.Contains tok ↔ ¬ f'.tokRange.Contains tok) ↔
      ∃ port, portOf v = some port ∧ SplitsAt op port := by
  obtain ⟨n, hn, h1⟩ := bind_eq_ok.mp h
  obtain ⟨r, hr, h2⟩ := bind_eq_ok.mp h1
  obtain ⟨n', hn', h1'⟩ := bind_eq_ok.mp h'
  obtain ⟨r', hr', h2'⟩ := bind_eq_ok.mp h1'
  cases h2; cases h2'
  rw [orThrow_eq_ok] at hn hn'
  obtain rfl : n = n' := by simpa using hn.symm.trans hn'
  rw [portRange_flip hop (wrap_lt 16 n) htok hr hr']
  simp [portOf, hn]

/-! ## Complementary plans -/

/-- The queries whose plan and whose negation's plan are complementary: `<=` and
`>` on a port, and `<` and `>=` on a port other than 0. -/
def Complements : Expression → Prop
  | .predicate p => (p.attr = lit "src_port" ∨ p.attr = lit "dst_port") ∧
      ∃ port, portOf p.value = some port ∧ SplitsAt p.op port
  | _ => False

/-- No predicate of the expression is on the capture second. -/
def Timeless : Expression → Prop
  | .predicate p => p.attr ≠ lit "timestamp"
  | .conjunction cs | .disjunction cs => TimelessAll cs
  | .negation e => Timeless e
where
  TimelessAll : List Expression → Prop
    | [] => True
    | e :: es => Timeless e ∧ TimelessAll es

theorem accepts_single {f : IndexFilter} {a : Attribute} (ha : f.indexId = a.index)
    (σ : Assignment) :
    Accepts [⟨f, unsetFilter, false⟩] σ ↔ f.tokRange.Contains (σ.token a) := by
  constructor
  · rintro ⟨c, hc, ⟨b, hb, hin⟩, -⟩
    obtain rfl := List.mem_singleton.mp hc
    obtain rfl := Attribute.index_injective (ha.symm.trans hb)
    exact hin
  · intro hin
    exact ⟨_, List.mem_singleton_self _, ⟨a, ha, hin⟩, by simp⟩

/-- The index filters of a predicate and of its negation split the tokens
exactly if the predicate is a comparison of a port that splits them. -/
theorem indexFilter_flip {p : Predicate} {now now' : UInt32} {f f' : IndexFilter} {a : Attribute}
    (hop : p.op ∈ Expression.operators) (hts : p.attr ≠ lit "timestamp")
    (h : buildIndexFilter p now = .ok f)
    (h' : buildIndexFilter { p with op := Expression.flipOp p.op } now' = .ok f')
    (ha : named p.attr = some a) (σ : Assignment) :
    (f.tokRange.Contains (σ.token a) ↔ ¬ f'.tokRange.Contains (σ.token a)) ↔
      Complements (.predicate p) := by
  rw [buildIndexFilter_named] at h h'
  have hattr := named_eq_some ha
  simp only [ha] at h h'
  have address : a.isPort = false → f = f' →
      ((f.tokRange.Contains (σ.token a) ↔ ¬ f'.tokRange.Contains (σ.token a)) ↔
        Complements (.predicate p)) := by
    rintro hport rfl
    refine iff_of_false (by simp) ?_
    rintro ⟨hp, -⟩
    rw [hattr] at hp
    revert hp hport
    cases a <;> decide
  have port : a.isPort = true → ∀ id, portFilter id p.op p.value = .ok f →
      portFilter id (Expression.flipOp p.op) p.value = .ok f' →
      ((f.tokRange.Contains (σ.token a) ↔ ¬ f'.tokRange.Contains (σ.token a)) ↔
        Complements (.predicate p)) := by
    intro hport id h h'
    have htok : σ.token a < 2 ^ 16 := by
      have := σ.fits a
      cases a <;> simp_all [size, Attribute.isPort]
    rw [portFilter_flip hop htok h h', Complements]
    refine (and_iff_right ?_).symm
    rw [hattr]
    revert hport
    cases a <;> decide
  cases a with
  | srcIp => exact address rfl (ipFilter_flip hop h h')
  | dstIp => exact address rfl (ipFilter_flip hop h h')
  | srcPort => exact port rfl _ h h'
  | dstPort => exact port rfl _ h h'
  | timestamp => exact absurd hattr hts

/-- Of the plans of a query and of its negation exactly one accepts an
assignment of tokens, exactly if the query is a comparison of a port that
splits the tokens. -/
theorem negation_complements_iff {s : Bytes} {e e' : Expression} {counts counts' : Counts}
    {now now' : UInt32} {q q' : QueryPlan} (h : parse s = .ok e) (h' : parse (grouped s) = .ok e')
    (ht : Timeless e) (hq : plan counts e now = .ok q) (hq' : plan counts' e' now' = .ok q')
    (σ : Assignment) :
    (Accepts q σ ∧ ¬ Accepts q' σ ∨ ¬ Accepts q σ ∧ Accepts q' σ) ↔ Complements e := by
  obtain ⟨hplain, hne⟩ := parse_tree h
  obtain ⟨-, rfl⟩ := grouped_outcome h h' (plan_values hplain hq)
  obtain ⟨p, rfl⟩ := planned_with_negation hplain hne hq hq'
  obtain ⟨f, hf, rfl⟩ := plan_predicate hq
  obtain ⟨f', hf', rfl⟩ := plan_predicate hq'
  obtain ⟨a, ha, hid⟩ := buildIndexFilter_index hf
  obtain ⟨b, hb, hid'⟩ := buildIndexFilter_index hf'
  obtain rfl : a = b := Option.some.inj (ha.symm.trans hb)
  rw [accepts_single hid, accepts_single hid', ← indexFilter_flip hplain ht hf hf' ha σ]
  by_cases h1 : f.tokRange.Contains (σ.token a) <;>
    by_cases h2 : f'.tokRange.Contains (σ.token a) <;> simp [h1, h2]

/-- A text of one predicate, and its negated group. -/
theorem parse_single {s a op v : Bytes} (hop : op ∈ Expression.operators)
    (h : LexerItems.items s = [keep (Lexer.operandToken a), keep (Lexer.operatorToken op),
      keep (Lexer.operandToken v)])
    (h' : LexerItems.items (s ++ lit ")") = [keep (Lexer.operandToken a),
      keep (Lexer.operatorToken op), keep (Lexer.operandToken v), keep Lexer.rightToken]) :
    parse s = .ok (.predicate ⟨a, op, v⟩) ∧
      parse (grouped s) = .ok (.predicate ⟨a, Expression.flipOp op, v⟩) := by
  have hread : Read .expression [keep (Lexer.operandToken a), keep (Lexer.operatorToken op),
      keep (Lexer.operandToken v)] (.any [.all [.predicate ⟨a, op, v⟩]]) :=
    .term (.factor (.predicate a op v true true true hop))
  exact ⟨parse_accepted ⟨_, [], [], by simpa using h, hread, by simp, by simp, .inl rfl⟩,
    @parse_grouped _ _ [] _ (by simpa using h') hread (by simp) (by simp)⟩

theorem port_ne_timestamp : lit "src_port" ≠ lit "timestamp" := by decide

def everyTokenIs80 : Assignment := ⟨fun _ => 80, fun a => by cases a <;> decide⟩

def noCounts : Counts := fun _ _ _ => .ok 0

/-- Both plans accept port 80: `==` and `!=` have the same range, and so do
`<` and `>=` at port 0. -/
theorem negation_not_complement :
    (∃ e e' q q', parse (lit "src_port==80") = .ok e ∧
      parse (grouped (lit "src_port==80")) = .ok e' ∧ Timeless e ∧ plan noCounts e 0 = .ok q ∧
      plan noCounts e' 0 = .ok q' ∧ Accepts q everyTokenIs80 ∧ Accepts q' everyTokenIs80) ∧
    ∃ e e' q q', parse (lit "src_port<0") = .ok e ∧
      parse (grouped (lit "src_port<0")) = .ok e' ∧ Timeless e ∧ plan noCounts e 0 = .ok q ∧
      plan noCounts e' 0 = .ok q' ∧ Accepts q everyTokenIs80 ∧ Accepts q' everyTokenIs80 := by
  have accepts : ∀ r : TokRange, r.Contains 80 →
      Accepts [⟨⟨srcportIdx, r⟩, unsetFilter, false⟩] everyTokenIs80 :=
    fun r hr => (accepts_single (a := .srcPort) rfl everyTokenIs80).mpr hr
  constructor
  · obtain ⟨h, h'⟩ := @parse_single (lit "src_port==80") (lit "src_port") (lit "==") (lit "80")
      (by decide) (by decide +kernel) (by decide +kernel)
    exact ⟨_, _, [⟨⟨srcportIdx, ⟨80, 80⟩⟩, unsetFilter, false⟩],
      [⟨⟨srcportIdx, ⟨80, 80⟩⟩, unsetFilter, false⟩], h, h', port_ne_timestamp, rfl, rfl,
      accepts _ (by decide), accepts _ (by decide)⟩
  · obtain ⟨h, h'⟩ := @parse_single (lit "src_port<0") (lit "src_port") (lit "<") (lit "0")
      (by decide) (by decide +kernel) (by decide +kernel)
    exact ⟨_, _, [⟨⟨srcportIdx, ⟨0, 2 ^ 64 - 1⟩⟩, unsetFilter, false⟩],
      [⟨⟨srcportIdx, ⟨0, 65535⟩⟩, unsetFilter, false⟩], h, h', port_ne_timestamp, rfl, rfl,
      accepts _ (by decide), accepts _ (by decide)⟩

theorem negation_complements_below :
    Accepts [⟨⟨srcportIdx, ⟨0, 79⟩⟩, unsetFilter, false⟩] everyTokenIs80 ∧
        ¬ Accepts [⟨⟨srcportIdx, ⟨80, 65535⟩⟩, unsetFilter, false⟩] everyTokenIs80 ∨
      ¬ Accepts [⟨⟨srcportIdx, ⟨0, 79⟩⟩, unsetFilter, false⟩] everyTokenIs80 ∧
        Accepts [⟨⟨srcportIdx, ⟨80, 65535⟩⟩, unsetFilter, false⟩] everyTokenIs80 := by
  obtain ⟨h, h'⟩ := @parse_single (lit "src_port<80") (lit "src_port") (lit "<") (lit "80")
    (by decide) (by decide +kernel) (by decide +kernel)
  exact (@negation_complements_iff _ _ _ noCounts noCounts 0 0 _ _ h h' port_ne_timestamp rfl rfl
    everyTokenIs80).mpr ⟨.inl rfl, 80, rfl, .inr (by decide)⟩

end Netplay.NegatedPlan
