import Netplay.Cast
import Netplay.ClauseMeaning
import Netplay.DnfPlan
import Netplay.NegatedPlan

/-!
# From the text of a query to its answer

A cast parses the query, plans it and filters the packets. A plan accepts a packet exactly if the
tree is true of it, whatever the counts of the planner say. The answer therefore has the packets of
which the text is true, and for each clause with a packet filter at most one other.
-/

namespace Netplay

open Text Packet NetplayUtils Lexemes LexerItems

namespace QueryPlanner

/-- The value of a predicate on a packet: its attribute lies in the range that
`build_index_filter` gives. -/
def truth (now : UInt32) (pkt : Memory) (ts : UInt32) (p : Predicate) : Bool :=
  match buildIndexFilter p now with
  | .ok f => (Attribute.ofIndex f.indexId).any fun a =>
    decide (f.tokRange.Contains (a.value pkt ts))
  | .error _ => false

variable {now : UInt32} {pkt : Memory} {ts : UInt32}

theorem truth_iff {p : Predicate} {f : IndexFilter} (h : buildIndexFilter p now = .ok f) :
    truth now pkt ts p = true ↔ f.Satisfied pkt ts := by
  obtain ⟨a, -, ha⟩ := FilterMeaning.buildIndexFilter_index h
  simp only [truth, h, ha, Attribute.ofIndex_index, Option.any_some, decide_eq_true_eq]
  constructor
  · exact fun hin => ⟨a, ha, hin⟩
  · rintro ⟨b, hb, hin⟩
    obtain rfl := Attribute.index_injective (ha.symm.trans hb)
    exact hin

/-- The value of the conjunction is that of its filters. -/
theorem clause_truth {es : List Expression} {fs : List IndexFilter}
    (h : buildClause now es = .ok fs) :
    Expression.valueAll (truth now pkt ts) es = true ↔ ∀ f ∈ fs, f.Satisfied pkt ts := by
  induction es generalizing fs with
  | nil =>
    cases h
    simp [Expression.valueAll]
  | cons e es ih =>
    cases e with
    | predicate p =>
      obtain ⟨f, hf, h1⟩ := bind_eq_ok.mp h
      obtain ⟨gs, hgs, h2⟩ := bind_eq_ok.mp h1
      cases h2
      rw [Expression.valueAll, Bool.and_eq_true, ih hgs, Expression.value, truth_iff hf,
        List.forall_mem_cons]
    | _ => simp [buildClause] at h

/-- What a packet has for each attribute. -/
def packetTokens (pkt : Memory) (ts : UInt32) : Tokens := fun a => UInt64.ofNat (a.value pkt ts)

theorem packetTokens_meets {f : IndexFilter} :
    (packetTokens pkt ts).Meets f ↔ f.Satisfied pkt ts := by
  have hval : ∀ a : Attribute, (packetTokens pkt ts a).toNat = a.value pkt ts := fun a => by
    have hlt := a.value_lt pkt ts
    rw [packetTokens, UInt64.toNat_ofNat']
    exact Nat.mod_eq_of_lt (by omega)
  simp only [Tokens.Meets, IndexFilter.Satisfied, hval]

/-- The plan of a clause accepts a packet with ports if each filter of the clause does. -/
theorem clausePlan_accepts {counts : Counts} {fs : List IndexFilter} {cplan : Option ClausePlan}
    (hk : Known fs) (h : buildClausePlan counts fs = .ok cplan) (hports : HasPorts pkt) :
    (∃ c ∈ cplan, c.Accepts pkt ts) ↔ ∀ f ∈ fs, f.Satisfied pkt ts := by
  rw [buildClausePlan] at h
  split at h
  · next hred =>
    cases h
    refine iff_of_false (by simp) fun hall => ?_
    exact reduceClause_none hk hred (packetTokens pkt ts) fun f hf =>
      packetTokens_meets.mpr (hall f hf)
  · next gs hred =>
    obtain ⟨⟨f, rest⟩, hmin, h1⟩ := bind_eq_ok.mp h
    obtain ⟨pf, hpf, h2⟩ := bind_eq_ok.mp h1
    cases h2
    have hgk : Known gs := reduceClause_known hk hred
    have hperm := extractMinFilter_picks hmin
    have hnd : (rest.map (·.indexId)).Nodup :=
      (List.nodup_cons.mp ((hperm.map _).nodup_iff.mpr (reduceClause_nodup hred).1)).2
    -- The packet filter tests the filters that are left, the ports too.
    have hrest : pf.apply pkt ts = true ↔ ∀ g ∈ rest, g.Satisfied pkt ts := by
      have hbuilt := FilterMeaning.built_apply_iff hnd pkt ts
      constructor
      · intro happ g hg
        exact (hbuilt.mp ⟨pf, hpf, happ⟩ g hg).2 fun _ => hports
      · intro hall
        obtain ⟨pf', hpf', happ⟩ := hbuilt.mpr fun g hg =>
          ⟨hgk g (hperm.subset (List.mem_cons_of_mem _ hg)), fun _ => hall g hg⟩
        cases hpf.symm.trans hpf'
        exact happ
    have hmeets := reduceClause_meets hk hred (packetTokens pkt ts)
    simp only [packetTokens_meets] at hmeets
    have hcons : (∀ g ∈ gs, g.Satisfied pkt ts) ↔
        f.Satisfied pkt ts ∧ ∀ g ∈ rest, g.Satisfied pkt ts := by
      rw [← List.forall_mem_cons]
      exact ⟨fun hall g hg => hall g (hperm.subset hg),
        fun hall g hg => hall g (hperm.symm.subset hg)⟩
    rw [hmeets, hcons]
    simp only [Option.mem_def, Option.some.injEq, exists_eq_left', ClausePlan.Accepts]
    refine and_congr_right fun _ => ?_
    cases rest with
    | nil => simp
    | cons g rest => simpa using hrest

theorem planClauses_accepts {counts : Counts} {ds : List Expression} {q : QueryPlan}
    (h : planClauses counts now ds = .ok q) (hports : HasPorts pkt) :
    (∃ c ∈ q, c.Accepts pkt ts) ↔ Expression.valueAny (truth now pkt ts) ds = true := by
  induction ds generalizing q with
  | nil =>
    cases h
    simp [Expression.valueAny]
  | cons d ds ih =>
    cases d with
    | conjunction cs =>
      obtain ⟨clause, hclause, h1⟩ := bind_eq_ok.mp h
      obtain ⟨cplan, hcplan, h2⟩ := bind_eq_ok.mp h1
      obtain ⟨rest, hrest, h3⟩ := bind_eq_ok.mp h2
      cases h3
      have hk := builds_known (FilterMeaning.buildClause_builds hclause)
      rw [Expression.valueAny, Bool.or_eq_true, Expression.value, clause_truth hclause,
        ← clausePlan_accepts hk hcplan hports, ← ih hrest]
      simp only [List.mem_append, Option.mem_toList, or_and_right, exists_or, Option.mem_def]
    | _ => simp [planClauses] at h

/-- A plan of a tree as the parser returns it accepts the packets with ports of which the tree is
true. -/
theorem plan_accepts {counts : Counts} {e : Expression} {q : QueryPlan}
    (h : plan counts e now = .ok q) (he : e.Plain) (hports : HasPorts pkt) :
    (∃ c ∈ q, c.Accepts pkt ts) ↔ e.value (truth now pkt ts) = true := by
  cases e with
  | predicate p =>
    obtain ⟨f, hf, h1⟩ := bind_eq_ok.mp h
    cases h1
    rw [Expression.value, truth_iff hf]
    simp [ClausePlan.Accepts]
  | conjunction cs =>
    obtain ⟨clause, hclause, h1⟩ := bind_eq_ok.mp h
    obtain ⟨cplan, hcplan, h2⟩ := bind_eq_ok.mp h1
    cases h2
    have hk := builds_known (FilterMeaning.buildClause_builds hclause)
    rw [Expression.value, clause_truth hclause, ← clausePlan_accepts hk hcplan hports]
    simp
  | disjunction ds => exact planClauses_accepts h hports
  | negation e => exact he.elim

end QueryPlanner

/-! ## The text -/

namespace Source

mutual

/-- Nothing is negated. -/
def Positive : Source → Prop
  | .predicate _ => True
  | .not _ => False
  | .all fs => PositiveAll fs
  | .any ts => PositiveAll ts

def PositiveAll : List Source → Prop
  | [] => True
  | s :: ss => Positive s ∧ PositiveAll ss

end

mutual

/-- Without negations the tree has the value of the text under every valuation. -/
theorem value_positive (v : Predicate → Bool) : ∀ s : Source, s.Positive → s.tree.value v = s.value v
  | .predicate _, _ => rfl
  | .not _, h => h.elim
  | .all fs, h => by
    rw [tree, value, value_gather_conjunction, (value_positiveAll v fs h).1]
  | .any ts, h => by
    rw [tree, value, value_gather_disjunction, (value_positiveAll v ts h).2]

theorem value_positiveAll (v : Predicate → Bool) : ∀ ss : List Source, PositiveAll ss →
    Expression.valueAll v (trees ss) = valueAll v ss ∧
      Expression.valueAny v (trees ss) = valueAny v ss
  | [], _ => ⟨rfl, rfl⟩
  | s :: ss, h => by
    have hs := value_positive v s h.1
    have hss := value_positiveAll v ss h.2
    simp only [trees, Expression.valueAll, Expression.valueAny, valueAll, valueAny, hs, hss.1, hss.2,
      and_self]

end

end Source

open QueryParser QueryPlanner ParserText

/-- A text of the documented grammar without negations that is not cut is parsed, and every plan
that is made of it, with any counts and at any second, accepts the packets with ports of which the
text is true. -/
theorem planned_source {text : Bytes} {src : Source} (hc : cut text = false)
    (hd : Documented Evident text src) (hpos : src.Positive) : ∃ e, parse text = .ok e ∧
      ∀ (counts : Counts) (now : UInt32) (q : QueryPlan), plan counts e now = .ok q →
        ∀ (pkt : Memory) (sec : UInt32), HasPorts pkt →
          ((∃ c ∈ q, c.Accepts pkt sec) ↔ src.value (truth now pkt sec) = true) := by
  obtain ⟨ts, hl, hd⟩ := hd
  refine ⟨src.tree, parse_accepted (accepted_evident hl hc hd), ?_⟩
  intro counts now q hq pkt sec hports
  rw [plan_accepts hq (Source.tree_plain src hd.plain) hports, Source.value_positive _ src hpos]

/-! ## The answer -/

/-- The tree is true of the packet with the id. -/
def Expression.TrueOf (e : Expression) (now : UInt32) (bs : List Burst) (id : Nat) : Prop :=
  ∃ m sec, (packets bs)[id]? = some (m, sec) ∧ e.value (truth now m.data sec) = true

/-- The ids that clauses with a packet filter meet first, at most one for each. -/
theorem exists_firsts {numFilters : Nat} {filters : Nat → List PacketFilter} {s : System Unit}
    {bs : List Burst} (h : Inserted numFilters filters s bs) (q : QueryPlan) :
    ∃ extra : List Nat, extra.length ≤ (q.filter (·.performPktFilter)).length ∧
      ∀ id, id ∈ extra ↔ ∃ c ∈ q, c.performPktFilter = true ∧ c.IsFirst s.store id := by
  induction q with
  | nil => exact ⟨[], Nat.le_refl 0, by simp⟩
  | cons c q ih =>
    obtain ⟨extra, hlen, hmem⟩ := ih
    by_cases hc : c.performPktFilter = true ∧ ∃ id, c.IsFirst s.store id
    · obtain ⟨hperform, id, hfirst⟩ := hc
      have hunique : ∀ id', c.IsFirst s.store id' ↔ id' = id := by
        intro id'
        constructor
        · rintro ⟨a, ha, hf⟩
          obtain ⟨b, hb, hf'⟩ := hfirst
          obtain rfl := Attribute.index_injective (ha.symm.trans hb)
          exact Scan.IsFirst.unique (h.sensible c a) hf hf'
        · rintro rfl
          exact hfirst
      refine ⟨id :: extra, ?_, fun id' => ?_⟩
      · rw [List.filter_cons_of_pos hperform]
        exact Nat.succ_le_succ hlen
      · rw [List.mem_cons, hmem, List.exists_mem_cons_iff, hunique]
        simp [hperform]
    · refine ⟨extra, ?_, fun id' => ?_⟩
      · refine Nat.le_trans hlen (List.Sublist.length_le ?_)
        exact (List.sublist_cons_self c q).filter _
      · rw [hmem, List.exists_mem_cons_iff, or_iff_right]
        exact fun hf => hc ⟨hf.1, id', hf.2⟩

/-- On the store of a history, the answer to a query that is parsed and planned has every packet of
which the query is true, and at most one other for each clause with a packet filter. -/
theorem Inserted.mem_answer {numFilters : Nat} {filters : Nat → List PacketFilter}
    {s : System Unit} {bs : List Burst} {text : Bytes} {e : Expression} {counts : Counts}
    {now : UInt32} {q : QueryPlan} (h : Inserted numFilters filters s bs)
    (hparse : parse text = .ok e) (hplan : plan counts e now = .ok q) (hr : ∀ c ∈ q, c.InRange)
    (junk : Nat → Nat → Nat) :
    ∃ (n : Nat) (out extra : List Nat), s.store.filterPkts n junk q = some out ∧
      extra.length ≤ (q.filter (·.performPktFilter)).length ∧
      ∀ id, id ∈ out ↔ e.TrueOf now bs id ∨ id ∈ extra := by
  obtain ⟨n, out, hout, hmem⟩ := h.mem_filterPkts q (plan_known hplan) hr junk
  obtain ⟨extra, hlen, hextra⟩ := exists_firsts h q
  have hplain := (NegatedPlan.parse_tree hparse).1
  have htrue : ∀ id, e.TrueOf now bs id ↔ ∃ c ∈ q, AcceptedBy bs c id := by
    intro id
    constructor
    · rintro ⟨m, sec, hid, hval⟩
      have hports := (h.tcpOrUdp _ (List.mem_of_getElem? hid)).1
      obtain ⟨c, hc, hacc⟩ := (plan_accepts hplan hplain hports).mpr hval
      exact ⟨c, hc, m, sec, hid, hacc⟩
    · rintro ⟨c, hc, m, sec, hid, hacc⟩
      have hports := (h.tcpOrUdp _ (List.mem_of_getElem? hid)).1
      exact ⟨m, sec, hid, (plan_accepts hplan hplain hports).mp ⟨c, hc, hacc⟩⟩
  refine ⟨n, out, extra, hout, hlen, fun id => ?_⟩
  rw [hmem, htrue, hextra]
  constructor
  · rintro ⟨c, hc, hacc | hf⟩
    · exact .inl ⟨c, hc, hacc⟩
    · cases hp : c.performPktFilter with
      | true => exact .inr ⟨c, hc, hp, hf⟩
      | false => exact .inl ⟨c, hc, h.accepted_of_isFirst hp hf⟩
  · rintro (⟨c, hc, hacc⟩ | ⟨c, hc, -, hf⟩)
    · exact ⟨c, hc, .inl hacc⟩
    · exact ⟨c, hc, .inr hf⟩

/-- A query that is parsed and planned, on the store of any history of bursts of TCP and UDP
packets: the scans come to their end, the answer has every packet of which the query is true, and
at most one other for each clause with a packet filter. -/
theorem answer_truth {numFilters : Nat} {filters : Nat → List PacketFilter} {bs : List Burst}
    {st : Store} {text : Bytes} {e : Expression} {counts : Counts} {now : UInt32} {q : QueryPlan}
    (hbs : ∀ b ∈ bs, b.pkts ≠ [] ∧ ∀ m ∈ b.pkts, m.TcpOrUdp)
    (hst : bs.foldlM Store.insertPktburst (Store.init numFilters filters) = some st)
    (hparse : parse text = .ok e) (hplan : plan counts e now = .ok q) (hr : ∀ c ∈ q, c.InRange)
    (junk : Nat → Nat → Nat) :
    ∃ (n : Nat) (out extra : List Nat), st.filterPkts n junk q = some out ∧
      extra.length ≤ (q.filter (·.performPktFilter)).length ∧
      ∀ id, id ∈ out ↔ e.TrueOf now bs id ∨ id ∈ extra := by
  obtain ⟨s, rfl, h⟩ := history_inserted hbs hst
  exact h.mem_answer hparse hplan hr junk

/-! ## Two ports -/

def portPair : List Predicate :=
  [⟨lit "src_port", lit "==", lit "0"⟩, ⟨lit "dst_port", lit "==", lit "1"⟩]

theorem portPair_documented :
    Documented Evident (DnfPlan.dnfText [portPair]) (.any [DnfPlan.clauseSource portPair]) ∧
      cut (DnfPlan.dnfText [portPair]) = false := by
  have hwf : ∀ d ∈ [portPair], ∀ p ∈ d, DnfPlan.WellFormed 0 p := by
    intro d hd p hp
    obtain rfl := List.mem_singleton.mp hd
    simp only [portPair, List.mem_cons, List.not_mem_nil, or_false] at hp
    rcases hp with rfl | rfl <;> exact ⟨_, rfl⟩
  have hword : ([portPair].all fun d => d.all fun p => p.value.all Lexer.opvalid) = true := by decide
  simp only [List.all_eq_true] at hword
  have hl := DnfPlan.dnf_lexed (List.cons_ne_nil _ _) (by decide) hwf hword
  refine ⟨⟨_, DnfPlan.dnf_evident hl hwf, ?_⟩, DnfPlan.dnf_not_cut hl nofun (by decide) hwf⟩
  exact DnfPlan.dnf_derives _ nofun (by decide) fun d hd p hp =>
    DnfPlan.operators_of_wellFormed (hwf d hd p hp)

theorem planned_source_ports : ∃ e, parse (DnfPlan.dnfText [portPair]) = .ok e ∧
    ∀ (counts : Counts) (now : UInt32) (q : QueryPlan), plan counts e now = .ok q →
      ∀ (pkt : Memory) (sec : UInt32), HasPorts pkt → ((∃ c ∈ q, c.Accepts pkt sec) ↔
        (Source.any [DnfPlan.clauseSource portPair]).value (truth now pkt sec) = true) :=
  planned_source portPair_documented.2 portPair_documented.1 ⟨⟨trivial, trivial, trivial⟩, trivial⟩

theorem portQuery_parsed : parse (DnfPlan.dnfText [portPair]) = .ok (portQuery (lit "1")) := by
  obtain ⟨⟨ts, hl, hd⟩, hc⟩ := portPair_documented
  exact parse_accepted (accepted_evident hl hc hd)

/-- The answer for a pair of ports has no packet but the one that the scan meets first. -/
theorem answer_truth_ports : ∃ (n : Nat) (out extra : List Nat),
    portStore.filterPkts n (fun _ _ => 0) [portClause 1] = some out ∧ extra.length ≤ 1 ∧
      ∀ id, id ∈ out ↔ (portQuery (lit "1")).TrueOf 0 [portBurst] id ∨ id ∈ extra :=
  answer_truth portBurst_tcpOrUdp portStore_history portQuery_parsed
    (@portQuery_plan 1 (lit "1") rfl) (portClause_inRange 1) fun _ _ => 0

end Netplay
