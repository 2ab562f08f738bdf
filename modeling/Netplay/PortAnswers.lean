import Netplay.CharacterMeaning
import Netplay.ConcurrentCast
import Netplay.EmptyLists

/-!
# From the ports to the answer of a query

A query on the store of a daemon, while its writers go on or when they are back at their ports: what
it answers is said about the packets that the writers have received.
-/

namespace Netplay

open Text Packet NetplayUtils QueryParser QueryPlanner

/-! ## A store at rest -/

namespace System

variable {ω : Type} [DecidableEq ω] {numFilters : Nat} {filters : Nat → List PacketFilter}
  {s : System ω} {c : ClausePlan} {a : Attribute}

/-- Without calls in flight no read of a clause is unsafe. -/
theorem clause_settled (h : Reached numFilters filters s) (hq : s.Quiescent) (c : ClausePlan)
    (a : Attribute) : (c.scan a).Settled s.store s.store.numPkts where
  stored _ _ hj := by
    obtain ⟨v, e, m, off, hlt, -, hslot, -⟩ := stored_of_quiescent h hq hj
    exact ⟨v, hslot, hlt⟩
  null _ hc := (listsCreated_reached h).tail _ hc

/-- Every empty burst with a second in the range of the clause has a packet of the same second
beside it. -/
def Covers (s : System ω) (c : ClausePlan) : Prop :=
  ∀ e ∈ s.ended, e.burst.pkts = [] → c.idxFilter.indexId = timestampIdx →
    c.idxFilter.tokRange.Contains e.burst.now.toNat →
    ∃ x ∈ s.published, x.second = e.burst.now

/-- A packet is listed under its second. -/
theorem timestamp_list_pos (h : Reached numFilters filters s) {x : Stored} (hx : x ∈ s.published) :
    0 < (s.store.lists (.index timestampIdx x.second.toNat)).tail := by
  obtain ⟨e, he, hxe⟩ := List.mem_flatMap.mp hx
  have hkey : ListKey.index timestampIdx x.second.toNat ∈
      packetLists s.store.filters e.burst.now.toNat e.numChars x.pkt := by
    rw [index_mem_packetLists, mem_listedKeys, Ended.stored_second hxe]
    exact ⟨.timestamp, rfl, nofun, rfl⟩
  obtain ⟨j, hj⟩ := (stored_iff h he (Ended.stored_gave hxe) _).mpr hkey
  by_contra hzero
  have hfree := ((slotsOwed_reached h).free_iff _ j).mpr
    (Nat.le_trans (Nat.le_of_not_lt hzero) (Nat.zero_le j))
  rw [hfree] at hj
  cases hj

/-- So a clause comes to its end. -/
theorem clause_finite (h : Reached numFilters filters s) (hq : s.Quiescent) (htcp : s.AllTcpOrUdp)
    (ha : c.idxFilter.indexId = a.index) (hr : c.InRange) (hc : s.Covers c) :
    (c.scan a).Finite s.store where
  range := hr.1
  keys := hr.2 a ha
  nonempty tok hmin hmax hcreated := by
    rcases (fed_reached h).quiescent hq hcreated with hpos | ⟨e, he, hempty, hkey⟩
    · exact hpos
    · obtain ⟨hidx, rfl⟩ := ListKey.index.inj hkey
      obtain ⟨x, hx, hsec⟩ := hc e he hempty (ha.trans hidx) ⟨hmin, hmax⟩
      have hpos := timestamp_list_pos h hx
      rw [hsec, ← hidx] at hpos
      exact hpos
  lookup f _ tok j _ _ hj := by
    obtain ⟨v, e, m, off, hlt, -, hslot, -⟩ := stored_of_quiescent h hq hj
    obtain ⟨x, hx, rfl⟩ := exists_published h hlt
    exact ⟨x.id, hslot, by rw [applyAt_published h hx (htcp x hx)]; rfl⟩

end System

section

variable {σ : Type} {world : σ → σ → Prop} (store : σ → Store) {plan : QueryPlan} (s : σ)

/-- A scan by itself is a run of the query. -/
theorem drain_run {c : ClausePlan} {a : Attribute} {maxRid : Nat} {left : QueryPlan}
    (ha : c.idxFilter.indexId = a.index) (hfin : (c.scan a).Finite (store s))
    (hset : (c.scan a).Settled (store s) maxRid) (before : List Nat) (n : Nat) :
    ∀ {junk : Nat → Nat} {pc : Pc} {res out : List Nat}, (c.scan a).Fits (store s) pc →
      (c.scan a).drain (store s) maxRid n junk pc res = some out →
      Relation.ReflTransGen (CastStep world store plan)
        (s, .scanning maxRid (c :: left) pc (before ++ res))
        (s, .scanning maxRid (c :: left) .finished (before ++ out)) := by
  induction n with
  | zero =>
    intro junk pc res out hfits h
    cases pc with
    | finished =>
      cases h
      exact .refl
    | _ => cases h
  | succ n ih =>
    intro junk pc res out hfits h
    by_cases hpc : pc = .finished
    · subst hpc
      cases h
      exact .refl
    · obtain ⟨pc', out', hstep, hfits', -⟩ := Scan.fits_step hfin maxRid (junk 0) hfits hpc
      have hrest : (c.scan a).drain (store s) maxRid n (fun i => junk (i + 1)) pc' (res ++ out') =
          some out := by
        cases pc with
        | finished => exact absurd rfl hpc
        | _ => simpa [Scan.drain, hstep] using h
      have hscan : CastStep world store plan _ _ := .scan s maxRid (junk 0) c a left pc pc'
        (before ++ res) out' ha (hset.safe hfits (junk 0)) hstep
      rw [List.append_assoc] at hscan
      exact .head hscan (ih hfits' hrest)

/-- So is `filter_pkts` by itself, which comes to its end. -/
theorem filterPkts_run (left : QueryPlan) {maxRid : Nat} (hn : (store s).numPkts = maxRid)
    (hleft : ∀ c ∈ left, ∃ a : Attribute, c.idxFilter.indexId = a.index ∧
      (c.scan a).Finite (store s) ∧ (c.scan a).Settled (store s) maxRid) :
    ∀ (junk : Nat → Nat → Nat) (before : List Nat), ∃ n out,
      (store s).filterPkts n junk left = some out ∧
        Relation.ReflTransGen (CastStep world store plan)
          (s, .scanning maxRid left .construct before)
          (s, .scanning maxRid [] .construct (before ++ out)) := by
  induction left with
  | nil =>
    intro junk before
    refine ⟨0, [], rfl, ?_⟩
    rw [List.append_nil]
  | cons c left ih =>
    intro junk before
    obtain ⟨a, ha, hfin, hset⟩ := hleft c List.mem_cons_self
    obtain ⟨n₁, res, hres⟩ := Scan.drain_finishes hfin maxRid (junk 0) .construct trivial []
    obtain ⟨n₂, rest, hrest, hrun₂⟩ := ih (fun c hc => hleft c (List.mem_cons_of_mem _ hc))
      (fun i => junk (i + 1)) (before ++ res)
    have hfits : (c.scan a).Fits (store s) .construct := trivial
    have hrun₁ : Relation.ReflTransGen (CastStep world store plan)
        (s, .scanning maxRid (c :: left) .construct (before ++ []))
        (s, .scanning maxRid (c :: left) .finished (before ++ res)) :=
      drain_run store s ha hfin hset before n₁ hfits hres
    rw [List.append_nil] at hrun₁
    refine ⟨max n₁ n₂, res ++ rest, ?_, ?_⟩
    · simp only [Store.filterPkts, ha, Attribute.ofIndex_index, Option.bind_some, hn,
        Scan.drain_mono (Nat.le_max_left n₁ n₂) hres,
        filterPkts_mono (Nat.le_max_right n₁ n₂) left hrest, Option.map_some]
    · rw [← List.append_assoc]
      exact hrun₁.trans (.head (.next s maxRid c left (before ++ res)) hrun₂)

end

/-! ## The text and the packets received -/

/-- The tree is true of the published packet with the id. -/
def System.TrueOf {ω : Type} (s : System ω) (e : Expression) (now : UInt32) (id : Nat) : Prop :=
  ∃ x ∈ s.published, x.id = id ∧ e.value (truth now x.pkt.data x.second) = true

theorem System.acceptedBy_truth {ω : Type} {s : System ω} (htcp : s.AllTcpOrUdp) {counts : Counts}
    {e : Expression} {now : UInt32} {q : QueryPlan} (hplan : plan counts e now = .ok q)
    (he : e.Plain) (id : Nat) : (∃ c ∈ q, s.AcceptedBy c id) ↔ s.TrueOf e now id := by
  constructor
  · rintro ⟨c, hc, x, hx, hid, hacc⟩
    exact ⟨x, hx, hid, (plan_accepts hplan he (htcp x hx).1).mp ⟨c, hc, hacc⟩⟩
  · rintro ⟨x, hx, hid, hval⟩
    obtain ⟨c, hc, hacc⟩ := (plan_accepts hplan he (htcp x hx).1).mpr hval
    exact ⟨c, hc, x, hx, hid, hacc⟩

namespace Daemon

variable {ω π : Type} [DecidableEq ω] [DecidableEq π] {ports : Ports ω π} {numFilters : Nat}
  {filters : Nat → List PacketFilter} {clock : UInt32} {d : Daemon ω π}

/-- What is published was received by a writer. -/
theorem polled_of_published (h : Reached ports numFilters filters clock d) {x : Stored}
    (hx : x ∈ d.system.published) : ∃ w, (w, x.pkt) ∈ d.polls := by
  obtain ⟨e, he, hxe⟩ := List.mem_flatMap.mp hx
  rw [← (agrees_reached h).ended] at he
  obtain ⟨⟨w, e'⟩, hcall, rfl⟩ := List.mem_map.mp he
  have hpkt : x.pkt ∈ e'.burst.pkts := by
    rw [← Ended.stored_pkts]
    exact List.mem_map_of_mem hxe
  have hins : e' ∈ d.inserted w :=
    List.mem_map.mpr ⟨(w, e'), List.mem_filter.mpr ⟨hcall, by simp⟩, rfl⟩
  have hrec : x.pkt ∈ d.received w := by
    rw [(delivers_reached h).loop]
    exact List.mem_append_left _ (List.mem_flatMap.mpr ⟨e', hins, hpkt⟩)
  obtain ⟨⟨v, m⟩, hpoll, hm⟩ := List.mem_map.mp hrec
  obtain ⟨hpoll, -⟩ := List.mem_filter.mp hpoll
  exact ⟨v, by rwa [← hm]⟩

theorem allTcpOrUdp_of_polls (h : Reached ports numFilters filters clock d)
    (htcp : ∀ p ∈ d.polls, p.2.TcpOrUdp) : d.system.AllTcpOrUdp := by
  intro x hx
  obtain ⟨w, hw⟩ := polled_of_published h hx
  exact htcp _ hw

theorem quiescent_of_polling (h : Reached ports numFilters filters clock d)
    (hidle : ∀ w, d.loops w = .polling) : d.system.Quiescent := by
  intro w
  have hcall := (agrees_reached h).call w
  rw [hidle w] at hcall
  cases hw : d.system.writers w with
  | idle => rfl
  | _ =>
    rw [hw] at hcall
    cases hcall

/-- A query by itself on a daemon whose writers are back at their ports. -/
theorem quiet_cast_run (h : Reached ports numFilters filters clock d)
    (hidle : ∀ w, d.loops w = .polling) (htcp : ∀ p ∈ d.polls, p.2.TcpOrUdp) {q : QueryPlan}
    (hknown : ∀ c ∈ q, ∃ a : Attribute, c.idxFilter.indexId = a.index) (hr : ∀ c ∈ q, c.InRange)
    (hcover : ∀ c ∈ q, d.system.Covers c) (junk : Nat → Nat → Nat) :
    ∃ n out, d.system.store.filterPkts n junk q = some out ∧
      Relation.ReflTransGen (CastStep (Step ports) (fun d => d.system.store) q) (d, .waiting)
        (d, .scanning d.system.store.numPkts [] .construct out) := by
  have hsys := reached_system h
  have hq := quiescent_of_polling h hidle
  have hclauses : ∀ c ∈ q, ∃ a : Attribute, c.idxFilter.indexId = a.index ∧
      (c.scan a).Finite d.system.store ∧
        (c.scan a).Settled d.system.store d.system.store.numPkts := by
    intro c hc
    obtain ⟨a, ha⟩ := hknown c hc
    exact ⟨a, ha, System.clause_finite hsys hq (allTcpOrUdp_of_polls h htcp) ha (hr c hc)
      (hcover c hc), System.clause_settled hsys hq c a⟩
  obtain ⟨n, out, hout, hrun⟩ : ∃ n out, d.system.store.filterPkts n junk q = some out ∧
      Relation.ReflTransGen (CastStep (Step ports) (fun d => d.system.store) q)
        (d, .scanning d.system.store.numPkts q .construct [])
        (d, .scanning d.system.store.numPkts [] .construct ([] ++ out)) :=
    filterPkts_run (fun d : Daemon ω π => d.system.store) d q rfl hclauses junk []
  exact ⟨n, out, hout, .head (.load d) hrun⟩

/-- What a query has found at its end. -/
theorem cast_answers {d₀ : Daemon ω π} {q : QueryPlan} {maxRid : Nat} {pc : Pc} {res : List Nat}
    (hknown : ∀ c ∈ q, ∃ a : Attribute, c.idxFilter.indexId = a.index)
    (hr : ∀ c ∈ q, c.idxFilter.tokRange.first ≤ c.idxFilter.tokRange.second)
    (h₀ : Reached ports numFilters filters clock d₀)
    (hrun : Relation.ReflTransGen (CastStep (Step ports) (fun d => d.system.store) q) (d₀, .waiting)
      (d, .scanning maxRid [] pc res)) (htcp : ∀ p ∈ d.polls, p.2.TcpOrUdp) :
    d.system.AllTcpOrUdp ∧ d₀.system.store.numPkts ≤ maxRid ∧ maxRid ≤ d.system.store.numPkts ∧
      ∃ extra, d.system.Answers maxRid q res extra := by
  have hworld : ∀ d d' : Daemon ω π, Step ports d d' →
      Relation.ReflTransGen System.Step d.system d'.system := fun d d' hs => run_system (.single hs)
  have hall := allTcpOrUdp_of_polls (h₀.trans (castStep_world hrun)) htcp
  exact ⟨hall, System.answers_run (fun d : Daemon ω π => d.system) hworld hknown hr
    (reached_system h₀) hall hrun⟩

/-- Packets to ports 1 and 0 are in the store, and both writers are back at their ports. -/
theorem portPackets_run : ∃ d : Daemon Bool Bool, Reached (.ofVport id) 0 (fun _ => []) 7 d ∧
    (∀ w, d.loops w = .polling) ∧ (∀ p ∈ d.polls, p.2.TcpOrUdp) ∧ d.polls.length = 2 := by
  obtain ⟨d, hrun, hsee⟩ := Schedule.exists_run (step_of_turn id)
    (twoPorts ⟨portPkt 1, 60⟩ ⟨portPkt 0, 60⟩)
    (by decide +kernel : (Schedule.after (turn id) (init 0 (fun _ => []) 7 : Daemon Bool Bool)
      (twoPorts ⟨portPkt 1, 60⟩ ⟨portPkt 0, 60⟩)).map (fun d => decide (d.rests = true ∧
        (∀ p ∈ d.polls, p.2.TcpOrUdp) ∧ d.polls.length = 2)) = some true)
  obtain ⟨hrests, htcp, hlen⟩ := of_decide_eq_true hsee
  exact ⟨d, Forward.reached hrun, polling_of_rests hrests, htcp, hlen⟩

theorem portClause_covers {ω : Type} (s : System ω) (port : Nat) :
    ∀ c ∈ [portClause port], s.Covers c := by
  intro c hc e _ _ hidx
  rw [List.mem_singleton.mp hc] at hidx
  have hne : srcportIdx ≠ timestampIdx := by decide
  exact absurd hidx hne

/-- A query runs while packets arrive, writers receive and insert them and the clock goes on. At its
end it has the packets of which the text is true among those below `max_rid`, which is at least what
was published before it began, and at most one other for each clause with a packet filter. -/
theorem cast_among_writers {d₀ : Daemon ω π} {text : Bytes} {e : Expression} {counts : Counts}
    {now : UInt32} {q : QueryPlan} {maxRid : Nat} {pc : Pc} {res : List Nat}
    (hparse : parse text = .ok e) (hplan : plan counts e now = .ok q)
    (hr : ∀ c ∈ q, c.idxFilter.tokRange.first ≤ c.idxFilter.tokRange.second)
    (h₀ : Reached ports numFilters filters clock d₀)
    (hrun : Relation.ReflTransGen (CastStep (Step ports) (fun d => d.system.store) q) (d₀, .waiting)
      (d, .scanning maxRid [] pc res)) (htcp : ∀ p ∈ d.polls, p.2.TcpOrUdp) :
    d₀.system.store.numPkts ≤ maxRid ∧ maxRid ≤ d.system.store.numPkts ∧
      ∃ extra : List Nat, extra.length ≤ (q.filter (·.performPktFilter)).length ∧
        (∀ id ∈ extra, id < maxRid) ∧
        ∀ id, id ∈ res ↔ (id < maxRid ∧ d.system.TrueOf e now id) ∨ id ∈ extra := by
  obtain ⟨hall, hle₀, hle, extra, hans⟩ := cast_answers (plan_known hplan) hr h₀ hrun htcp
  refine ⟨hle₀, hle, extra, hans.few, hans.below, fun id => ?_⟩
  rw [hans.mem, System.acceptedBy_truth hall hplan (NegatedPlan.parse_tree hparse).1]

/-- Writer `true` has published a packet, and writer `false` has a position for its own in the same
list. -/
def besideInsert : List (Turn Bool Bool) :=
  [.arrive true ⟨portPkt 1, 60⟩, .arrive false ⟨portPkt 0, 60⟩, .receive true 32,
    .receive false 32] ++ List.replicate 32 (.goOn true) ++ List.replicate 22 (.goOn false)

/-- The query begins there. Writer `false` stores its id while the query is at the position, and
publishes it before the query ends. -/
def queryBeside : List (CastTurn (Turn Bool Bool)) :=
  besideInsert.map .world ++ List.replicate 4 (.query 5) ++
    [.world (.goOn false), .query 5, .world (.goOn false), .query 5] ++
    List.replicate 8 (.world (.goOn false)) ++ List.replicate 3 (.query 5)

/-- The query answers the packet that was published when it began. -/
theorem cast_among_writers_beside : ∃ (d : Daemon Bool Bool) (extra : List Nat),
    d.system.store.numPkts = 2 ∧ extra.length ≤ 1 ∧
      ∀ id, id ∈ [0] ↔ (id < 1 ∧ d.system.TrueOf (portQuery (lit "1")) 0 id) ∨ id ∈ extra := by
  obtain ⟨⟨d, x⟩, hrun, hsee⟩ := Schedule.exists_run
    (step_of_castTurn fun d t d' ht => (step_of_turn id d t d' ht).1) queryBeside
    (by decide +kernel : (Schedule.after
      (castTurn (turn id) (fun d => d.system.store) [portClause 1])
      ((init 0 (fun _ => []) 7 : Daemon Bool Bool), .waiting) queryBeside).map
        (fun p => (decide (p.1.system.store.numPkts = 2 ∧ ∀ q ∈ p.1.polls, q.2.TcpOrUdp), p.2)) =
      some (true, .scanning 1 [] .construct [0]))
  obtain ⟨hdaemon, rfl⟩ := Prod.mk.inj hsee
  obtain ⟨hnum, htcp⟩ := of_decide_eq_true hdaemon
  obtain ⟨-, -, extra, hfew, -, hmem⟩ := cast_among_writers portQuery_parsed
    (@portQuery_plan 1 (lit "1") rfl) (fun c hc => (portClause_inRange 1 c hc).1) .refl hrun htcp
  exact ⟨d, extra, hnum, hfew, hmem⟩

/-- With the writers back at their ports, the ids are those of the packets received, each once, a
query comes to its end whatever it reads where nothing is stored, and it answers the packets received
of which the text is true, and at most one other for each clause with a packet filter. -/
theorem ports_answer {text : Bytes} {e : Expression} {counts : Counts} {now : UInt32} {q : QueryPlan}
    (hparse : parse text = .ok e) (hplan : plan counts e now = .ok q) (hr : ∀ c ∈ q, c.InRange)
    (h : Reached ports numFilters filters clock d) (hidle : ∀ w, d.loops w = .polling)
    (htcp : ∀ p ∈ d.polls, p.2.TcpOrUdp) (hcover : ∀ c ∈ q, d.system.Covers c)
    (junk : Nat → Nat → Nat) :
    ∃ (stored : List Stored) (n : Nat) (out extra : List Nat),
      stored.map Stored.id = List.range d.system.store.numPkts ∧
      (stored.map Stored.pkt).Perm (d.polls.map Prod.snd) ∧ (∀ x ∈ stored, d.system.Keeps x) ∧
      d.system.store.filterPkts n junk q = some out ∧
      extra.length ≤ (q.filter (·.performPktFilter)).length ∧
      ∀ id, id ∈ out ↔ (∃ x ∈ stored, x.id = id ∧
        e.value (truth now x.pkt.data x.second) = true) ∨ id ∈ extra := by
  have hsys := reached_system h
  obtain ⟨n, out, hout, hrun⟩ := quiet_cast_run h hidle htcp (plan_known hplan) hr hcover junk
  obtain ⟨hall, -, -, extra, hans⟩ := cast_answers (plan_known hplan) (fun c hc => (hr c hc).1) h
    hrun htcp
  refine ⟨d.system.published, n, out, extra, System.published_ids hsys, ended_perm h hidle,
    fun x hx => System.published_keeps hsys hx, hout, hans.few, fun id => ?_⟩
  rw [hans.mem, System.acceptedBy_truth hall hplan (NegatedPlan.parse_tree hparse).1]
  refine or_congr_left (and_iff_right_of_imp ?_)
  rintro ⟨x, hx, rfl, -⟩
  exact System.published_lt hsys hx

theorem ports_answer_ports : ∃ (d : Daemon Bool Bool) (stored : List Stored) (out extra : List Nat),
    d.polls.length = 2 ∧ (stored.map Stored.pkt).Perm (d.polls.map Prod.snd) ∧ extra.length ≤ 1 ∧
      ∀ id, id ∈ out ↔ (∃ x ∈ stored, x.id = id ∧
        (portQuery (lit "1")).value (truth 0 x.pkt.data x.second) = true) ∨ id ∈ extra := by
  obtain ⟨d, hreach, hidle, htcp, hlen⟩ := portPackets_run
  obtain ⟨stored, n, out, extra, -, hperm, -, -, hfew, hmem⟩ := ports_answer portQuery_parsed
    (@portQuery_plan 1 (lit "1") rfl) (portClause_inRange 1) hreach hidle htcp
    (portClause_covers d.system 1) fun _ _ => 0
  exact ⟨d, stored, out, extra, hlen, hperm, hfew, hmem⟩

end Daemon

end Netplay
