import Netplay.CastMeaning
import Netplay.CharacterCount

/-!
# From the text of a character to its packets

A character parses its text, builds a list of packet filters and registers it. Its filters test, of
each disjunct, the last predicate on each attribute and no second. Where every disjunct names an
attribute once and no second, they accept a packet exactly if the text is true of it, and what a
character yields is what a cast of the same text finds.
-/

namespace Netplay

open Text Packet NetplayUtils QueryParser QueryPlanner
open FilterMeaning (disjuncts disjunctsOr predicates Holds LastHold)

/-- Every disjunct names an attribute once, and none names the second. -/
def Expression.Selective (e : Expression) : Prop :=
  ∀ d ∈ disjuncts e, (d.map (·.attr)).Nodup ∧ ∀ p ∈ d, p.attr ≠ lit "timestamp"

section

variable {now : UInt32} {pkt : Memory} {ts : UInt32}

/-- In such a disjunct every predicate is the last one on its attribute. -/
theorem lastHold_all {d : List Predicate} (hnd : (d.map (·.attr)).Nodup)
    (hts : ∀ p ∈ d, p.attr ≠ lit "timestamp") :
    LastHold now pkt ts d ↔ ∀ p ∈ d, Holds now pkt ts p := by
  induction d with
  | nil => simp [LastHold]
  | cons p d ih =>
    rw [List.map_cons, List.nodup_cons] at hnd
    have hlast : ∀ q ∈ d, q.attr ≠ p.attr := fun q hq heq =>
      hnd.1 (heq ▸ List.mem_map_of_mem hq)
    rw [LastHold, ih hnd.2 fun q hq => hts q (List.mem_cons_of_mem _ hq), List.forall_mem_cons,
      and_comm]
    exact and_congr_left fun _ => ⟨fun h => h hlast (hts p List.mem_cons_self), fun h _ _ => h⟩

theorem holds_truth {p : Predicate} {f : IndexFilter} (h : buildIndexFilter p now = .ok f) :
    Holds now pkt ts p ↔ truth now pkt ts p = true := by
  rw [FilterMeaning.holds_iff h, truth_iff h]

theorem predicates_truth {es : List Expression} {fs : List IndexFilter}
    (h : buildClause now es = .ok fs) :
    (∀ p ∈ predicates es, Holds now pkt ts p) ↔
      Expression.valueAll (truth now pkt ts) es = true := by
  induction es generalizing fs with
  | nil => simp [predicates, Expression.valueAll]
  | cons e es ih =>
    cases e with
    | predicate p =>
      obtain ⟨f, hf, h1⟩ := bind_eq_ok.mp h
      obtain ⟨gs, hgs, -⟩ := bind_eq_ok.mp h1
      rw [predicates, List.forall_mem_cons, ih hgs, Expression.valueAll, Expression.value,
        Bool.and_eq_true, holds_truth hf]
    | _ => simp [buildClause] at h

theorem disjunctsOr_truth {ds : List Expression} {pfs : List PacketFilter}
    (h : buildFilters now ds = .ok pfs) :
    (∃ d ∈ disjunctsOr ds, ∀ p ∈ d, Holds now pkt ts p) ↔
      Expression.valueAny (truth now pkt ts) ds = true := by
  induction ds generalizing pfs with
  | nil => simp [disjunctsOr, Expression.valueAny]
  | cons d ds ih =>
    cases d with
    | conjunction cs =>
      obtain ⟨fs, hfs, h1⟩ := bind_eq_ok.mp h
      obtain ⟨pf, -, h2⟩ := bind_eq_ok.mp h1
      obtain ⟨qs, hqs, -⟩ := bind_eq_ok.mp h2
      rw [disjunctsOr, List.exists_mem_cons_iff, ih hqs, predicates_truth hfs, Expression.valueAny,
        Expression.value, Bool.or_eq_true]
    | _ => simp [buildFilters] at h

/-- A disjunct holds exactly if the tree is true. -/
theorem disjuncts_truth {e : Expression} {pfs : List PacketFilter}
    (h : buildFilterList e now = .ok pfs) (he : e.Plain) :
    (∃ d ∈ disjuncts e, ∀ p ∈ d, Holds now pkt ts p) ↔ e.value (truth now pkt ts) = true := by
  cases e with
  | predicate p =>
    obtain ⟨f, hf, -⟩ := bind_eq_ok.mp h
    simp [disjuncts, Expression.value, holds_truth hf]
  | conjunction cs =>
    obtain ⟨fs, hfs, -⟩ := bind_eq_ok.mp h
    simp only [disjuncts, List.mem_singleton, exists_eq_left]
    exact predicates_truth hfs
  | disjunction ds => exact disjunctsOr_truth h
  | negation e => exact he.elim

/-- The filters of a character accept the packets with ports of which its tree is true. -/
theorem filters_truth {e : Expression} {pfs : List PacketFilter}
    (h : buildFilterList e now = .ok pfs) (he : e.Plain) (hs : e.Selective) (hp : HasPorts pkt) :
    pfs.any (·.applyPkt pkt) = true ↔ e.value (truth now pkt ts) = true := by
  rw [List.any_eq_true, FilterMeaning.accepts_iff (FilterMeaning.buildFilterList_filterOf h) hp ts,
    ← disjuncts_truth h he]
  refine exists_congr fun d => and_congr_right fun hd => ?_
  exact lastHold_all (hs d hd).1 (hs d hd).2

end

/-! ## What a character yields -/

/-- The tree is true of the packet with the id, which was captured in one of the seconds; the first
of the packets has id `first`. -/
def Expression.TrueIn (e : Expression) (now : UInt32) (tsBeg tsEnd first : Nat)
    (ps : List (Mbuf × UInt32)) (id : Nat) : Prop :=
  first ≤ id ∧ ∃ m sec, ps[id - first]? = some (m, sec) ∧ tsBeg ≤ sec.toNat ∧ sec.toNat ≤ tsEnd ∧
    e.value (truth now m.data sec) = true

theorem mem_idsOfSeconds {e : Expression} {now : UInt32} {pfs : List PacketFilter}
    (h : buildFilterList e now = .ok pfs) (he : e.Plain) (hs : e.Selective) {tsBeg tsEnd first : Nat}
    {ps : List (Mbuf × UInt32)} (hports : ∀ p ∈ ps, HasPorts p.1.data) {id : Nat} :
    id ∈ idsOfSeconds pfs tsBeg tsEnd first ps ↔ e.TrueIn now tsBeg tsEnd first ps id := by
  simp only [idsOfSeconds, List.mem_flatMap, List.mem_range'_1, mem_acceptedIds]
  constructor
  · rintro ⟨sec, hsec, hle, m, ts, hget, rfl, hany⟩
    have hp := hports _ (List.mem_of_getElem? hget)
    exact ⟨hle, m, ts, hget, hsec.1, by omega, (filters_truth h he hs hp).mp hany⟩
  · rintro ⟨hle, m, ts, hget, hbeg, hend, hval⟩
    have hp := hports _ (List.mem_of_getElem? hget)
    exact ⟨ts.toNat, ⟨hbeg, by omega⟩, hle, m, ts, hget, rfl, (filters_truth h he hs hp).mpr hval⟩

namespace Store

/-- The lists of a character that has seen these packets, as a lookup and a count find them. -/
theorem Tracks.yields {st : Store} {c first n : Nat} {filter : List PacketFilter}
    {ps : List (Mbuf × UInt32)} (ht : st.Tracks c filter first ps) (hs : st.Settled n)
    (hn : first + ps.length ≤ n) (hc : c < maxFilters) {tsBeg tsEnd : Nat} (hrange : tsBeg ≤ tsEnd)
    (hend : tsEnd + 1 < 2 ^ 32) :
    (characterLookup c tsBeg tsEnd).Yields st st.numPkts .construct
        (idsOfSeconds filter tsBeg tsEnd first ps) ∧
      ∃ st', st.CountReturns c tsBeg tsEnd st' (idsOfSeconds filter tsBeg tsEnd first ps).length := by
  refine ⟨Scan.Filled.yields (q := characterLookup c tsBeg tsEnd)
    ⟨rfl, hrange, hend, fun ts _ _ => ht.lists ts, fun ts v hv => ?_⟩, ?_⟩
  · rw [numPkts, hs.readId]
    exact Nat.lt_of_lt_of_le (acceptedIds_lt hv) hn
  · refine ⟨_, (countReturns_iff hc (by omega) (by omega)).mpr ⟨fun _ => by omega, rfl, ?_⟩⟩
    rw [idsOfSeconds, List.length_flatMap]
    exact congrArg List.sum (List.map_congr_left fun ts _ => (ht.lists ts).tail.symm)

/-- A character registered anywhere in a history has, after it, seen the packets inserted since. -/
theorem tracks_registered {pre post : List StoreCall} {filter : List PacketFilter}
    {st₁ st₂ st : Store} {c : Nat} (filters : Nat → List PacketFilter)
    (hpre : (Store.init 0 filters).calls pre = some st₁)
    (hadd : st₁.addComplexCharacter filter = some (st₂, c)) (hpost : st₂.calls post = some st) :
    ∃ n, (packets (burstsOf pre)).length + (packets (burstsOf post)).length ≤ n ∧
      st.Tracks c filter (packets (burstsOf pre)).length (packets (burstsOf post)) ∧
      st.Settled n ∧ c < maxFilters := by
  have hs₁ := calls_settled pre (settled_init filters) hpre
  rw [Nat.zero_add] at hs₁
  obtain ⟨hroom, rfl, rfl⟩ := addComplexCharacter_eq hadd
  have hs₂ : Settled _ (packets (burstsOf pre)).length :=
    call_settled (.addComplexCharacter filter) hs₁ (Option.map_eq_some_iff.mpr ⟨_, hadd, rfl⟩)
  exact ⟨_, Nat.le_refl _, calls_tracks post (registered_tracks hs₁ filter) hs₂ hpost,
    calls_settled post hs₂ hpost, hroom⟩

end Store

/-- A character made from a text, registered anywhere in a history: over a range of seconds, a
lookup yields, each once, the packets with ports inserted since of which the text is true, and the
count of the character is how many they are. -/
theorem character_truth {text : Bytes} {e : Expression} {now : UInt32} {pfs : List PacketFilter}
    {pre post : List StoreCall} {st₁ st₂ st : Store} {c tsBeg tsEnd : Nat}
    (filters : Nat → List PacketFilter) (hparse : parse text = .ok e)
    (hfilter : buildFilterList e now = .ok pfs) (hs : e.Selective)
    (hpre : (Store.init 0 filters).calls pre = some st₁)
    (hadd : st₁.addComplexCharacter pfs = some (st₂, c)) (hpost : st₂.calls post = some st)
    (hports : ∀ p ∈ packets (burstsOf post), HasPorts p.1.data) (hrange : tsBeg ≤ tsEnd)
    (hend : tsEnd + 1 < 2 ^ 32) :
    ∃ out : List Nat, (Store.characterLookup c tsBeg tsEnd).Yields st st.numPkts .construct out ∧
      out.Nodup ∧ (∀ id, id ∈ out ↔ e.TrueIn now tsBeg tsEnd (packets (burstsOf pre)).length
        (packets (burstsOf post)) id) ∧
      ∃ st', st.CountReturns c tsBeg tsEnd st' out.length := by
  obtain ⟨n, hn, ht, hsettled, hc⟩ := Store.tracks_registered filters hpre hadd hpost
  obtain ⟨hyields, hcount⟩ := ht.yields hsettled hn hc hrange hend
  refine ⟨_, hyields, idsOfSeconds_nodup _ _ _ _ _, fun id => ?_, hcount⟩
  exact mem_idsOfSeconds hfilter (NegatedPlan.parse_tree hparse).1 hs hports

def portFilter : PacketFilter := { openFilter with srcPort := ⟨0, 0⟩, dstPort := ⟨1, 1⟩ }

theorem portQuery_filterList : buildFilterList (portQuery (lit "1")) 0 = .ok [portFilter] := rfl

theorem portQuery_selective : (portQuery (lit "1")).Selective := by
  intro d hd
  obtain rfl := List.mem_singleton.mp hd
  decide

/-- The pair of ports is registered between two bursts. -/
theorem character_truth_ports : ∃ (st : Store) (c : Nat) (out : List Nat),
    (Store.characterLookup c 0 9).Yields st st.numPkts .construct out ∧ out.Nodup ∧
      ∀ id, id ∈ out ↔ (portQuery (lit "1")).TrueIn 0 0 9 2 (packets [portBurst]) id := by
  have hsome : (((Store.init 0 fun _ => []).calls [.insertPktburst portBurst]).bind fun st₁ =>
      (st₁.addComplexCharacter [portFilter]).bind fun p =>
        p.1.calls [.insertPktburst portBurst]).isSome := by
    decide +kernel
  obtain ⟨st, hst⟩ := Option.isSome_iff_exists.mp hsome
  obtain ⟨st₁, hpre, hst⟩ := Option.bind_eq_some_iff.mp hst
  obtain ⟨⟨st₂, c⟩, hadd, hpost⟩ := Option.bind_eq_some_iff.mp hst
  have hports : ∀ p ∈ packets [portBurst], HasPorts p.1.data := by
    decide
  obtain ⟨out, hyields, hnd, hmem, -⟩ := character_truth (fun _ => []) portQuery_parsed
    portQuery_filterList portQuery_selective hpre hadd hpost hports (by decide : 0 ≤ 9) (by decide)
  exact ⟨st, c, out, hyields, hnd, hmem⟩

/-! ## Characters and casts -/

section

variable {now now' : UInt32}

/-- Only a predicate on the second asks for the time. -/
theorem buildIndexFilter_now {p : Predicate} (h : p.attr ≠ lit "timestamp") :
    buildIndexFilter p now = buildIndexFilter p now' := by
  simp only [buildIndexFilter, if_neg h]

theorem buildClause_now {es : List Expression} (h : ∀ p ∈ predicates es, p.attr ≠ lit "timestamp") :
    buildClause now es = buildClause now' es := by
  induction es with
  | nil => rfl
  | cons e es ih =>
    cases e with
    | predicate p =>
      rw [predicates, List.forall_mem_cons] at h
      rw [buildClause, buildClause, ih h.2, buildIndexFilter_now h.1]
    | _ => rfl

theorem buildFilters_now {ds : List Expression}
    (h : ∀ d ∈ disjunctsOr ds, ∀ p ∈ d, p.attr ≠ lit "timestamp") :
    buildFilters now ds = buildFilters now' ds := by
  induction ds with
  | nil => rfl
  | cons d ds ih =>
    cases d with
    | conjunction cs =>
      rw [disjunctsOr, List.forall_mem_cons] at h
      rw [buildFilters, buildFilters, ih h.2, buildClause_now h.1]
    | _ => rfl

theorem Expression.Selective.buildFilterList_now {e : Expression} (hs : e.Selective) :
    buildFilterList e now = buildFilterList e now' := by
  have hts : ∀ d ∈ disjuncts e, ∀ p ∈ d, p.attr ≠ lit "timestamp" := fun d hd => (hs d hd).2
  cases e with
  | predicate p =>
    have hp := hts [p] List.mem_cons_self p List.mem_cons_self
    rw [buildFilterList, buildFilterList, buildIndexFilter_now hp]
  | conjunction cs =>
    have hcs := hts _ (List.mem_singleton_self (predicates cs))
    rw [buildFilterList, buildFilterList, buildClause_now hcs]
  | disjunction ds => exact buildFilters_now hts
  | negation e => rfl

end

theorem Store.calls_bursts (bs : List Burst) : ∀ st : Store,
    st.calls (bs.map .insertPktburst) = bs.foldlM Store.insertPktburst st := by
  induction bs with
  | nil => exact fun _ => rfl
  | cons b bs ih =>
    intro st
    exact Option.bind_congr fun st₁ _ => ih st₁

theorem burstsOf_bursts (bs : List Burst) : burstsOf (bs.map .insertPktburst) = bs := by
  induction bs with
  | nil => rfl
  | cons b bs ih => exact congrArg (b :: ·) ih

/-- A text as a character, registered before any packet comes, and as a cast, at any second: after
bursts of TCP and UDP packets, all captured in the seconds that the character is asked for, the cast
answers what the character yields, and at most one other packet for each clause with a packet
filter. -/
theorem character_cast {text : Bytes} {e : Expression} {now now' : UInt32}
    {pfs : List PacketFilter} {bs : List Burst} {st₁ st : Store} {counts : Counts} {q : QueryPlan}
    {c tsBeg tsEnd : Nat} (filters : Nat → List PacketFilter) (hparse : parse text = .ok e)
    (hfilter : buildFilterList e now = .ok pfs) (hs : e.Selective)
    (hadd : (Store.init 0 filters).addComplexCharacter pfs = some (st₁, c))
    (hbs : ∀ b ∈ bs, b.pkts ≠ [] ∧ ∀ m ∈ b.pkts, m.TcpOrUdp)
    (hsecs : ∀ b ∈ bs, tsBeg ≤ b.now.toNat ∧ b.now.toNat ≤ tsEnd)
    (hst : bs.foldlM Store.insertPktburst st₁ = some st) (hrange : tsBeg ≤ tsEnd)
    (hend : tsEnd + 1 < 2 ^ 32) (hplan : plan counts e now' = .ok q) (hr : ∀ c ∈ q, c.InRange)
    (junk : Nat → Nat → Nat) :
    ∃ (n : Nat) (listed out extra : List Nat),
      (Store.characterLookup c tsBeg tsEnd).Yields st st.numPkts .construct listed ∧
      st.filterPkts n junk q = some out ∧
      extra.length ≤ (q.filter (·.performPktFilter)).length ∧
      ∀ id, id ∈ out ↔ id ∈ listed ∨ id ∈ extra := by
  have hpost := (Store.calls_bursts bs st₁).trans hst
  have hpre : (Store.init 0 filters).calls [] = some (Store.init 0 filters) := rfl
  obtain ⟨k, hk, ht, hsettled, hc⟩ := Store.tracks_registered filters hpre hadd hpost
  rw [burstsOf_bursts] at ht hk
  obtain ⟨-, -, hst₁⟩ := Store.addComplexCharacter_eq hadd
  have hinit : st₁ = Store.init 1 (Function.update filters 0 pfs) := hst₁
  rw [hinit] at hst
  obtain ⟨s, rfl, h⟩ := history_inserted hbs hst
  obtain ⟨n, out, extra, hout, hlen, hmem⟩ := h.mem_answer hparse hplan hr junk
  refine ⟨n, _, out, extra, (ht.yields hsettled hk hc hrange hend).1, hout, hlen, fun id => ?_⟩
  have hports : ∀ p ∈ packets bs, HasPorts p.1.data := fun p hp => (h.tcpOrUdp p hp).1
  have hfilter' : buildFilterList e now' = .ok pfs := hs.buildFilterList_now.trans hfilter
  rw [hmem, mem_idsOfSeconds hfilter' (NegatedPlan.parse_tree hparse).1 hs hports]
  refine or_congr_left ⟨?_, ?_⟩
  · rintro ⟨m, sec, hid, hval⟩
    obtain ⟨b, hb, hp⟩ := List.mem_flatMap.mp (List.mem_of_getElem? hid)
    obtain ⟨m', -, heq⟩ := List.mem_map.mp hp
    cases heq
    exact ⟨Nat.zero_le id, m, b.now, hid, (hsecs b hb).1, (hsecs b hb).2, hval⟩
  · rintro ⟨-, m, sec, hid, -, -, hval⟩
    exact ⟨m, sec, hid, hval⟩

/-- The pair of ports as a character and as a cast. -/
theorem character_cast_ports : ∃ (st : Store) (n : Nat) (listed out extra : List Nat),
    (Store.characterLookup 0 0 9).Yields st st.numPkts .construct listed ∧
      st.filterPkts n (fun _ _ => 0) [portClause 1] = some out ∧ extra.length ≤ 1 ∧
      ∀ id, id ∈ out ↔ id ∈ listed ∨ id ∈ extra := by
  have hadd : (Store.init 0 fun _ => []).addComplexCharacter [portFilter] = some
      (Store.init 1 (Function.update (fun _ => []) 0 [portFilter]), 0) := rfl
  have hsome : ([portBurst].foldlM Store.insertPktburst
      (Store.init 1 (Function.update (fun _ => []) 0 [portFilter]))).isSome := by
    decide +kernel
  obtain ⟨st, hst⟩ := Option.isSome_iff_exists.mp hsome
  have hsecs : ∀ b ∈ [portBurst], 0 ≤ b.now.toNat ∧ b.now.toNat ≤ 9 := by
    simp [portBurst]
  exact ⟨st, character_cast (fun _ => []) portQuery_parsed portQuery_filterList
    portQuery_selective hadd portBurst_tcpOrUdp hsecs hst (by decide) (by decide)
    (@portQuery_plan 1 (lit "1") rfl) (portClause_inRange 1) fun _ _ => 0⟩

end Netplay
