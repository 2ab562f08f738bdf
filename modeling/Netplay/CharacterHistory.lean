import Netplay.History
import Netplay.ScanOrder

/-!
# The history of a character

Registrations of characters and bursts one after the other. The list of a
character in a second is the ids of the packets of that second that its filters
accept, in the order of insertion, from its registration on.
-/

namespace Netplay

open Packet NetplayUtils

/-! ## The lists under the operations of a burst -/

/-- The values of the entries for one list, in their order. -/
def valuesAt (k : ListKey) (es : List Entry) : List Nat :=
  (es.filter fun p => p.1 = k).map Prod.snd

@[simp] theorem valuesAt_nil (k : ListKey) : valuesAt k [] = [] := rfl

theorem valuesAt_append (k : ListKey) (es es' : List Entry) :
    valuesAt k (es ++ es') = valuesAt k es ++ valuesAt k es' := by simp [valuesAt]

theorem valuesAt_entries_self (a : Append) :
    valuesAt a.key a.entries = (List.range a.count).map fun i => a.first + i := by
  simp [valuesAt, Append.entries, List.filter_map, Function.comp_def]

theorem valuesAt_entries_other (a : Append) {k : ListKey} (h : k ≠ a.key) :
    valuesAt k a.entries = [] := by
  simp [valuesAt, Append.entries, List.filter_map, Function.comp_def, Ne.symm h]

namespace Store

theorem storeFrom_other (a : Append) (idx n : Nat) {k : ListKey} (hk : k ≠ a.key) :
    ∀ (st : Store) (i : Nat), (st.storeFrom a idx i n).lists k = st.lists k := by
  induction n with
  | zero => exact fun _ _ => rfl
  | succ n ih =>
    intro st i
    rw [storeFrom, ih, updateList_other _ hk, updateList_other _ hk]

/-- The stores of an append fill its slots. -/
theorem storeFrom_slots (a : Append) (idx n : Nat) : ∀ (st : Store) (i j : Nat),
    ((st.storeFrom a idx i n).lists a.key).slots j =
      if idx + i ≤ j ∧ j < idx + i + n then .stored (a.first + (j - idx))
      else (st.lists a.key).slots j := by
  induction n with
  | zero =>
    intro st i j
    rw [if_neg (by omega)]
    rfl
  | succ n ih =>
    intro st i j
    rw [storeFrom, ih]
    simp only [updateList_self]
    by_cases hj : j = idx + i
    · subst hj
      rw [if_neg (by omega), if_pos (by omega), EntryList.store_slots, Nat.add_sub_cancel_left]
    · rw [EntryList.store_slots_other _ hj]
      by_cases hin : idx + (i + 1) ≤ j ∧ j < idx + (i + 1) + n
      · rw [if_pos hin, if_pos (by omega)]
      · rw [if_neg hin, if_neg (by omega)]
        rfl

theorem runAppend_other (st : Store) (a : Append) {k : ListKey} (hk : k ≠ a.key) :
    (st.runAppend a).lists k = st.lists k := by
  rw [runAppend, storeFrom_other a _ _ hk, updateList_other _ hk, updateList_other _ hk]

/-- An append of at least one entry puts its entries behind those of the list. -/
theorem runAppend_holds {st : Store} {a : Append} {ids : List Nat} (ha : 0 < a.count)
    (h : (st.lists a.key).Holds ids) :
    ((st.runAppend a).lists a.key).Holds (ids ++ (List.range a.count).map fun i => a.first + i) := by
  have hs := storeFrom_slots a (st.lists a.key).tail a.count
    ((st.updateList a.key .create).updateList a.key (·.reserve a)) 0
  obtain ⟨hc, ht⟩ := storeFrom_list a (st.lists a.key).tail a.count a.key
    ((st.updateList a.key .create).updateList a.key (·.reserve a)) 0
  simp only [updateList_self] at hc ht hs
  rw [runAppend]
  refine ⟨?_, ?_, fun j v hv => ?_⟩
  · have hne : (List.range a.count).map (fun i => a.first + i) ≠ [] := by
      simp only [ne_eq, List.map_eq_nil_iff, List.range_eq_nil]
      omega
    exact ⟨fun _ hnil => hne (List.append_eq_nil_iff.mp hnil).2, fun _ => hc⟩
  · rw [ht, List.length_append, List.length_map, List.length_range, ← h.tail]
    rfl
  · rw [hs j]
    rcases Nat.lt_or_ge j ids.length with hj | hj
    · rw [List.getElem?_append_left hj] at hv
      have htail := h.tail
      rw [if_neg (by omega), EntryList.reserve_slots_other]
      · exact h.slot j v hv
      · change ¬ ((st.lists a.key).tail ≤ j ∧ _)
        omega
    · rw [List.getElem?_append_right hj, List.getElem?_map, Option.map_eq_some_iff] at hv
      obtain ⟨i, hi, rfl⟩ := hv
      obtain ⟨hlt, hget⟩ := List.getElem?_eq_some_iff.mp hi
      rw [List.length_range] at hlt
      rw [List.getElem_range] at hget
      have htail := h.tail
      rw [if_pos (by omega), htail, hget]

/-- To the lists an operation is the append that it is or leads to. -/
theorem runOp_lists (st : Store) (op : Op) :
    (st.runOp op).lists = ((op.appended st.filters).elim st st.runAppend).lists := by
  cases op with
  | character c second id pkt =>
    rw [runOp, Op.appended]
    split <;> rfl
  | _ => rfl

/-- An operation puts its entries for a list behind those of the list. -/
theorem runOp_holds {st : Store} {op : Op} {k : ListKey} {ids : List Nat}
    (hop : ∀ a, op.appended st.filters = some a → a.key = k → 0 < a.count)
    (h : (st.lists k).Holds ids) :
    ((st.runOp op).lists k).Holds (ids ++ valuesAt k (op.entries st.filters)) := by
  rw [runOp_lists, Op.entries]
  cases ha : op.appended st.filters with
  | none =>
    rw [Option.elim_none, Option.elim_none, valuesAt_nil, List.append_nil]
    exact h
  | some a =>
    rw [Option.elim_some, Option.elim_some]
    by_cases hk : k = a.key
    · subst hk
      rw [valuesAt_entries_self]
      exact runAppend_holds (hop a ha rfl) h
    · rw [runAppend_other st a hk, valuesAt_entries_other a hk, List.append_nil]
      exact h

theorem runOps_holds {k : ListKey} (ops : List Op) : ∀ (st : Store) (ids : List Nat),
    (∀ op ∈ ops, ∀ a, op.appended st.filters = some a → a.key = k → 0 < a.count) →
    (st.lists k).Holds ids →
    ((st.runOps ops).lists k).Holds (ids ++ valuesAt k (entriesOf st.filters ops)) := by
  induction ops with
  | nil =>
    intro st ids _ h
    rw [entriesOf_nil, valuesAt_nil, List.append_nil]
    exact h
  | cons op ops ih =>
    intro st ids hops h
    have hf := (runOp_sameIds st op).filters
    have hrest := ih (st.runOp op) _ (fun op' hop' => by
      rw [hf]
      exact hops op' (List.mem_cons_of_mem _ hop')) (runOp_holds (hops op List.mem_cons_self) h)
    rw [hf, List.append_assoc] at hrest
    rw [entriesOf_cons, valuesAt_append]
    exact hrest

end Store

/-! ## The packets that a character accepts -/

/-- The ids of the packets captured in a second that a filter of the list
accepts; the first packet has id `id`. -/
def acceptedIds (filter : List PacketFilter) (second id : Nat) (ps : List (Mbuf × UInt32)) :
    List Nat :=
  ((ps.zipIdx id).filter fun p =>
    p.1.2.toNat = second ∧ filter.any (·.applyPkt p.1.1.data)).map Prod.snd

section

variable (filter : List PacketFilter) (second : Nat)

theorem acceptedIds_append (id : Nat) (ps ps' : List (Mbuf × UInt32)) :
    acceptedIds filter second id (ps ++ ps') =
      acceptedIds filter second id ps ++ acceptedIds filter second (id + ps.length) ps' := by
  rw [acceptedIds, List.zipIdx_append, List.filter_append, List.map_append]
  rfl

theorem acceptedIds_cons (id : Nat) (p : Mbuf × UInt32) (ps : List (Mbuf × UInt32)) :
    acceptedIds filter second id (p :: ps) =
      (if p.2.toNat = second ∧ filter.any (·.applyPkt p.1.data) then [id] else []) ++
        acceptedIds filter second (id + 1) ps := by
  rw [acceptedIds, List.zipIdx_cons, List.filter_cons]
  by_cases h : p.2.toNat = second ∧ filter.any (·.applyPkt p.1.data)
  · rw [if_pos (by simpa using h), if_pos h]
    rfl
  · rw [if_neg (by simpa using h), if_neg h]
    rfl

theorem acceptedIds_nodup (id : Nat) (ps : List (Mbuf × UInt32)) :
    (acceptedIds filter second id ps).Nodup := by
  have hsub : (acceptedIds filter second id ps).Sublist ((ps.zipIdx id).map Prod.snd) :=
    List.filter_sublist.map _
  rw [List.zipIdx_map_snd] at hsub
  exact hsub.nodup List.nodup_range'

variable {filter second}

theorem mem_acceptedIds {id v : Nat} {ps : List (Mbuf × UInt32)} :
    v ∈ acceptedIds filter second id ps ↔ id ≤ v ∧ ∃ m now, ps[v - id]? = some (m, now) ∧
      now.toNat = second ∧ filter.any (·.applyPkt m.data) := by
  simp only [acceptedIds, List.mem_map, List.mem_filter, decide_eq_true_eq, Prod.exists,
    List.mk_mem_zipIdx_iff_le_and_getElem?_sub]
  constructor
  · rintro ⟨m, now, v, ⟨⟨hle, hp⟩, hnow, hany⟩, rfl⟩
    exact ⟨hle, m, now, hp, hnow, hany⟩
  · rintro ⟨hle, m, now, hp, hnow, hany⟩
    exact ⟨m, now, v, ⟨⟨hle, hp⟩, hnow, hany⟩, rfl⟩

theorem acceptedIds_lt {id v : Nat} {ps : List (Mbuf × UInt32)}
    (h : v ∈ acceptedIds filter second id ps) : v < id + ps.length := by
  obtain ⟨hle, m, now, hp, -⟩ := mem_acceptedIds.mp h
  obtain ⟨hlt, -⟩ := List.getElem?_eq_some_iff.mp hp
  omega

/-- A packet has one capture second. -/
theorem acceptedIds_disjoint {second' : Nat} (h : second ≠ second') (id : Nat)
    (ps : List (Mbuf × UInt32)) :
    (acceptedIds filter second id ps).Disjoint (acceptedIds filter second' id ps) := by
  intro v hv hv'
  obtain ⟨-, m, now, hp, rfl, -⟩ := mem_acceptedIds.mp hv
  obtain ⟨-, m', now', hp', rfl, -⟩ := mem_acceptedIds.mp hv'
  rw [hp] at hp'
  cases hp'
  exact h rfl

end

/-- The ids of a character's packets in a range of seconds. -/
def idsOfSeconds (filter : List PacketFilter) (tsBeg tsEnd id : Nat) (ps : List (Mbuf × UInt32)) :
    List Nat :=
  (List.range' tsBeg (tsEnd + 1 - tsBeg)).flatMap fun ts => acceptedIds filter ts id ps

theorem idsOfSeconds_nodup (filter : List PacketFilter) (tsBeg tsEnd id : Nat)
    (ps : List (Mbuf × UInt32)) : (idsOfSeconds filter tsBeg tsEnd id ps).Nodup := by
  rw [idsOfSeconds, List.nodup_flatMap]
  have hseconds : (List.range' tsBeg (tsEnd + 1 - tsBeg)).Nodup := List.nodup_range'
  exact ⟨fun ts _ => acceptedIds_nodup filter ts id ps,
    hseconds.imp fun h => acceptedIds_disjoint h id ps⟩

/-! ## The lists of a character under a burst -/

theorem valuesAt_map {ks : List ListKey} (h : ks.Nodup) (k : ListKey) (id : Nat) :
    valuesAt k (ks.map (·, id)) = if k ∈ ks then [id] else [] := by
  have hmap : valuesAt k (ks.map (·, id)) = (ks.filter (· == k)).map fun _ => id := by
    rw [valuesAt, List.filter_map, List.map_map]
    rfl
  rw [hmap, List.filter_beq, List.Nodup.count h]
  split <;> rfl

theorem mem_pktLists_character {filters : Nat → List PacketFilter} {now n ts c : Nat} {m : Mbuf} :
    .character ts c ∈ pktLists filters now n m ↔
      now = ts ∧ c < n ∧ (filters c).any (·.applyPkt m.data) := by
  simp only [pktLists, List.mem_append, List.mem_map, List.mem_filter, List.mem_range,
    reduceCtorEq, and_false, exists_false, false_or, ListKey.character.injEq]
  constructor
  · rintro ⟨c, ⟨hc, hany⟩, rfl, rfl⟩
    exact ⟨rfl, hc, hany⟩
  · rintro ⟨rfl, hc, hany⟩
    exact ⟨c, ⟨hc, hany⟩, rfl, rfl⟩

theorem mem_packetLists_character {filters : Nat → List PacketFilter} {now n ts c : Nat}
    {m : Mbuf} : .character ts c ∈ packetLists filters now n m ↔
      now = ts ∧ c < n ∧ (filters c).any (·.applyPkt m.data) := by
  rw [packetLists, List.mem_cons, mem_pktLists_character]
  simp only [reduceCtorEq, false_or]

/-- The loop over the packets puts into a character's list what it accepts. -/
theorem valuesAt_loopOps (filters : Nat → List PacketFilter) (now : UInt32) (n ts c : Nat)
    (ms : List Mbuf) : ∀ id offset : Nat,
    valuesAt (.character ts c) (entriesOf filters (loopOps now.toNat n id offset ms)) =
      if c < n then acceptedIds (filters c) ts id (ms.map (·, now)) else [] := by
  induction ms with
  | nil =>
    intro id offset
    split <;> rfl
  | cons m ms ih =>
    intro id offset
    rw [loopOps, entriesOf_append, valuesAt_append, ih, entriesOf_pktOps,
      valuesAt_map (pktLists_nodup filters now.toNat n m), List.map_cons]
    by_cases hc : c < n
    · simp only [mem_pktLists_character, hc, true_and, if_true]
      rw [acceptedIds_cons]
    · simp only [mem_pktLists_character, hc, false_and, and_false, if_false, List.append_nil]

theorem valuesAt_burstOps (filters : Nat → List PacketFilter) (b : Burst)
    (start offset n ts c : Nat) :
    valuesAt (.character ts c) (entriesOf filters (burstOps b start offset n)) =
      if c < n then acceptedIds (filters c) ts start (b.pkts.map (·, b.now)) else [] := by
  rw [burstOps, entriesOf_cons, valuesAt_append, valuesAt_loopOps]
  have hnil : valuesAt (.character ts c) ((Op.append ⟨.index timestampIdx b.now.toNat, start,
      b.cnt⟩).entries filters) = [] :=
    valuesAt_entries_other _ (by simp)
  rw [hnil, List.nil_append]

/-- An append that is not itself an operation has one entry. -/
theorem appended_append {filters : Nat → List PacketFilter} {op : Op} {a : Append}
    (h : op.appended filters = some a) : op = .append a ∨ a.count = 1 := by
  cases op with
  | append a' =>
    cases h
    exact .inl rfl
  | character c second id pkt =>
    rw [Op.appended] at h
    split at h
    · cases h
      exact .inr rfl
    · cases h
  | setOfflen id offset length => cases h
  | appendPkt offset ts pkt len => cases h

/-! ## Calls one after the other -/

/-- `MAX_FILTERS`. -/
def maxFilters : Nat := 65536

/-- A call of `add_complex_character` or of `insert_pktburst`. -/
inductive StoreCall where
  | addComplexCharacter : List PacketFilter → StoreCall
  | insertPktburst : Burst → StoreCall

/-- The bursts among the calls. -/
def burstsOf (cs : List StoreCall) : List Burst :=
  cs.filterMap fun
    | .addComplexCharacter _ => none
    | .insertPktburst b => some b

theorem packets_cons (cl : StoreCall) (cs : List StoreCall) :
    packets (burstsOf (cl :: cs)) = packets (burstsOf [cl]) ++ packets (burstsOf cs) := by
  cases cl with
  | addComplexCharacter filter => rfl
  | insertPktburst b => simp [packets, burstsOf]

namespace Store

/-- The `fetch_add` on `num_filters_`; the character is the old value. -/
def takeCharacter (st : Store) : Store := { st with numFilters := st.numFilters + 1 }

/-- The assignment to `filters_[c]`. -/
def setFilters (st : Store) (c : Nat) (filter : List PacketFilter) : Store :=
  { st with filters := Function.update st.filters c filter }

/-- `add_complex_character` with the id that it returns; `none` behind the array's end. -/
def addComplexCharacter (st : Store) (filter : List PacketFilter) : Option (Store × Nat) :=
  if st.numFilters < maxFilters then
    some (st.takeCharacter.setFilters st.numFilters filter, st.numFilters)
  else none

def call (st : Store) : StoreCall → Option Store
  | .addComplexCharacter filter => (st.addComplexCharacter filter).map Prod.fst
  | .insertPktburst b => st.insertPktburst b

def calls (st : Store) (cs : List StoreCall) : Option Store := cs.foldlM call st

/-- Between calls the store has these many packets, all of them published, and
nothing is in the lists of characters that are not registered. -/
structure Settled (st : Store) (n : Nat) : Prop where
  readId : st.readId = n
  writeId : st.writeId = n
  vacant : ∀ c, st.numFilters ≤ c → ∀ ts, (st.lists (.character ts c)).Holds []

/-- Character `c` has these filters, and its lists have the packets it accepts
among those from `id` on. -/
structure Tracks (st : Store) (c : Nat) (filter : List PacketFilter) (id : Nat)
    (ps : List (Mbuf × UInt32)) : Prop where
  registered : c < st.numFilters
  filters : st.filters c = filter
  lists : ∀ ts, (st.lists (.character ts c)).Holds (acceptedIds filter ts id ps)

theorem settled_init (filters : Nat → List PacketFilter) : (Store.init 0 filters).Settled 0 :=
  ⟨rfl, rfl, fun _ _ _ => EntryList.holds_empty⟩

/-- A burst puts into the lists of the registered characters what they accept. -/
theorem insertPktburst_holds {st st' : Store} {b : Burst} (h : st.insertPktburst b = some st') :
    st'.readId = st.writeId + b.cnt ∧ st'.writeId = st.writeId + b.cnt ∧
      st'.numFilters = st.numFilters ∧ st'.filters = st.filters ∧
      ∀ c ts ids, (st.lists (.character ts c)).Holds ids →
        (st'.lists (.character ts c)).Holds (ids ++ if c < st.numFilters then
          acceptedIds (st.filters c) ts st.writeId (b.pkts.map (·, b.now)) else []) := by
  rw [insertPktburst] at h
  split at h
  · cases h
    have hids := runOps_sameIds (burstOps b st.writeId st.dtail st.numFilters)
      ((st.requestIdBlock b.cnt).requestBytes b.nbytes)
    refine ⟨rfl, hids.writeId, hids.numFilters, hids.filters, fun c ts ids hl => ?_⟩
    rw [← valuesAt_burstOps st.filters b st.writeId st.dtail]
    refine runOps_holds _ _ _ (fun op hop a ha hk => ?_) hl
    rcases appended_append ha with rfl | hone
    · rcases List.mem_cons.mp hop with hop | hop
      · cases hop
        cases hk
      · rw [loopOps_count _ _ _ _ _ a hop]
        exact Nat.zero_lt_one
    · rw [hone]
      exact Nat.zero_lt_one
  · cases h

theorem addComplexCharacter_eq {st st' : Store} {filter : List PacketFilter} {c : Nat}
    (h : st.addComplexCharacter filter = some (st', c)) :
    st.numFilters < maxFilters ∧ c = st.numFilters ∧
      st' = st.takeCharacter.setFilters st.numFilters filter := by
  rw [addComplexCharacter] at h
  split at h
  · next hroom =>
    cases h
    exact ⟨hroom, rfl, rfl⟩
  · cases h

theorem call_settled (cl : StoreCall) {st st' : Store} {n : Nat} (hs : st.Settled n)
    (h : st.call cl = some st') : st'.Settled (n + (packets (burstsOf [cl])).length) := by
  cases cl with
  | addComplexCharacter filter =>
    obtain ⟨⟨st', c⟩, hadd, rfl⟩ := Option.map_eq_some_iff.mp h
    obtain ⟨-, rfl, rfl⟩ := addComplexCharacter_eq hadd
    exact ⟨hs.readId, hs.writeId, fun c hc => hs.vacant c (Nat.le_of_succ_le hc)⟩
  | insertPktburst b =>
    obtain ⟨hread, hwrite, hnum, -, hlists⟩ := insertPktburst_holds h
    have hcnt : (packets (burstsOf [.insertPktburst b])).length = b.cnt := by
      simp [packets, burstsOf, Burst.cnt]
    rw [hs.writeId] at hread hwrite
    rw [hcnt]
    refine ⟨hread, hwrite, fun c hc ts => ?_⟩
    rw [hnum] at hc
    have hl := hlists c ts [] (hs.vacant c hc ts)
    rw [if_neg (Nat.not_lt.mpr hc), List.append_nil] at hl
    exact hl

theorem call_tracks {st st' : Store} {c id : Nat} {filter : List PacketFilter}
    {ps : List (Mbuf × UInt32)} {cl : StoreCall} (hs : st.Settled (id + ps.length))
    (ht : st.Tracks c filter id ps) (h : st.call cl = some st') :
    st'.Tracks c filter id (ps ++ packets (burstsOf [cl])) := by
  cases cl with
  | addComplexCharacter filter' =>
    obtain ⟨⟨st', c'⟩, hadd, rfl⟩ := Option.map_eq_some_iff.mp h
    obtain ⟨-, rfl, rfl⟩ := addComplexCharacter_eq hadd
    have hnil : packets (burstsOf [.addComplexCharacter filter']) = [] := rfl
    rw [hnil, List.append_nil]
    refine ⟨Nat.lt_succ_of_lt ht.registered, ?_, ht.lists⟩
    exact (Function.update_of_ne (Nat.ne_of_lt ht.registered) _ _).trans ht.filters
  | insertPktburst b =>
    obtain ⟨-, -, hnum, hfilters, hlists⟩ := insertPktburst_holds h
    have hps : packets (burstsOf [.insertPktburst b]) = b.pkts.map (·, b.now) := by
      simp [packets, burstsOf]
    refine ⟨by rw [hnum]; exact ht.registered, by rw [hfilters]; exact ht.filters, fun ts => ?_⟩
    have hl := hlists c ts _ (ht.lists ts)
    rw [if_pos ht.registered, ht.filters, hs.writeId] at hl
    rw [hps, acceptedIds_append]
    exact hl

/-- A new character has accepted nothing yet. -/
theorem registered_tracks {st : Store} {n : Nat} (hs : st.Settled n) (filter : List PacketFilter) :
    (st.takeCharacter.setFilters st.numFilters filter).Tracks st.numFilters filter n [] :=
  ⟨Nat.lt_succ_self _, Function.update_self _ _ _, hs.vacant _ (Nat.le_refl _)⟩

/-- Over all calls, the packets are counted. -/
theorem calls_settled (cs : List StoreCall) : ∀ {st st' : Store} {n : Nat}, st.Settled n →
    st.calls cs = some st' → st'.Settled (n + (packets (burstsOf cs)).length) := by
  induction cs with
  | nil =>
    intro st st' n hs h
    cases h
    exact hs
  | cons cl cs ih =>
    intro st st' n hs h
    obtain ⟨st₁, hcall, hrest⟩ := Option.bind_eq_some_iff.mp h
    have hsplit : packets (burstsOf (cl :: cs)) =
        packets (burstsOf [cl]) ++ packets (burstsOf cs) := packets_cons cl cs
    rw [hsplit, List.length_append, ← Nat.add_assoc]
    exact ih (call_settled cl hs hcall) hrest

/-- Over all calls, the lists of a registered character are what it accepts. -/
theorem calls_tracks {c id : Nat} {filter : List PacketFilter} (cs : List StoreCall) :
    ∀ {st st' : Store} {ps : List (Mbuf × UInt32)}, st.Tracks c filter id ps →
      st.Settled (id + ps.length) → st.calls cs = some st' →
      st'.Tracks c filter id (ps ++ packets (burstsOf cs)) := by
  induction cs with
  | nil =>
    intro st st' ps ht hs h
    cases h
    have hnil : packets (burstsOf []) = [] := rfl
    rw [hnil, List.append_nil]
    exact ht
  | cons cl cs ih =>
    intro st st' ps ht hs h
    obtain ⟨st₁, hcall, hrest⟩ := Option.bind_eq_some_iff.mp h
    rw [packets_cons, ← List.append_assoc]
    have hs₁ := call_settled cl hs hcall
    rw [Nat.add_assoc, ← List.length_append] at hs₁
    exact ih (call_tracks hs ht hcall) hs₁ hrest

/-- The lookup of a character. -/
def characterLookup (c tsBeg tsEnd : Nat) : Scan := ⟨.character c, tsBeg, tsEnd, none⟩

/-- A character registered anywhere in a history: the lookup over a range of
seconds finishes, and yields the ids of the packets that its filters accept
among those inserted since, once each, second by second. -/
theorem lookup_exact {pre post : List StoreCall} {filter : List PacketFilter}
    {st₁ st₂ st : Store} {c tsBeg tsEnd : Nat} (filters : Nat → List PacketFilter)
    (hpre : (Store.init 0 filters).calls pre = some st₁)
    (hadd : st₁.addComplexCharacter filter = some (st₂, c))
    (hpost : st₂.calls post = some st) (hrange : tsBeg ≤ tsEnd) (hend : tsEnd + 1 < 2 ^ 32) :
    (characterLookup c tsBeg tsEnd).Yields st st.numPkts .construct
      (idsOfSeconds filter tsBeg tsEnd (packets (burstsOf pre)).length (packets (burstsOf post))) ∧
    (idsOfSeconds filter tsBeg tsEnd (packets (burstsOf pre)).length
      (packets (burstsOf post))).Nodup := by
  have hs₁ := calls_settled pre (settled_init filters) hpre
  rw [Nat.zero_add] at hs₁
  obtain ⟨-, rfl, rfl⟩ := addComplexCharacter_eq hadd
  have hs₂ : Settled _ (packets (burstsOf pre)).length :=
    call_settled (.addComplexCharacter filter) hs₁ (Option.map_eq_some_iff.mpr ⟨_, hadd, rfl⟩)
  have ht := calls_tracks post (registered_tracks hs₁ filter) hs₂ hpost
  have hs := calls_settled post hs₂ hpost
  refine ⟨Scan.Filled.yields (q := characterLookup st₁.numFilters tsBeg tsEnd) ?_,
    idsOfSeconds_nodup _ _ _ _ _⟩
  refine ⟨rfl, hrange, hend, fun ts _ _ => ht.lists ts, fun ts v hv => ?_⟩
  rw [numPkts, hs.readId]
  exact acceptedIds_lt hv

def blankBurst (now : UInt32) : Burst := ⟨now, [⟨fun _ => 0, 60⟩]⟩

/-- The character is registered between the first two bursts. -/
theorem lookup_exact_bursts : ∃ st₁ st₂ st : Store, ∃ c,
    (Store.init 0 fun _ => []).calls [.insertPktburst (blankBurst 5)] = some st₁ ∧
    st₁.addComplexCharacter [openFilter] = some (st₂, c) ∧
    st₂.calls [.insertPktburst (blankBurst 9), .insertPktburst (blankBurst 7)] = some st ∧
    (characterLookup c 5 9).Yields st st.numPkts .construct [2, 1] := by
  have hsome : (((Store.init 0 fun _ => []).calls [.insertPktburst (blankBurst 5)]).bind fun st₁ =>
      (st₁.addComplexCharacter [openFilter]).bind fun p =>
        p.1.calls [.insertPktburst (blankBurst 9), .insertPktburst (blankBurst 7)]).isSome := by
    decide +kernel
  obtain ⟨st, hst⟩ := Option.isSome_iff_exists.mp hsome
  obtain ⟨st₁, h₁, hst⟩ := Option.bind_eq_some_iff.mp hst
  obtain ⟨⟨st₂, c⟩, h₂, h₃⟩ := Option.bind_eq_some_iff.mp hst
  exact ⟨st₁, st₂, st, c, h₁, h₂, h₃,
    (lookup_exact (fun _ => []) h₁ h₂ h₃ (by decide : 5 ≤ 9) (by decide)).1⟩

end Store

end Netplay
