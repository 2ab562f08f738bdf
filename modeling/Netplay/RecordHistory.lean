import Netplay.ReservedIds

/-!
# The records in the data log

Insertions of all three kinds, with the order in which their bytes were written. A handle that
runs past its data block writes over records of others, so what the data log holds is the
history of the writes, and not the list of the records. The entries of the offset log are
written once for each id.
-/

namespace Netplay

open BlockTail

/-- The insertion of one record: its id, the offset in its entry, what `append_pkt` writes in
front of it there, and its bytes. -/
structure Insertion where
  id : Nat
  offset : Nat
  front : List UInt8
  record : List UInt8
  deriving DecidableEq, Repr

namespace Insertion

/-- What is written to the data log. -/
def bytes (i : Insertion) : List UInt8 := i.front ++ i.record

def entry (i : Insertion) : LogOp := .set i.id i.offset i.record.length

def append (i : Insertion) : LogOp := .append i.bytes i.offset

theorem bytes_length (i : Insertion) : i.bytes.length = i.front.length + i.record.length :=
  List.length_append

end Insertion

/-- A packet is inserted behind the 8 bytes of its second. -/
def Mbuf.insertion (now id offset : Nat) (m : Mbuf) : Insertion :=
  ⟨id, offset, (List.range 8).map (byteOf now), (List.range m.size).map m.data⟩

theorem Mbuf.insertion_bytes (now id offset : Nat) (m : Mbuf) :
    (m.insertion now id offset).bytes = (List.range (8 + m.size)).map (Netplay.record now m.data) := by
  rw [Insertion.bytes, insertion, List.range_add, List.map_append, List.map_map]
  congr 1
  refine List.map_congr_left fun i _ => ?_
  rw [Function.comp_apply, Netplay.record, if_neg (by omega), Nat.add_sub_cancel_left]

/-- The insertions of a burst. -/
def burstInsertions (now : Nat) : (id offset : Nat) → List Mbuf → List Insertion
  | _, _, [] => []
  | id, offset, m :: ms =>
    m.insertion now id offset :: burstInsertions now (id + 1) (offset + (8 + m.size)) ms

theorem burstLogOps_eq (now : Nat) (ms : List Mbuf) : ∀ id offset,
    burstLogOps now id offset ms =
      (burstInsertions now id offset ms).flatMap fun i => [i.entry, i.append] := by
  induction ms with
  | nil => exact fun _ _ => rfl
  | cons m ms ih =>
    intro id offset
    rw [burstLogOps, burstInsertions, List.flatMap_cons, ih, Insertion.append,
      Mbuf.insertion_bytes, Insertion.entry, Mbuf.insertion, List.length_map, List.length_range]
    rfl

theorem burstLogOps_length (now : Nat) (ms : List Mbuf) : ∀ id offset,
    (burstLogOps now id offset ms).length = 2 * ms.length := by
  induction ms with
  | nil => exact fun _ _ => rfl
  | cons m ms ih =>
    intro id offset
    rw [burstLogOps, List.length_cons, List.length_cons, ih, List.length_cons]
    omega

theorem mem_burstInsertions {now : Nat} {ms : List Mbuf} : ∀ {id offset : Nat} {i : Insertion},
    i ∈ burstInsertions now id offset ms → id ≤ i.id ∧ i.id < id + ms.length ∧
      offset ≤ i.offset ∧ i.record.length < 65536 := by
  induction ms with
  | nil => exact fun h => absurd h List.not_mem_nil
  | cons m ms ih =>
    intro id offset i hi
    rw [List.length_cons]
    rcases List.mem_cons.mp hi with rfl | hi
    · refine ⟨Nat.le_refl _, ?_, Nat.le_refl _, ?_⟩
      · dsimp only [Mbuf.insertion]
        omega
      · rw [Mbuf.insertion, List.length_map, List.length_range]
        exact Nat.mod_lt _ (by decide)
    · obtain ⟨h1, h2, h3, h4⟩ := ih hi
      exact ⟨by omega, by omega, by omega, h4⟩

/-- The insertions of a burst have different ids and different offsets. -/
theorem burstInsertions_distinct {now : Nat} {ms : List Mbuf} : ∀ {id offset : Nat},
    ∀ i ∈ burstInsertions now id offset ms, ∀ j ∈ burstInsertions now id offset ms,
      i.id = j.id ∨ i.offset = j.offset → i = j := by
  induction ms with
  | nil => exact fun i hi => absurd hi List.not_mem_nil
  | cons m ms ih =>
    intro id offset i hi j hj heq
    have hbehind : ∀ k ∈ burstInsertions now (id + 1) (offset + (8 + m.size)) ms,
        id < k.id ∧ offset < k.offset := by
      intro k hk
      obtain ⟨h1, -, h3, -⟩ := mem_burstInsertions hk
      omega
    rcases List.mem_cons.mp hi with rfl | hi' <;> rcases List.mem_cons.mp hj with rfl | hj'
    · rfl
    · have := hbehind j hj'
      dsimp only [Mbuf.insertion] at heq
      omega
    · have := hbehind i hi'
      dsimp only [Mbuf.insertion] at heq
      omega
    · exact ih i hi' j hj' heq

theorem exists_burstInsertion {now : Nat} {ms : List Mbuf} : ∀ {id offset k : Nat},
    id ≤ k → k < id + ms.length → ∃ i ∈ burstInsertions now id offset ms, i.id = k := by
  induction ms with
  | nil =>
    intro id offset k h1 h2
    rw [List.length_nil] at h2
    omega
  | cons m ms ih =>
    intro id offset k h1 h2
    rw [List.length_cons] at h2
    by_cases hk : k = id
    · exact ⟨_, List.mem_cons_self, hk.symm⟩
    · obtain ⟨i, hi, hid⟩ := @ih (id + 1) (offset + (8 + m.size)) k (by omega) (by omega)
      exact ⟨i, List.mem_cons_of_mem _ hi, hid⟩

/-! ## The insertions of a caller -/

namespace Caller

/-- The operations that are left of the call in flight. -/
def todo : Caller → List LogOp
  | .store (.running _ _ _ todo) => todo
  | .handle (.running _ _ todo) => todo
  | .burst (.running _ _ todo) => todo
  | _ => []

/-- The insertion whose bytes the caller writes next, if that is its next step. A packet of a
burst has two operations. -/
def appending : Caller → List Insertion
  | .store (.running r offset id (.append _ _ :: _)) => [⟨id, offset, [], r.bytes⟩]
  | .handle (.running h r (.append _ _ :: _)) => [⟨h.curId, h.curOffset, [], r.bytes⟩]
  | .burst (.running b start (.append _ offset :: todo)) =>
    let k := b.cnt - 1 - todo.length / 2
    (b.pkts[k]?.map fun m => m.insertion b.now.toNat (start + k) offset).toList
  | _ => []

/-- The call in flight makes the insertions. -/
def Carries : Caller → List Insertion → Prop
  | .store (.running r offset id todo), is =>
    is = [⟨id, offset, [], r.bytes⟩] ∧ todo <:+ LogStore.insertOps r offset id
  | .handle (.running h r todo), is =>
    is = [⟨h.curId, h.curOffset, [], r.bytes⟩] ∧ todo <:+ h.insertOps r
  | .burst (.running b start todo), is => ∃ offset,
    is = burstInsertions b.now.toNat start offset b.pkts ∧
      todo <:+ burstLogOps b.now.toNat start offset b.pkts
  | _, is => is = []

/-- What a caller does next with its insertions, and what they are. -/
structure Call (x : Caller) (is : List Insertion) : Prop where
  holds : ∀ i ∈ is, ∃ b, x.block = some b ∧ b.Holds i.id
  small : ∀ i ∈ is, i.record.length < 65536
  distinct : ∀ i ∈ is, ∀ j ∈ is, i.id = j.id ∨ i.offset = j.offset → i = j
  next : ∀ op todo, x.todo = op :: todo →
    (∃ i ∈ is, op = i.append ∧ x.appending = [i]) ∨
      ((∃ i ∈ is, op = i.entry) ∨ ∃ id tokens, op = .index id tokens) ∧ x.appending = []
  rests : x.todo = [] → x.appending = []

variable {x : Caller} {is : List Insertion}

/-- The operations of a burst are those of its packets, and each packet is found by the number
of operations that are left. -/
theorem burst_next {now : Nat} {ms : List Mbuf} : ∀ {id offset : Nat} {op : LogOp}
    {todo : List LogOp}, op :: todo <:+ burstLogOps now id offset ms →
    (∃ i ∈ burstInsertions now id offset ms, op = i.entry) ∨
      ∃ i ∈ burstInsertions now id offset ms, op = i.append ∧
        ms[ms.length - 1 - todo.length / 2]?.map (fun m =>
          m.insertion now (id + (ms.length - 1 - todo.length / 2)) i.offset) = some i := by
  induction ms with
  | nil =>
    intro id offset op todo h
    exact absurd (List.suffix_nil.mp h) (List.cons_ne_nil _ _)
  | cons m ms ih =>
    intro id offset op todo h
    have hlen : (burstLogOps now (id + 1) (offset + (8 + m.size)) ms).length = 2 * ms.length := by
      rw [burstLogOps_length]
    rw [burstLogOps] at h
    rcases List.suffix_cons_iff.mp h with heq | h
    · left
      refine ⟨_, List.mem_cons_self, ?_⟩
      rw [(List.cons.inj heq).1, Insertion.entry, Mbuf.insertion, List.length_map,
        List.length_range]
    · rcases List.suffix_cons_iff.mp h with heq | h
      · right
        refine ⟨_, List.mem_cons_self, ?_, ?_⟩
        · rw [(List.cons.inj heq).1, Insertion.append, Mbuf.insertion_bytes]
          rfl
        · rw [(List.cons.inj heq).2, hlen, List.length_cons,
            show ms.length + 1 - 1 - 2 * ms.length / 2 = 0 by omega]
          rfl
      · have hle := h.length_le
        rw [List.length_cons, hlen] at hle
        have hk : ms.length + 1 - 1 - todo.length / 2 = ms.length - 1 - todo.length / 2 + 1 := by
          omega
        rcases ih h with ⟨i, hi, hop⟩ | ⟨i, hi, hop, hfind⟩
        · exact .inl ⟨i, List.mem_cons_of_mem _ hi, hop⟩
        · refine .inr ⟨i, List.mem_cons_of_mem _ hi, hop, ?_⟩
          rw [List.length_cons, hk, List.getElem?_cons_succ, ← hfind, Nat.add_assoc, Nat.add_comm 1]

/-- The two kinds of `insert` have one insertion. -/
theorem call_single {i : Insertion} (hb : ∃ b, x.block = some b ∧ b.Holds i.id)
    (hsmall : i.record.length < 65536)
    (hnext : ∀ op todo, x.todo = op :: todo → (op = i.append ∧ x.appending = [i]) ∨
      (op = i.entry ∨ ∃ id tokens, op = .index id tokens) ∧ x.appending = [])
    (hrests : x.todo = [] → x.appending = []) : x.Call [i] := by
  refine ⟨fun j hj => ?_, fun j hj => ?_, fun j hj k hk _ => ?_, fun op todo h => ?_, hrests⟩
  · rwa [List.mem_singleton.mp hj]
  · rwa [List.mem_singleton.mp hj]
  · rw [List.mem_singleton.mp hj, List.mem_singleton.mp hk]
  · rcases hnext op todo h with ⟨hop, hx⟩ | ⟨hop | hop, hx⟩
    · exact .inl ⟨i, List.mem_singleton_self i, hop, hx⟩
    · exact .inr ⟨.inl ⟨i, List.mem_singleton_self i, hop⟩, hx⟩
    · exact .inr ⟨.inr hop, hx⟩

theorem call_none (htodo : x.todo = []) (hx : x.appending = []) : x.Call [] :=
  ⟨fun _ h => absurd h List.not_mem_nil, fun _ h => absurd h List.not_mem_nil,
    fun _ h => absurd h List.not_mem_nil,
    fun op todo h => absurd (htodo.symm.trans h) (List.cons_ne_nil op todo).symm, fun _ => hx⟩

theorem Carries.call (h : x.Carries is) (hr : x.Ready) : x.Call is := by
  cases x with
  | store x =>
    cases x with
    | running r offset id todo =>
      obtain ⟨rfl, hsuf⟩ := h
      refine call_single ⟨_, rfl, Nat.le_refl _, Nat.lt_succ_self _⟩ r.len_lt ?_ ?_
      · rintro op rest rfl
        have hop := hsuf.subset List.mem_cons_self
        simp only [LogStore.insertOps, List.mem_cons, List.not_mem_nil, or_false] at hop
        rcases hop with rfl | rfl | rfl
        · exact .inr ⟨.inl rfl, rfl⟩
        · exact .inl ⟨rfl, rfl⟩
        · exact .inr ⟨.inr ⟨_, _, rfl⟩, rfl⟩
      · rintro rfl
        rfl
    | _ =>
      cases h
      exact call_none rfl rfl
  | handle x =>
    cases x with
    | running h' r todo =>
      obtain ⟨rfl, hsuf⟩ := h
      refine call_single ⟨_, rfl, Nat.le_refl _, Nat.lt_add_of_pos_right hr.2⟩ r.len_lt ?_ ?_
      · rintro op rest rfl
        have hop := hsuf.subset List.mem_cons_self
        simp only [Handle.insertOps, List.mem_cons, List.not_mem_nil, or_false] at hop
        rcases hop with rfl | rfl | rfl
        · exact .inl ⟨rfl, rfl⟩
        · exact .inr ⟨.inr ⟨_, _, rfl⟩, rfl⟩
        · exact .inr ⟨.inl rfl, rfl⟩
      · rintro rfl
        rfl
    | _ =>
      cases h
      exact call_none rfl rfl
  | burst x =>
    cases x with
    | running b start todo =>
      obtain ⟨offset, rfl, hsuf⟩ := h
      refine ⟨fun i hi => ?_, fun i hi => (mem_burstInsertions hi).2.2.2,
        burstInsertions_distinct, ?_, ?_⟩
      · obtain ⟨h1, h2, -⟩ := mem_burstInsertions hi
        exact ⟨_, rfl, h1, h2⟩
      · rintro op rest rfl
        rcases burst_next hsuf with ⟨i, hi, rfl⟩ | ⟨i, hi, rfl, hfind⟩
        · exact .inr ⟨.inl ⟨i, hi, rfl⟩, rfl⟩
        · exact .inl ⟨i, hi, rfl, congrArg Option.toList hfind⟩
      · rintro rfl
        rfl
    | _ =>
      cases h
      exact call_none rfl rfl

variable {D : Type} [Datalog D]

/-- The logs, and the ids that have been ended, are the same. -/
structure SameLogs (st st' : LogStore D) : Prop where
  offlens : st'.olog.offlens = st.olog.offlens
  dlog : st'.dlog = st.dlog
  readId : st'.olog.readId = st.olog.readId

/-- A step runs an operation of the call in flight, begins a call, or ends the ids of one. -/
inductive StepKind (st st' : LogStore D) (x x' : Caller) (is : List Insertion) : Prop where
  | run (op : LogOp) (htodo : x.todo = op :: x'.todo) (hrun : st.runOp op = .ok st')
      (hcarries : x'.Carries is) : StepKind st st' x x' is
  | begin (is' : List Insertion) (hnone : is = []) (htodo : x.todo = []) (hsame : SameLogs st st')
      (hcarries : x'.Carries is')
      (hall : ∀ i ∈ is', i.entry ∈ x'.todo ∧ i.append ∈ x'.todo) : StepKind st st' x x' is
  | finish (htodo : x.todo = []) (hcarries : x'.Carries [])
      (hoff : st'.olog.offlens = st.olog.offlens) (hdlog : st'.dlog = st.dlog)
      (hread : ∀ k, k < st'.olog.readId ↔ k < st.olog.readId ∨ ∃ i ∈ is, i.id = k) :
      StepKind st st' x x' is

theorem step_kind {st st' : LogStore D} {x' : Caller} (hc : x.Carries is) (h : x.Step st st' x') :
    StepKind st st' x x' is := by
  cases h with
  | store x st' x' ret h =>
    cases h with
    | locate r _ hst =>
      obtain ⟨-, rfl⟩ := LogStore.requestBytes_eq hst
      exact .begin [] hc rfl ⟨rfl, rfl, rfl⟩ rfl (fun _ h => absurd h List.not_mem_nil)
    | start r offset =>
      refine .begin [⟨st.olog.writeId, offset, [], r.bytes⟩] hc rfl ⟨rfl, rfl, rfl⟩
        ⟨rfl, List.suffix_refl _⟩ fun i hi => ?_
      obtain rfl := List.mem_singleton.mp hi
      exact ⟨List.mem_cons_self, List.mem_cons_of_mem _ List.mem_cons_self⟩
    | run r offset id op todo _ hst =>
      exact .run op rfl hst ⟨hc.1, (List.suffix_cons op todo).trans hc.2⟩
    | finish r offset id _ hst =>
      obtain ⟨rfl, rfl⟩ := LogStore.endBlock_eq hst
      obtain ⟨rfl, -⟩ := hc
      refine .finish rfl rfl rfl rfl fun k => ?_
      simp only [List.mem_singleton, exists_eq_left, Nat.lt_succ_iff_lt_or_eq, eq_comm]
  | handle x st' x' h =>
    cases h with
    | number h r p hp =>
      refine .begin [] hc rfl ?_ rfl (fun _ h => absurd h List.not_mem_nil)
      rcases LogStore.takeIds_cases hp with ⟨-, -, rfl⟩ | ⟨-, rfl⟩
      · exact ⟨rfl, rfl, rfl⟩
      · exact ⟨rfl, rfl, rfl⟩
    | place h r p hp =>
      refine .begin [⟨p.2.curId, p.2.curOffset, [], r.bytes⟩] hc rfl ?_ ⟨rfl, List.suffix_refl _⟩
        fun i hi => ?_
      · rcases LogStore.takeBytes_cases hp with ⟨-, -, rfl⟩ | ⟨-, rfl⟩
        · exact ⟨rfl, rfl, rfl⟩
        · exact ⟨rfl, rfl, rfl⟩
      · obtain rfl := List.mem_singleton.mp hi
        exact ⟨List.mem_cons_of_mem _ (List.mem_cons_of_mem _ List.mem_cons_self),
          List.mem_cons_self⟩
    | run h r op todo _ hp => exact .run op rfl hp ⟨hc.1, (List.suffix_cons op todo).trans hc.2⟩
    | finish h r _ hp =>
      obtain ⟨hid, rfl⟩ := LogStore.endBlock_eq hp
      obtain ⟨rfl, -⟩ := hc
      refine .finish rfl rfl rfl rfl fun k => ?_
      simp only [List.mem_singleton, exists_eq_left, hid, Nat.lt_succ_iff_lt_or_eq, eq_comm]
  | burst x st' x' h =>
    cases h with
    | reserve b olog hst =>
      obtain ⟨-, rfl⟩ := OffsetLog.requestIdBlock_eq hst
      exact .begin [] hc rfl ⟨rfl, rfl, rfl⟩ rfl (fun _ h => absurd h List.not_mem_nil)
    | place b start _ hst =>
      obtain ⟨-, rfl⟩ := LogStore.requestBytes_eq hst
      refine .begin _ hc rfl ⟨rfl, rfl, rfl⟩ ⟨st.dtail, rfl, List.suffix_refl _⟩ fun i hi => ?_
      rw [todo, burstLogOps_eq]
      exact ⟨List.mem_flatMap.mpr ⟨i, hi, List.mem_cons_self⟩,
        List.mem_flatMap.mpr ⟨i, hi, List.mem_cons_of_mem _ List.mem_cons_self⟩⟩
    | run b start op todo _ hst =>
      obtain ⟨offset, his, hsuf⟩ := hc
      exact .run op rfl hst ⟨offset, his, (List.suffix_cons op todo).trans hsuf⟩
    | finish b start _ hst =>
      obtain ⟨rfl, rfl⟩ := LogStore.endBlock_eq hst
      obtain ⟨offset, rfl, -⟩ := hc
      refine .finish rfl rfl rfl rfl fun k => ?_
      constructor
      · intro hk
        by_cases hlt : k < st.olog.readId
        · exact .inl hlt
        · exact .inr (exists_burstInsertion (Nat.le_of_not_lt hlt) hk)
      · rintro (hlt | ⟨i, hi, rfl⟩)
        · exact Nat.lt_add_right _ hlt
        · exact (mem_burstInsertions hi).2.1

end Caller

/-! ## The history -/

/-- The callers, and the insertions in the order in which their bytes were written, for the
record. -/
structure WriteHistory (D ω : Type) where
  sys : Callers D ω
  appends : List Insertion

namespace WriteHistory

variable {D ω : Type} [Datalog D]

def init (indexes : (k : Nat) → List (LogIndex k)) (roles : ω → Role) : WriteHistory D ω :=
  ⟨.init indexes roles, []⟩

/-- The data log is what the insertions have written, one after the other; those in flight are
the calls'; the ids that have been ended are those of insertions, and have their entries. -/
structure Ledger (s : WriteHistory D ω) (calls : ω → List Insertion) : Prop where
  carries : ∀ w, (s.sys.callers w).Carries (calls w)
  entries : ∀ w, ∀ i ∈ calls w, i.entry ∈ (s.sys.callers w).todo ∨ i.entry.Written s.sys.store
  appended : ∀ w, ∀ i ∈ calls w, i.append ∈ (s.sys.callers w).todo ∨ i ∈ s.appends
  dlog : s.sys.store.dlog =
    s.appends.foldl (fun d i => Datalog.write d i.offset i.bytes) Datalog.empty
  writable : ∀ i ∈ s.appends, Datalog.writable D i.offset i.bytes.length = true
  small : ∀ i ∈ s.appends, i.record.length < 65536
  held : ∀ i ∈ s.appends, i.id < s.sys.store.olog.readId ∨ ∃ w, i ∈ calls w
  ended : ∀ i ∈ s.appends, i.id < s.sys.store.olog.readId → i.entry.Written s.sys.store
  all : ∀ k, k < s.sys.store.olog.readId → ∃ i ∈ s.appends, i.id = k

theorem ledger_init (indexes : (k : Nat) → List (LogIndex k)) (roles : ω → Role) :
    Ledger (init indexes roles : WriteHistory D ω) fun _ => [] := by
  refine ⟨fun w => ?_, fun _ _ h => absurd h List.not_mem_nil,
    fun _ _ h => absurd h List.not_mem_nil, rfl, fun _ h => absurd h List.not_mem_nil,
    fun _ h => absurd h List.not_mem_nil, fun _ h => absurd h List.not_mem_nil,
    fun _ h => absurd h List.not_mem_nil, fun _ h => absurd h (Nat.not_lt_zero _)⟩
  change (Caller.ofRole (roles w)).Carries []
  cases roles w <;> rfl

variable {s : WriteHistory D ω} {calls : ω → List Insertion}

/-- The ids of a call in flight are the caller's, and have not been ended. -/
theorem Ledger.pending (h : Ledger s calls) (hids : s.sys.IdsHeld) {w : ω} {i : Insertion}
    (hi : i ∈ calls w) : Holds s.sys.pending w i.id ∧ s.sys.store.olog.readId ≤ i.id := by
  have hold := (h.carries w).call (hids.ready w) |>.holds i hi
  exact ⟨hold, (hids.tiles.inside hold).1⟩

/-- The entry of an insertion stays when a caller runs an operation of its call. -/
theorem Ledger.entry_stays (h : Ledger s calls) (hids : s.sys.IdsHeld) {w : ω} {op : LogOp}
    {todo : List LogOp} (hop : (s.sys.callers w).todo = op :: todo) {st : LogStore D}
    (hrun : s.sys.store.runOp op = .ok st) {i : Insertion}
    (hi : i.id < s.sys.store.olog.readId ∨ ∃ v, i ∈ calls v)
    (hwritten : i.entry.Written s.sys.store) : i.entry.Written st := by
  have hcall := (h.carries w).call (hids.ready w)
  rcases hcall.next op todo hop with ⟨j, -, rfl, -⟩ | ⟨⟨j, hj, rfl⟩ | ⟨id, tokens, rfl⟩, -⟩
  · refine hwritten.runOp ?_ hrun
    trivial
  · obtain ⟨hold, hle⟩ := h.pending hids hj
    by_cases hid : i.id = j.id
    · rcases hi with hlt | ⟨v, hv⟩
      · omega
      · -- The id is held once, so that the two are one insertion of one caller.
        have hvw := hids.tiles.unique v w i.id (h.pending hids hv).1 (by rwa [hid])
        subst hvw
        rw [hcall.distinct i hv j hj (.inl hid)]
        exact LogOp.written_runOp_self hrun
    · refine hwritten.runOp ?_ hrun
      exact hid
  · refine hwritten.runOp ?_ hrun
    trivial

/-- What the operation does to the data log is in the history. -/
theorem Ledger.run_dlog (h : Ledger s calls) (hids : s.sys.IdsHeld) {w : ω} {op : LogOp}
    {todo : List LogOp} (hop : (s.sys.callers w).todo = op :: todo) {st : LogStore D}
    (hrun : s.sys.store.runOp op = .ok st) :
    st.dlog = (s.appends ++ (s.sys.callers w).appending).foldl
        (fun d i => Datalog.write d i.offset i.bytes) Datalog.empty ∧
      ∀ i ∈ (s.sys.callers w).appending,
        i ∈ calls w ∧ Datalog.writable D i.offset i.bytes.length = true := by
  have hcall := (h.carries w).call (hids.ready w)
  rcases hcall.next op todo hop with ⟨j, hj, rfl, happ⟩ | ⟨hother, happ⟩
  · obtain ⟨hwritable, rfl⟩ := LogStore.appendRecord_eq hrun
    rw [happ, List.foldl_append, ← h.dlog]
    refine ⟨rfl, fun i hi => ?_⟩
    obtain rfl := List.mem_singleton.mp hi
    exact ⟨hj, hwritable⟩
  · rw [happ, List.append_nil, ← h.dlog]
    refine ⟨?_, fun _ hi => absurd hi List.not_mem_nil⟩
    rcases hother with ⟨j, -, rfl⟩ | ⟨id, tokens, rfl⟩
    · rw [(LogStore.setOfflen_eq hrun).2]
    · rw [LogStore.updateIndexes_frame hrun]

/-! ## Runs -/

variable [DecidableEq ω]

inductive Step : WriteHistory D ω → WriteHistory D ω → Prop where
  | step (s : WriteHistory D ω) (w : ω) (x : Caller) (st : LogStore D) (x' : Caller)
      (hw : s.sys.callers w = x) (h : x.Step s.sys.store st x') :
      Step s ⟨⟨st, Function.update s.sys.callers w x'⟩, s.appends ++ x.appending⟩

def Reached (indexes : (k : Nat) → List (LogIndex k)) (roles : ω → Role) (s : WriteHistory D ω) : Prop :=
  Relation.ReflTransGen Step (init indexes roles) s

def turn (s : WriteHistory D ω) (t : ω × Option Insertable) : Option (WriteHistory D ω) :=
  ((s.sys.callers t.1).turn s.sys.store t.2).map fun p =>
    ⟨⟨p.1, Function.update s.sys.callers t.1 p.2⟩, s.appends ++ (s.sys.callers t.1).appending⟩

theorem step_of_turn (s : WriteHistory D ω) (t : ω × Option Insertable) (s' : WriteHistory D ω)
    (h : s.turn t = some s') : Step s s' := by
  obtain ⟨p, hp, rfl⟩ := Option.map_eq_some_iff.mp h
  exact .step s t.1 _ _ _ rfl (Caller.step_of_turn hp)

theorem reached_sys {indexes : (k : Nat) → List (LogIndex k)} {roles : ω → Role} {s : WriteHistory D ω}
    (h : Reached indexes roles s) : s.sys.Reached indexes roles := by
  induction h with
  | refl => exact .refl
  | tail _ hs ih =>
    obtain ⟨w, x, st, x', hw, hx⟩ := hs
    exact ih.tail (.step _ w x st x' hw hx)

/-- An operation of a call in flight. -/
theorem Ledger.run (h : Ledger s calls) (hids : s.sys.IdsHeld) {w : ω} {x' : Caller}
    {op : LogOp} {st : LogStore D} (htodo : (s.sys.callers w).todo = op :: x'.todo)
    (hrun : s.sys.store.runOp op = .ok st) (hcarries : x'.Carries (calls w)) :
    Ledger ⟨⟨st, Function.update s.sys.callers w x'⟩,
      s.appends ++ (s.sys.callers w).appending⟩ calls := by
  have hread := (LogStore.runOp_counters hrun).1
  have hcall := (h.carries w).call (hids.ready w)
  obtain ⟨hdlog, hnew⟩ := h.run_dlog hids htodo hrun
  have hstays := fun (i : Insertion) hi hwritten =>
    h.entry_stays hids htodo hrun (i := i) hi hwritten
  refine ⟨fun v => ?_, fun v i hi => ?_, fun v i hi => ?_, hdlog, fun i hi => ?_, fun i hi => ?_,
    fun i hi => ?_, fun i hi hlt => ?_, fun k hk => ?_⟩
  · by_cases hv : v = w
    · subst hv
      simpa using hcarries
    · simpa [hv] using h.carries v
  · have hentry := h.entries v i hi
    by_cases hv : v = w
    · subst hv
      simp only [Function.update_self]
      rw [htodo, List.mem_cons] at hentry
      rcases hentry with (rfl | hleft) | hwritten
      · exact .inr (LogOp.written_runOp_self hrun)
      · exact .inl hleft
      · exact .inr (hstays i (.inr ⟨v, hi⟩) hwritten)
    · simp only [Function.update_of_ne hv]
      exact hentry.imp_right (hstays i (.inr ⟨v, hi⟩))
  · have happended := h.appended v i hi
    by_cases hv : v = w
    · subst hv
      simp only [Function.update_self]
      rw [htodo, List.mem_cons] at happended
      rcases happended with (hop | hleft) | hin
      · rcases hcall.next op x'.todo htodo with ⟨j, hj, hopj, happ⟩ | ⟨hother, -⟩
        · have hoffset : i.offset = j.offset := (LogOp.append.inj (hop.trans hopj)).2
          rw [hcall.distinct i hi j hj (.inr hoffset), happ]
          exact .inr (List.mem_append_right _ (List.mem_singleton_self j))
        · rcases hother with ⟨j, -, hopj⟩ | ⟨id, tokens, hopj⟩
          · cases hop.trans hopj
          · cases hop.trans hopj
      · exact .inl hleft
      · exact .inr (List.mem_append_left _ hin)
    · simp only [Function.update_of_ne hv]
      exact happended.imp_right (List.mem_append_left _)
  · rcases List.mem_append.mp hi with hi | hi
    · exact h.writable i hi
    · exact (hnew i hi).2
  · rcases List.mem_append.mp hi with hi | hi
    · exact h.small i hi
    · exact hcall.small i (hnew i hi).1
  · rw [hread]
    rcases List.mem_append.mp hi with hi | hi
    · exact h.held i hi
    · exact .inr ⟨w, (hnew i hi).1⟩
  · rw [hread] at hlt
    rcases List.mem_append.mp hi with hi | hi
    · exact hstays i (.inl hlt) (h.ended i hi hlt)
    · exact absurd (h.pending hids (hnew i hi).1).2 (Nat.not_le_of_lt hlt)
  · rw [hread] at hk
    obtain ⟨i, hi, hid⟩ := h.all k hk
    exact ⟨i, List.mem_append_left _ hi, hid⟩

/-- A caller without a call in flight begins one, or comes nearer to it. -/
theorem Ledger.begin (h : Ledger s calls) {w : ω} {x' : Caller} {st : LogStore D}
    {is' : List Insertion} (hnone : calls w = []) (hsame : Caller.SameLogs s.sys.store st)
    (hcarries : x'.Carries is')
    (hall : ∀ i ∈ is', i.entry ∈ x'.todo ∧ i.append ∈ x'.todo) :
    Ledger ⟨⟨st, Function.update s.sys.callers w x'⟩, s.appends⟩ (Function.update calls w is') := by
  have hwritten : ∀ i : Insertion, i.entry.Written s.sys.store → i.entry.Written st :=
    fun i hi => hi.of_logs hsame.offlens hsame.dlog
  refine ⟨fun v => ?_, fun v i hi => ?_, fun v i hi => ?_, hsame.dlog.trans h.dlog, h.writable,
    h.small, fun i hi => ?_, fun i hi hlt => ?_, fun k hk => ?_⟩
  · by_cases hv : v = w
    · subst hv
      simpa using hcarries
    · simpa [hv] using h.carries v
  · by_cases hv : v = w
    · subst hv
      simp only [Function.update_self] at hi ⊢
      exact .inl (hall i hi).1
    · simp only [Function.update_of_ne hv] at hi ⊢
      exact (h.entries v i hi).imp_right (hwritten i)
  · by_cases hv : v = w
    · subst hv
      simp only [Function.update_self] at hi ⊢
      exact .inl (hall i hi).2
    · simp only [Function.update_of_ne hv] at hi ⊢
      exact h.appended v i hi
  · rw [hsame.readId]
    refine (h.held i hi).imp_right fun ⟨v, hv⟩ => ⟨v, ?_⟩
    by_cases hvw : v = w
    · subst hvw
      rw [hnone] at hv
      cases hv
    · rwa [Function.update_of_ne hvw]
  · rw [hsame.readId] at hlt
    exact hwritten i (h.ended i hi hlt)
  · rw [hsame.readId] at hk
    exact h.all k hk

/-- A caller ends the ids of its call. -/
theorem Ledger.finish (h : Ledger s calls) (hids : s.sys.IdsHeld) {w : ω} {x' : Caller}
    {st : LogStore D} (htodo : (s.sys.callers w).todo = []) (hcarries : x'.Carries [])
    (hoff : st.olog.offlens = s.sys.store.olog.offlens) (hdlog : st.dlog = s.sys.store.dlog)
    (hread : ∀ k, k < st.olog.readId ↔ k < s.sys.store.olog.readId ∨ ∃ i ∈ calls w, i.id = k) :
    Ledger ⟨⟨st, Function.update s.sys.callers w x'⟩, s.appends⟩ (Function.update calls w []) := by
  have hwritten : ∀ i : Insertion, i.entry.Written s.sys.store → i.entry.Written st :=
    fun i hi => hi.of_logs hoff hdlog
  refine ⟨fun v => ?_, fun v i hi => ?_, fun v i hi => ?_, hdlog.trans h.dlog, h.writable,
    h.small, fun i hi => ?_, fun i hi hlt => ?_, fun k hk => ?_⟩
  · by_cases hv : v = w
    · subst hv
      simpa using hcarries
    · simpa [hv] using h.carries v
  · by_cases hv : v = w
    · subst hv
      simp at hi
    · simp only [Function.update_of_ne hv] at hi ⊢
      exact (h.entries v i hi).imp_right (hwritten i)
  · by_cases hv : v = w
    · subst hv
      simp at hi
    · simp only [Function.update_of_ne hv] at hi ⊢
      exact h.appended v i hi
  · rw [hread]
    rcases h.held i hi with hlt | ⟨v, hv⟩
    · exact .inl (.inl hlt)
    · by_cases hvw : v = w
      · subst hvw
        exact .inl (.inr ⟨i, hv, rfl⟩)
      · exact .inr ⟨v, by rwa [Function.update_of_ne hvw]⟩
  · refine hwritten i ?_
    rcases h.held i hi with hold | ⟨v, hv⟩
    · exact h.ended i hi hold
    · rcases (hread i.id).mp hlt with hold | ⟨j, hj, hid⟩
      · exact h.ended i hi hold
      · -- Nobody else holds an id that is ended here.
        have hvw := hids.tiles.unique v w i.id (h.pending hids hv).1
          (by rw [← hid]; exact (h.pending hids hj).1)
        subst hvw
        refine (h.entries v i hv).resolve_left ?_
        rw [htodo]
        exact List.not_mem_nil
  · rcases (hread k).mp hk with hold | ⟨j, hj, hid⟩
    · exact h.all k hold
    · refine ⟨j, (h.appended w j hj).resolve_left ?_, hid⟩
      rw [htodo]
      exact List.not_mem_nil

theorem ledger_step {s s' : WriteHistory D ω} {calls : ω → List Insertion} (h : Ledger s calls)
    (hids : s.sys.IdsHeld) (hs : Step s s') : ∃ calls', Ledger s' calls' := by
  obtain ⟨w, x, st, x', hw, hx⟩ := hs
  subst hw
  have hcall := (h.carries w).call (hids.ready w)
  cases Caller.step_kind (h.carries w) hx with
  | run op htodo hrun hcarries => exact ⟨calls, h.run hids htodo hrun hcarries⟩
  | begin is' hnone htodo hsame hcarries hall =>
    rw [hcall.rests htodo, List.append_nil]
    exact ⟨_, h.begin hnone hsame hcarries hall⟩
  | finish htodo hcarries hoff hdlog hread =>
    rw [hcall.rests htodo, List.append_nil]
    exact ⟨_, h.finish hids htodo hcarries hoff hdlog hread⟩

theorem ledger_reached {indexes : (k : Nat) → List (LogIndex k)} {roles : ω → Role}
    {s : WriteHistory D ω} (hroles : ∀ w requestBatchSize dataBlockSize,
      roles w = .handle requestBatchSize dataBlockSize → 1 ≤ requestBatchSize)
    (h : Reached indexes roles s) : ∃ calls, Ledger s calls := by
  induction h with
  | refl => exact ⟨_, ledger_init indexes roles⟩
  | tail hrun hs ih =>
    obtain ⟨calls, hledger⟩ := ih
    exact ledger_step hledger (Callers.idsHeld_reached hroles (reached_sys hrun)) hs

end WriteHistory

end Netplay
