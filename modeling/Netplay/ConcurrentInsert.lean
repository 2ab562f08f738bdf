import Mathlib.Data.List.Pairwise
import Netplay.LogOps
import Netplay.Schedule

/-!
# Concurrent insertion

Threads in `log_store::insert`, one atomic step of one thread at a time: the
`fetch_add` on `dtail_`, the `fetch_add` on `current_write_id_`, the entry of the
offset log, the bytes of the record, the index updates, and the compare-exchange
of `end`, which puts the expected value back when it fails. Ids and bytes come
from two counters and need not be in the same order.
-/

namespace Netplay

open BlockTail

/-- A call that has returned its id. -/
structure InsertDone where
  record : Record
  offset : Nat
  id : Nat

def InsertDone.region (d : InsertDone) : Block := ⟨d.offset, d.record.len⟩

/-- Where a thread stands in `log_store::insert`: it has its bytes, or also its
id and the operations that are left. -/
inductive Inserter where
  | idle : Inserter
  | located : Record → (offset : Nat) → Inserter
  | running : Record → (offset id : Nat) → List LogOp → Inserter

namespace Inserter

/-- The id that the thread has taken and not yet ended. -/
def block : Inserter → Option Block
  | .running _ _ id _ => some ⟨id, 1⟩
  | _ => none

/-- The bytes that the thread has taken. -/
def region : Inserter → Option Block
  | .idle => none
  | .located r offset => some ⟨offset, r.len⟩
  | .running r offset _ _ => some ⟨offset, r.len⟩

variable {D : Type} [Datalog D]

/-- One atomic step of a thread, and the call if it returns. A failed
compare-exchange changes nothing. -/
inductive Step (st : LogStore D) : Inserter → LogStore D → Inserter → Option InsertDone → Prop where
  | locate (r : Record) (st' : LogStore D) (h : st.requestBytes r.len = .ok st') :
      Step st .idle st' (.located r st.dtail) none
  | start (r : Record) (offset : Nat) :
      Step st (.located r offset) st.takeId
        (.running r offset st.olog.writeId (LogStore.insertOps r offset st.olog.writeId)) none
  | run (r : Record) (offset id : Nat) (op : LogOp) (todo : List LogOp) (st' : LogStore D)
      (h : st.runOp op = .ok st') :
      Step st (.running r offset id (op :: todo)) st' (.running r offset id todo) none
  | finish (r : Record) (offset id : Nat) (st' : LogStore D) (h : st.endBlock id 1 = .ok st') :
      Step st (.running r offset id []) st' .idle (some ⟨r, offset, id⟩)

end Inserter

/-- The store, the threads, and the calls that have returned, for the record. -/
structure Inserting (D ω : Type) where
  store : LogStore D
  inserters : ω → Inserter
  done : List InsertDone

namespace Inserting

variable {D ω : Type} [Datalog D]

/-- A store without records, with any indexes. -/
def init (indexes : (k : Nat) → List (LogIndex k)) : Inserting D ω :=
  ⟨{ LogStore.empty with indexes := indexes }, fun _ => .idle, []⟩

def pending (s : Inserting D ω) (w : ω) : Option Block := (s.inserters w).block

def regions (s : Inserting D ω) (w : ω) : Option Block := (s.inserters w).region

variable [DecidableEq ω]

inductive Step : Inserting D ω → Inserting D ω → Prop where
  | step (s : Inserting D ω) (w : ω) (x : Inserter) (st : LogStore D) (x' : Inserter)
      (ret : Option InsertDone) (hw : s.inserters w = x) (h : x.Step s.store st x' ret) :
      Step s ⟨st, Function.update s.inserters w x', s.done ++ ret.toList⟩

/-- The states of a run from a store without records. -/
def Reached (indexes : (k : Nat) → List (LogIndex k)) (s : Inserting D ω) : Prop :=
  Relation.ReflTransGen Step (init indexes) s

/-! ## Ids and bytes -/

omit [Datalog D] in
theorem pending_update (s : Inserting D ω) (st : LogStore D) (ds : List InsertDone) (w : ω)
    (x : Inserter) :
    pending ⟨st, Function.update s.inserters w x, ds⟩ = Function.update s.pending w x.block :=
  Function.comp_update Inserter.block s.inserters w x

omit [Datalog D] in
theorem regions_update (s : Inserting D ω) (st : LogStore D) (ds : List InsertDone) (w : ω)
    (x : Inserter) :
    regions ⟨st, Function.update s.inserters w x, ds⟩ = Function.update s.regions w x.region :=
  Function.comp_update Inserter.region s.inserters w x

/-- The ids in use tile the interval between the counters, those below it have
been returned once, and the bytes of the calls are apart. -/
structure Reserved (s : Inserting D ω) : Prop where
  tiles : Tiles s.store.olog.readId s.store.olog.writeId s.pending
  done_iff : ∀ i, (∃ d ∈ s.done, d.id = i) ↔ i < s.store.olog.readId
  done_distinct : s.done.Pairwise fun d d' => d.id ≠ d'.id
  bytes : Allocated s.store.dtail s.regions (s.done.map InsertDone.region)

omit [DecidableEq ω] in
theorem reserved_init (indexes : (k : Nat) → List (LogIndex k)) :
    Reserved (init indexes : Inserting D ω) :=
  ⟨Tiles.init, fun i => by simp [init, LogStore.empty, OffsetLog.empty], List.Pairwise.nil,
    Allocated.init⟩

omit [Datalog D] [DecidableEq ω] in
theorem pending_running {s : Inserting D ω} {w : ω} {r : Record} {offset id : Nat}
    {todo : List LogOp} (hw : s.inserters w = .running r offset id todo) :
    s.pending w = some ⟨id, 1⟩ ∧ s.regions w = some ⟨offset, r.len⟩ := by
  rw [pending, regions, hw]
  exact ⟨rfl, rfl⟩

theorem reserved_step {s s' : Inserting D ω} (h : Reserved s) (hs : Step s s') : Reserved s' := by
  obtain ⟨w, x, st, x', ret, hw, hx⟩ := hs
  cases hx with
  | locate r _ hst =>
    obtain ⟨-, rfl⟩ := LogStore.requestBytes_eq hst
    have hpend : s.pending w = none := by rw [pending, hw]; rfl
    rw [Option.toList_none, List.append_nil]
    refine ⟨?_, h.done_iff, h.done_distinct, ?_⟩
    · rw [pending_update, show (Inserter.located r s.store.dtail).block = s.pending w from hpend.symm,
        Function.update_eq_self]
      exact h.tiles
    · rw [regions_update]
      exact h.bytes.reserve w r.len
  | start r offset =>
    have hpend : s.pending w = none := by rw [pending, hw]; rfl
    have hreg : s.regions w = some ⟨offset, r.len⟩ := by rw [regions, hw]; rfl
    rw [Option.toList_none, List.append_nil]
    refine ⟨?_, h.done_iff, h.done_distinct, ?_⟩
    · rw [pending_update]
      exact h.tiles.reserve hpend 1
    · rw [regions_update, Inserter.region, ← hreg, Function.update_eq_self]
      exact h.bytes
  | run r offset id op todo _ hst =>
    obtain ⟨hread, hwrite, hdtail⟩ := LogStore.runOp_counters hst
    obtain ⟨hpend, hreg⟩ := pending_running hw
    rw [Option.toList_none, List.append_nil]
    refine ⟨?_, ?_, h.done_distinct, ?_⟩
    · rw [pending_update, hread, hwrite, Inserter.block, ← hpend, Function.update_eq_self]
      exact h.tiles
    · rw [hread]
      exact h.done_iff
    · rw [regions_update, hdtail, Inserter.region, ← hreg, Function.update_eq_self]
      exact h.bytes
  | finish r offset id _ hst =>
    obtain ⟨rfl, rfl⟩ := LogStore.endBlock_eq hst
    obtain ⟨hpend, hreg⟩ := pending_running hw
    rw [Option.toList_some]
    refine ⟨?_, fun i => ?_, ?_, ?_⟩
    · rw [pending_update]
      exact h.tiles.publish hpend
    · simp only [List.mem_append, List.mem_singleton, or_and_right, exists_or, exists_eq_left,
        h.done_iff i]
      omega
    · rw [List.pairwise_append]
      refine ⟨h.done_distinct, List.pairwise_singleton _ _, fun d hd d' hd' heq => ?_⟩
      obtain rfl := List.mem_singleton.mp hd'
      exact absurd ((h.done_iff d.id).mp ⟨d, hd, rfl⟩) (by rw [heq]; exact Nat.lt_irrefl _)
    · rw [regions_update, List.map_append]
      exact h.bytes.keep hreg

/-! ## What is written -/

/-- Operations of the thread that are no longer left have been done. -/
def Progress (st : LogStore D) : Inserter → Prop
  | .running r offset id todo => ∃ ops, ops ++ todo = LogStore.insertOps r offset id ∧
      ∀ op ∈ ops, op.Written st
  | _ => True

/-- The logs hold what the calls have written. -/
structure LogsWritten (s : Inserting D ω) : Prop where
  inserters : ∀ w, Progress s.store (s.inserters w)
  done : ∀ d ∈ s.done, ∀ op ∈ LogStore.insertOps d.record d.offset d.id, op.Written s.store

theorem insertOps_within (r : Record) (offset id : Nat) :
    ∀ op ∈ LogStore.insertOps r offset id, op.Within ⟨id, 1⟩ ⟨offset, r.len⟩ := by
  simp only [LogStore.insertOps, List.forall_mem_cons, List.not_mem_nil, false_implies,
    implies_true, and_true]
  exact ⟨⟨Nat.le_refl _, Nat.lt_succ_self _⟩, ⟨Nat.le_refl _, Nat.le_refl _⟩, trivial⟩

theorem insertOps_independent (r : Record) (offset id : Nat) :
    (LogStore.insertOps r offset id).Pairwise LogOp.Independent := by
  simp [LogStore.insertOps, LogOp.Independent]

omit [Datalog D] [DecidableEq ω] in
/-- The operations of one thread and those of a call of another, or one that has
returned, do not overlap. -/
theorem Reserved.independent {s : Inserting D ω} (h : Reserved s) {w : ω} {r : Record}
    {offset id : Nat} {todo : List LogOp} (hw : s.inserters w = .running r offset id todo) :
    (∀ v r' offset' id' todo', v ≠ w → s.inserters v = .running r' offset' id' todo' →
      ∀ op' ∈ LogStore.insertOps r' offset' id', ∀ op ∈ LogStore.insertOps r offset id,
        op'.Independent op) ∧
      ∀ d ∈ s.done, ∀ op' ∈ LogStore.insertOps d.record d.offset d.id,
        ∀ op ∈ LogStore.insertOps r offset id, op'.Independent op := by
  obtain ⟨hpend, hreg⟩ := pending_running hw
  refine ⟨fun v r' offset' id' todo' hne hv op' hop' op hop => ?_, fun d hd op' hop' op hop => ?_⟩
  · obtain ⟨hpend', hreg'⟩ := pending_running hv
    exact LogOp.Independent.of_within (insertOps_within _ _ _ op' hop')
      (insertOps_within _ _ _ op hop) (h.tiles.apart hne hpend' hpend)
      (h.bytes.apart v w _ _ hne hreg' hreg)
  · refine LogOp.Independent.of_within (insertOps_within _ _ _ op' hop')
      (insertOps_within _ _ _ op hop) ?_ (h.bytes.kept_apart w _ hreg _ (List.mem_map_of_mem hd)).symm
    rintro i ⟨h1, h2⟩ hi
    have hlt := (h.done_iff d.id).mp ⟨d, hd, rfl⟩
    have hle := (h.tiles.inside (i := i) ⟨_, hpend, hi⟩).1
    dsimp only at h1 h2
    omega

/-- Steps that change neither of the logs keep what is written. -/
theorem LogsWritten.of_logs {s : Inserting D ω} (h : LogsWritten s) {st : LogStore D} {w : ω}
    {x : Inserter} (hx : Progress st x) (ho : st.olog.offlens = s.store.olog.offlens)
    (hd : st.dlog = s.store.dlog) {ds : List InsertDone}
    (hds : ∀ d ∈ ds, ∀ op ∈ LogStore.insertOps d.record d.offset d.id, op.Written st) :
    LogsWritten ⟨st, Function.update s.inserters w x, ds⟩ := by
  refine ⟨fun v => ?_, hds⟩
  by_cases hv : v = w
  · subst hv
    simpa using hx
  · have hother := h.inserters v
    simp only [Function.update_of_ne hv]
    cases hvx : s.inserters v with
    | running r offset id todo =>
      rw [hvx] at hother
      obtain ⟨ops, hops, hdone⟩ := hother
      exact ⟨ops, hops, fun op hop => (hdone op hop).of_logs ho hd⟩
    | _ => trivial

theorem logsWritten_step {s s' : Inserting D ω} (hr : Reserved s) (h : LogsWritten s)
    (hs : Step s s') : LogsWritten s' := by
  obtain ⟨w, x, st, x', ret, hw, hx⟩ := hs
  cases hx with
  | locate r _ hst =>
    obtain ⟨-, rfl⟩ := LogStore.requestBytes_eq hst
    rw [Option.toList_none, List.append_nil]
    refine h.of_logs ?_ ?_ ?_ fun d hd op hop => (h.done d hd op hop).of_logs rfl rfl
    · trivial
    · rfl
    · rfl
  | start r offset =>
    rw [Option.toList_none, List.append_nil]
    refine h.of_logs ?_ ?_ ?_ fun d hd op hop => (h.done d hd op hop).of_logs rfl rfl
    · exact ⟨[], rfl, fun op hop => absurd hop List.not_mem_nil⟩
    · rfl
    · rfl
  | run r offset id op todo _ hst =>
    rw [Option.toList_none, List.append_nil]
    have hmine := h.inserters w
    rw [hw] at hmine
    obtain ⟨ops, hops, hdone⟩ := hmine
    have hmem : op ∈ LogStore.insertOps r offset id := by
      rw [← hops]
      exact List.mem_append_right _ List.mem_cons_self
    have hind := insertOps_independent r offset id
    rw [← hops] at hind
    obtain ⟨hothers, hends⟩ := hr.independent hw
    refine ⟨fun v => ?_, fun d hd op' hop' => (h.done d hd op' hop').runOp
      (hends d hd op' hop' op hmem) hst⟩
    by_cases hv : v = w
    · subst hv
      simp only [Function.update_self]
      refine ⟨ops ++ [op], by rw [← hops, List.append_assoc]; rfl, fun op' hop' => ?_⟩
      rcases List.mem_append.mp hop' with hop' | hop'
      · exact (hdone op' hop').runOp
          ((List.pairwise_append.mp hind).2.2 op' hop' op List.mem_cons_self) hst
      · obtain rfl := List.mem_singleton.mp hop'
        exact LogOp.written_runOp_self hst
    · have hother := h.inserters v
      simp only [Function.update_of_ne hv]
      cases hvx : s.inserters v with
      | running r' offset' id' todo' =>
        rw [hvx] at hother
        obtain ⟨ops', hops', hdone'⟩ := hother
        refine ⟨ops', hops', fun op' hop' => (hdone' op' hop').runOp ?_ hst⟩
        refine hothers v r' offset' id' todo' hv hvx op' ?_ op hmem
        rw [← hops']
        exact List.mem_append_left _ hop'
      | _ => trivial
  | finish r offset id _ hst =>
    obtain ⟨-, rfl⟩ := LogStore.endBlock_eq hst
    refine h.of_logs ?_ ?_ ?_ fun d hd op hop => ?_
    · trivial
    · rfl
    · rfl
    · rcases List.mem_append.mp hd with hd | hd
      · exact (h.done d hd op hop).of_logs rfl rfl
      · obtain rfl := List.mem_singleton.mp hd
        have hmine := h.inserters w
        rw [hw] at hmine
        obtain ⟨ops, hops, hdone⟩ := hmine
        rw [List.append_nil] at hops
        exact (hdone op (by rw [hops]; exact hop)).of_logs rfl rfl

theorem reserved_reached {indexes : (k : Nat) → List (LogIndex k)} {s : Inserting D ω}
    (h : Reached indexes s) : Reserved s ∧ LogsWritten s := by
  induction h with
  | refl => exact ⟨reserved_init indexes, fun _ => trivial, fun d hd => by simp [init] at hd⟩
  | tail _ hs ih => exact ⟨reserved_step ih.1 hs, logsWritten_step ih.1 ih.2 hs⟩

/-- The id was taken by one call only, which has returned; its entry decodes to
the bytes that the call had reserved, and they are those of its record. -/
structure Appended (s : Inserting D ω) (id : Nat) (d : InsertDone) : Prop where
  mem : d ∈ s.done
  id_eq : d.id = id
  unique : ∀ d' ∈ s.done, d'.id = id → d' = d
  only : ∀ w r offset todo, s.inserters w ≠ .running r offset id todo
  lookup : ∀ junk, s.store.olog.lookup junk id = (d.offset, d.record.len)
  get : ∀ junk, s.store.get junk id = some d.record.bytes

/-- In every state reached by inserting threads, every id below `num_records`
belongs to the record of one call, and ids are returned once. -/
theorem appended {indexes : (k : Nat) → List (LogIndex k)} {s : Inserting D ω}
    (h : Reached indexes s) (hbytes : s.store.dtail < 2 ^ 48) :
    (∀ id, id < s.store.numRecords → ∃ d, s.Appended id d) ∧
      s.done.Pairwise fun d d' => d.id ≠ d'.id := by
  obtain ⟨hr, hl⟩ := reserved_reached h
  refine ⟨fun id hid => ?_, hr.done_distinct⟩
  obtain ⟨d, hd, rfl⟩ := (hr.done_iff id).mpr hid
  have hops := hl.done d hd
  simp only [LogStore.insertOps, List.forall_mem_cons] at hops
  obtain ⟨hset, hbytes', -⟩ := hops
  have hoff : d.offset < 2 ^ 48 := by
    have hle := hr.bytes.kept_bound _ (List.mem_map_of_mem hd)
    simp only [InsertDone.region] at hle
    omega
  have hwrite : d.id < s.store.olog.writeId := Nat.lt_of_lt_of_le hid hr.tiles.le
  have hget := fun junk => LogStore.get_of_written junk hwrite hset hbytes' hoff
  refine ⟨d, hd, rfl, fun d' hd' heq => ?_, fun w r offset todo hw => ?_, fun junk => (hget junk).1,
    fun junk => (hget junk).2⟩
  · by_contra hne
    have : Std.Symm fun d d' : InsertDone => d.id ≠ d'.id := ⟨fun _ _ h => h.symm⟩
    exact hr.done_distinct.forall hd' hd hne heq
  · obtain ⟨hpend, -⟩ := pending_running hw
    have hin := hr.tiles.inside ⟨_, hpend, Nat.le_refl _, Nat.lt_succ_self _⟩
    exact absurd hid (Nat.not_lt.mpr hin.1)

end Inserting

/-! ## Threads that take turns -/

theorem ok_of_toOption {α : Type} {x : Except Halt α} {a : α} (h : x.toOption = some a) :
    x = .ok a := by
  cases x with
  | error e => cases h
  | ok b => exact congrArg Except.ok (Option.some.inj h)

namespace Inserter

variable {D : Type} [Datalog D]

/-- The thread begins a call with the record, or goes on with its call by one step. -/
def turn (st : LogStore D) :
    Inserter → Option Record → Option (LogStore D × Inserter × Option InsertDone)
  | .idle, some r =>
    (st.requestBytes r.len).toOption.map fun st' => (st', .located r st.dtail, none)
  | .located r offset, none =>
    some (st.takeId, .running r offset st.olog.writeId
      (LogStore.insertOps r offset st.olog.writeId), none)
  | .running r offset id (op :: todo), none =>
    (st.runOp op).toOption.map fun st' => (st', .running r offset id todo, none)
  | .running r offset id [], none =>
    (st.endBlock id 1).toOption.map fun st' => (st', .idle, some ⟨r, offset, id⟩)
  | _, _ => none

theorem step_of_turn {st : LogStore D} {x : Inserter} {call : Option Record}
    {p : LogStore D × Inserter × Option InsertDone} (h : x.turn st call = some p) :
    x.Step st p.1 p.2.1 p.2.2 := by
  cases x with
  | idle =>
    cases call with
    | none => cases h
    | some r =>
      obtain ⟨st', hst, rfl⟩ := Option.map_eq_some_iff.mp h
      exact .locate r st' (ok_of_toOption hst)
  | located r offset =>
    cases call with
    | none =>
      cases h
      exact .start r offset
    | some r => cases h
  | running r offset id todo =>
    cases call with
    | none =>
      cases todo with
      | nil =>
        obtain ⟨st', hst, rfl⟩ := Option.map_eq_some_iff.mp h
        exact .finish r offset id st' (ok_of_toOption hst)
      | cons op todo =>
        obtain ⟨st', hst, rfl⟩ := Option.map_eq_some_iff.mp h
        exact .run r offset id op todo st' (ok_of_toOption hst)
    | some r => cases todo <;> cases h

end Inserter

namespace Inserting

variable {D ω : Type} [Datalog D] [DecidableEq ω]

def turn (s : Inserting D ω) (t : ω × Option Record) : Option (Inserting D ω) :=
  ((s.inserters t.1).turn s.store t.2).map fun p =>
    ⟨p.1, Function.update s.inserters t.1 p.2.1, s.done ++ p.2.2.toList⟩

theorem step_of_turn (s : Inserting D ω) (t : ω × Option Record) (s' : Inserting D ω)
    (h : s.turn t = some s') : Step s s' := by
  obtain ⟨p, hp, rfl⟩ := Option.map_eq_some_iff.mp h
  exact .step s t.1 _ _ _ _ rfl (Inserter.step_of_turn hp)

/-- Two threads insert a record each. The one that takes its bytes first takes its id last. -/
def overtaken : List (Bool × Option Record) :=
  [(false, some ⟨[7, 8], [], by decide⟩), (true, some ⟨[9], [], by decide⟩), (true, none),
    (false, none), (false, none), (true, none), (false, none), (true, none), (true, none),
    (true, none), (false, none), (false, none)]

theorem appended_overtaken : ∃ s : Inserting FlatLog Bool, Reached (fun _ => []) s ∧
    s.store.numRecords = 2 ∧ ∀ id, id < 2 → ∃ d, s.Appended id d := by
  obtain ⟨s, hs, hsee⟩ := Schedule.exists_run step_of_turn overtaken
    (by decide +kernel : (Schedule.after turn (init fun _ => [] : Inserting FlatLog Bool)
      overtaken).map (fun s => (s.store.numRecords, s.store.dtail)) = some (2, 3))
  obtain ⟨hread, hbytes⟩ := Prod.mk.inj hsee
  have happended := (appended hs (by rw [hbytes]; decide)).1
  rw [hread] at happended
  exact ⟨s, hs, hread, happended⟩

end Inserting

end Netplay
