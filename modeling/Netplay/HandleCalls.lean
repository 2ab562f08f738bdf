import Mathlib.Data.List.Induction
import Netplay.LogOps

/-!
# Insertions one after the other

The calls of one thread, through the store itself and through its handles. A
call that does not return is the last one; the session remembers, for the record,
what the handles have inserted and the data blocks they have obtained.
-/

namespace Netplay

namespace LogStore

variable {D : Type} [Datalog D]

/-- The operations of `handle::insert`. -/
theorem runOps_handle {st st' : LogStore D} {h : Handle} {r : Record}
    (hrun : st.runOps (h.insertOps r) = .ok st') :
    Datalog.writable D h.curOffset r.bytes.length = true ∧ OffsetLog.inBuckets h.curId = true ∧
      st' = { st with
        olog := { st.olog with
          offlens := Function.update st.olog.offlens h.curId (some (packOfflen h.curOffset r.len)) }
        dlog := Datalog.write st.dlog h.curOffset r.bytes
        indexes := st'.indexes } := by
  rw [Handle.insertOps, runOps_cons] at hrun
  obtain ⟨st₁, h₁, hrun⟩ := ok_of_bind hrun
  obtain ⟨hwrite, rfl⟩ := appendRecord_eq h₁
  rw [runOps_cons] at hrun
  obtain ⟨st₂, h₂, hrun⟩ := ok_of_bind hrun
  have hframe := updateIndexes_frame h₂
  rw [runOps_cons] at hrun
  obtain ⟨st₃, h₃, hrun⟩ := ok_of_bind hrun
  obtain ⟨hin, rfl⟩ := setOfflen_eq h₃
  cases hrun
  refine ⟨hwrite, hin, ?_⟩
  rw [hframe]

/-- What `handle::insert` has done when it gets to its `end`. -/
structure HandleBody (st : LogStore D) (h : Handle) (r : Record) (st' : LogStore D)
    (h' : Handle) : Prop where
  idBlockSize : h'.idBlockSize = h.idBlockSize
  dataBlockSize : h'.dataBlockSize = h.dataBlockSize
  ids : (h.remainingIds = 0 ∧ h'.curId = st.olog.writeId ∧ h'.remainingIds = h.idBlockSize ∧
      st'.olog.writeId = st.olog.writeId + h.idBlockSize) ∨
    (h.remainingIds ≠ 0 ∧ h'.curId = h.curId ∧ h'.remainingIds = h.remainingIds ∧
      st'.olog.writeId = st.olog.writeId)
  bytes : (h.remainingBytes < r.len ∧ h'.curOffset = st.dtail ∧
      h'.remainingBytes = h.dataBlockSize ∧ st'.dtail = st.dtail + h.dataBlockSize) ∨
    (r.len ≤ h.remainingBytes ∧ h'.curOffset = h.curOffset ∧
      h'.remainingBytes = h.remainingBytes ∧ st'.dtail = st.dtail)
  readId : st'.olog.readId = st.olog.readId
  offlens : st'.olog.offlens =
    Function.update st.olog.offlens h'.curId (some (packOfflen h'.curOffset r.len))
  dlog : st'.dlog = Datalog.write st.dlog h'.curOffset r.bytes
  inBuckets : OffsetLog.inBuckets h'.curId = true
  writable : Datalog.writable D h'.curOffset r.bytes.length = true

theorem handleBody_spec {st : LogStore D} {h : Handle} {r : Record} {p : LogStore D × Handle}
    (hp : st.handleBody h r = .ok p) : HandleBody st h r p.1 p.2 := by
  obtain ⟨⟨st₁, h₁⟩, hids, hp⟩ := ok_of_bind hp
  obtain ⟨⟨st₂, h₂⟩, hbytes, hp⟩ := ok_of_bind hp
  dsimp only at hbytes hp
  cases hops : st₂.runOps (h₂.insertOps r) with
  | error e =>
    rw [hops] at hp
    cases hp
  | ok st₃ =>
    rw [hops] at hp
    cases hp
    obtain ⟨hwrite, hin, hst⟩ := runOps_handle hops
    rcases takeIds_cases hids with ⟨h0, -, heq⟩ | ⟨h0, heq⟩ <;> cases heq <;>
      rcases takeBytes_cases hbytes with ⟨hlt, -, heq⟩ | ⟨hle, heq⟩ <;> cases heq
    · exact ⟨rfl, rfl, .inl ⟨h0, rfl, rfl, by rw [hst]; rfl⟩, .inl ⟨hlt, rfl, rfl, by rw [hst]⟩,
        by rw [hst]; rfl, by rw [hst]; rfl, by rw [hst], hin, hwrite⟩
    · exact ⟨rfl, rfl, .inl ⟨h0, rfl, rfl, by rw [hst]; rfl⟩, .inr ⟨hle, rfl, rfl, by rw [hst]⟩,
        by rw [hst]; rfl, by rw [hst]; rfl, by rw [hst], hin, hwrite⟩
    · exact ⟨rfl, rfl, .inr ⟨h0, rfl, rfl, by rw [hst]⟩, .inl ⟨hlt, rfl, rfl, by rw [hst]⟩,
        by rw [hst], by rw [hst], by rw [hst], hin, hwrite⟩
    · exact ⟨rfl, rfl, .inr ⟨h0, rfl, rfl, by rw [hst]⟩, .inr ⟨hle, rfl, rfl, by rw [hst]⟩,
        by rw [hst], by rw [hst], by rw [hst], hin, hwrite⟩

/-- An insertion through a handle that returns found `current_read_id_` at its id. -/
theorem handleInsert_eq {st st' : LogStore D} {h h' : Handle} {r : Record} {id : Nat}
    (hp : st.handleInsert h r = .ok (st', h', id)) :
    ∃ p, st.handleBody h r = .ok p ∧ p.1.olog.readId = p.2.curId ∧
      st' = { p.1 with olog := { p.1.olog with readId := p.2.curId + 1 } } ∧
      h' = p.2.finish r.len ∧ id = p.2.curId + 1 := by
  obtain ⟨p, hbody, hp⟩ := ok_of_bind hp
  cases hend : p.1.endBlock p.2.curId 1 with
  | error e =>
    rw [hend] at hp
    cases hp
  | ok st₁ =>
    rw [hend] at hp
    cases hp
    obtain ⟨hread, rfl⟩ := endBlock_eq hend
    exact ⟨p, hbody, hread, rfl, rfl, rfl⟩

end LogStore

/-- A call of `insert` with the record, through the store or through a handle. -/
inductive InsertCall (η : Type) where
  | store : Record → InsertCall η
  | handle : η → Record → InsertCall η

/-- A record that a handle has inserted: the id that was ended, and where its bytes are. -/
structure HandleDone (η : Type) where
  who : η
  record : Record
  id : Nat
  offset : Nat

def HandleDone.block {η : Type} (x : HandleDone η) : Block := ⟨x.offset, x.record.len⟩

/-- The store and the handles, with what the handles have done and obtained. -/
structure Session (D η : Type) where
  store : LogStore D
  handles : η → Handle
  done : List (HandleDone η)
  blocks : η → List Block

/-- A store without records, with any indexes. -/
def LogStore.fresh {D : Type} [Datalog D] (indexes : (k : Nat) → List (LogIndex k)) : LogStore D :=
  { LogStore.empty with indexes := indexes }

namespace Session

variable {D η : Type} [Datalog D]

/-- A fresh store and new handles. -/
def init (indexes : (k : Nat) → List (LogIndex k)) (requestBatchSize dataBlockSize : η → Nat) :
    Session D η :=
  ⟨.fresh indexes, fun w => .new (requestBatchSize w) (dataBlockSize w), [], fun _ => []⟩

variable [DecidableEq η]

/-- The data block that the handle requests for a record, if any. -/
def obtained (s : Session D η) (w : η) (r : Record) : List Block :=
  if (s.handles w).remainingBytes < r.len then [⟨s.store.dtail, (s.handles w).dataBlockSize⟩] else []

/-- One call, with the id it returns. -/
def call (s : Session D η) : InsertCall η → Except Halt (Session D η × Nat)
  | .store r => (s.store.insert r).map fun p => ({ s with store := p.1 }, p.2)
  | .handle w r => (s.store.handleInsert (s.handles w) r).map fun p =>
    (⟨p.1, Function.update s.handles w p.2.1,
      s.done ++ [⟨w, r, p.2.1.curId - 1, p.2.1.curOffset - r.len⟩],
      Function.update s.blocks w (s.blocks w ++ s.obtained w r)⟩, p.2.2)

/-- The calls up to the last, or up to the first that does not return. -/
def calls (s : Session D η) : List (InsertCall η) → Except Halt (Session D η × List Nat)
  | [] => .ok (s, [])
  | c :: cs => (s.call c).bind fun p => (p.1.calls cs).map fun q => (q.1, p.2 :: q.2)

theorem call_store_eq {s s' : Session D η} {r : Record} {id : Nat}
    (h : s.call (.store r) = .ok (s', id)) :
    ∃ st, s.store.insert r = .ok (st, id) ∧ s' = { s with store := st } := by
  rw [call] at h
  cases hins : s.store.insert r with
  | error e =>
    rw [hins] at h
    cases h
  | ok p =>
    rw [hins] at h
    cases h
    exact ⟨p.1, rfl, rfl⟩

/-- What a call through a handle does to the session. -/
theorem call_handle_eq {s s' : Session D η} {w : η} {r : Record} {id : Nat}
    (h : s.call (.handle w r) = .ok (s', id)) :
    ∃ st' h', LogStore.HandleBody s.store (s.handles w) r st' h' ∧ st'.olog.readId = h'.curId ∧
      id = h'.curId + 1 ∧
      s' = ⟨{ st' with olog := { st'.olog with readId := h'.curId + 1 } },
        Function.update s.handles w (h'.finish r.len),
        s.done ++ [⟨w, r, h'.curId, h'.curOffset⟩],
        Function.update s.blocks w (s.blocks w ++ s.obtained w r)⟩ := by
  rw [call] at h
  cases hins : s.store.handleInsert (s.handles w) r with
  | error e =>
    rw [hins] at h
    cases h
  | ok p =>
    obtain ⟨st, h', id'⟩ := p
    rw [hins] at h
    cases h
    obtain ⟨q, hbody, hread, rfl, rfl, rfl⟩ := LogStore.handleInsert_eq hins
    refine ⟨q.1, q.2, LogStore.handleBody_spec hbody, hread, rfl, ?_⟩
    simp [Handle.finish]

theorem calls_snoc (cs : List (InsertCall η)) (c : InsertCall η) : ∀ s : Session D η,
    s.calls (cs ++ [c]) =
      (s.calls cs).bind fun p => (p.1.call c).map fun q => (q.1, p.2 ++ [q.2]) := by
  induction cs with
  | nil =>
    intro s
    cases hc : s.call c with
    | error e => simp [calls, hc, Except.bind, Except.map]
    | ok p => simp [calls, hc, Except.bind, Except.map]
  | cons c' cs ih =>
    intro s
    rw [List.cons_append, calls, calls]
    cases hc : s.call c' with
    | error e => rfl
    | ok p =>
      simp only [Except.bind, ih]
      cases hcs : p.1.calls cs with
      | error e => rfl
      | ok q =>
        simp only [Except.map]
        cases hl : q.1.call c with
        | error e => rfl
        | ok t => rfl

theorem calls_snoc_eq {cs : List (InsertCall η)} {c : InsertCall η} {s s' : Session D η}
    {ids : List Nat} (h : s.calls (cs ++ [c]) = .ok (s', ids)) :
    ∃ s₁ ids₁ id, s.calls cs = .ok (s₁, ids₁) ∧ s₁.call c = .ok (s', id) ∧ ids = ids₁ ++ [id] := by
  rw [calls_snoc] at h
  obtain ⟨p, hp, h⟩ := ok_of_bind h
  cases hc : p.1.call c with
  | error e =>
    rw [hc] at h
    cases h
  | ok q =>
    rw [hc] at h
    cases h
    exact ⟨p.1, p.2, q.2, hp, hc, rfl⟩

/-- What holds at first and under every call that returns holds behind the calls. -/
theorem calls_induction {P : List (InsertCall η) → Session D η → List Nat → Prop}
    {s₀ : Session D η} (hinit : P [] s₀ [])
    (hstep : ∀ cs c s s' ids id, P cs s ids → s.call c = .ok (s', id) →
      P (cs ++ [c]) s' (ids ++ [id])) (cs : List (InsertCall η)) :
    ∀ {s : Session D η} {ids : List Nat}, s₀.calls cs = .ok (s, ids) → P cs s ids := by
  induction cs using List.reverseRecOn with
  | nil =>
    intro s ids h
    cases h
    exact hinit
  | append_singleton cs c ih =>
    intro s ids h
    obtain ⟨s₁, ids₁, id, h₁, hc, rfl⟩ := calls_snoc_eq h
    exact hstep cs c s₁ s ids₁ id (ih h₁) hc

/-- `insert` of each of the records, through the handles. -/
def handleCalls (s : Session D η) (cs : List (η × Record)) : Except Halt (Session D η × List Nat) :=
  s.calls (cs.map fun c => .handle c.1 c.2)

theorem handleCalls_induction {P : List (η × Record) → Session D η → List Nat → Prop}
    {s₀ : Session D η} (hinit : P [] s₀ [])
    (hstep : ∀ cs w r s s' ids id, P cs s ids → s.call (.handle w r) = .ok (s', id) →
      P (cs ++ [(w, r)]) s' (ids ++ [id])) (cs : List (η × Record)) :
    ∀ {s : Session D η} {ids : List Nat}, s₀.handleCalls cs = .ok (s, ids) → P cs s ids := by
  induction cs using List.reverseRecOn with
  | nil =>
    intro s ids h
    cases h
    exact hinit
  | append_singleton cs c ih =>
    intro s ids h
    rw [handleCalls, List.map_append] at h
    obtain ⟨s₁, ids₁, id, h₁, hc, rfl⟩ := calls_snoc_eq h
    exact hstep cs c.1 c.2 s₁ s ids₁ id (ih h₁) hc

/-- Every call that returns has moved `current_read_id_` by one. -/
theorem call_readId {s s' : Session D η} {c : InsertCall η} {id : Nat}
    (h : s.call c = .ok (s', id)) : s'.store.olog.readId = s.store.olog.readId + 1 := by
  cases c with
  | store r =>
    obtain ⟨st, hins, rfl⟩ := call_store_eq h
    obtain ⟨-, body, hbody, hread, rfl⟩ := LogStore.insert_eq hins
    rw [← hread, (LogStore.insertBody_counters hbody).1]
  | handle w r =>
    obtain ⟨st', h', hbody, hread, -, rfl⟩ := call_handle_eq h
    rw [← hbody.readId, hread]

end Session

end Netplay
