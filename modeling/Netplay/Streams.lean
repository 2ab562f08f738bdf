import Netplay.ReservedIds

/-!
# Streams

`streamlog`, `add_stream` and `update_streams` among concurrent insertions: the load of the number
of streams, and for each of them the call of its filter function and, where it returns true, the
`fetch_add` on the tail of its list and the store of the id. `log_store::insert` updates the
streams last, `handle::insert` before it sets the entry of the offset log, and `insert_pktburst`
does not do so at all.

`update_indexes` goes from token to token, and the calls of `add_entry` are its steps. A stream is
added in one step here; `StreamRegistration` has the steps of `add_stream`. A filter function is a
function of its arguments.
-/

namespace Netplay

/-- `filter_function`. It has the id by reference, and the id that it leaves is what is added. -/
abbrev FilterFunction : Type := Nat → Record → Bool × Nat

/-- `streamlog`; for the record, with the ids of the calls that have taken the positions. -/
structure Streamlog where
  fn : FilterFunction
  tail : Nat
  slots : Nat → Slot
  owners : List Nat

namespace Streamlog

def new (fn : FilterFunction) : Streamlog := ⟨fn, 0, fun _ => .free, []⟩

/-- `tail_.fetch_add(1)` of a call with id `id`, which is going to store `val`. -/
def fetchAdd (σ : Streamlog) (id val : Nat) : Streamlog :=
  { σ with
    tail := σ.tail + 1
    slots := Function.update σ.slots σ.tail (.reserved val)
    owners := σ.owners ++ [id] }

def store (σ : Streamlog) (idx val : Nat) : Streamlog :=
  { σ with slots := Function.update σ.slots idx (.stored val) }

end Streamlog

/-- Where a call stands with `update_streams`: it has found `num` streams and is at stream `i`,
before the call of the filter function, the `fetch_add` or the store. -/
inductive StreamPhase where
  | before : StreamPhase
  | checking : (num i : Nat) → StreamPhase
  | pushing : (num i val : Nat) → StreamPhase
  | storing : (num i val idx : Nat) → StreamPhase
  | behind : (num : Nat) → StreamPhase
  deriving DecidableEq, Repr

/-- One atomic step of `update_streams` for a record. -/
def StreamPhase.next (id : Nat) (r : Record) (streams : List Streamlog) :
    StreamPhase → Option (List Streamlog × StreamPhase)
  | .checking num i =>
    if i < num then
      streams[i]?.map fun σ =>
        (streams, if (σ.fn id r).1 then .pushing num i (σ.fn id r).2 else .checking num (i + 1))
    else some (streams, .behind num)
  | .pushing num i val =>
    streams[i]?.map fun σ => (streams.set i (σ.fetchAdd id val), .storing num i val σ.tail)
  | .storing num i val idx =>
    streams[i]?.map fun σ => (streams.set i (σ.store idx val), .checking num (i + 1))
  | _ => none

namespace Caller

/-- The record and the id of a call that updates streams, from its reservations on. -/
def current : Caller → Option (Record × Nat)
  | .store (.running r _ id _) => some (r, id)
  | .handle (.running h r _) => some (r, h.curId)
  | _ => none

/-- The call has come to `update_streams`. -/
def atStreams : Caller → Bool
  | .store (.running _ _ _ []) => true
  | .handle (.running _ _ [_]) => true
  | _ => false

/-- The call is in `update_indexes`: the id and the token of its next `add_entry`, and the call
behind it. -/
def nextToken : Caller → Option (Nat × Token × Caller)
  | .store (.running r offset id (.index id' (t :: tokens) :: todo)) =>
    some (id', t, .store (.running r offset id (.index id' tokens :: todo)))
  | .handle (.running h r (.index id' (t :: tokens) :: todo)) =>
    some (id', t, .handle (.running h r (.index id' tokens :: todo)))
  | _ => none

end Caller

/-- A call that has returned, with the number of streams that it found. -/
structure StreamDone where
  record : Record
  id : Nat
  num : Nat
  deriving DecidableEq

/-- What a call puts into the list. -/
def StreamDone.slot (fn : FilterFunction) (d : StreamDone) : Slot := .stored (fn d.id d.record).2

/-- The call has put its id into the list of stream `k`. -/
def StreamDone.kept (fn : FilterFunction) (k : Nat) (d : StreamDone) : Bool :=
  decide (k < d.num) && (fn d.id d.record).1

/-- The store with its callers, the streams, and where the calls stand with them. -/
structure Streaming (D ω : Type) where
  store : LogStore D
  callers : ω → Caller
  streams : List Streamlog
  phases : ω → StreamPhase
  done : List StreamDone

namespace Streaming

variable {D ω : Type} [Datalog D]

def init (indexes : (k : Nat) → List (LogIndex k)) (roles : ω → Role) : Streaming D ω :=
  ⟨{ LogStore.empty with indexes := indexes }, fun w => .ofRole (roles w), [], fun _ => .before, []⟩

/-- Without the streams. -/
def toCallers (s : Streaming D ω) : Callers D ω := ⟨s.store, s.callers⟩

variable [DecidableEq ω]

/-- A step of a call outside `update_indexes` and `update_streams`, which it cannot leave out; an
`add_entry`; the step with which the call returns; the steps of `update_streams`; and a stream that
is added. That is an abstraction of `add_stream`: `Hosting.hosts_step` is its simulation. -/
inductive Step : Streaming D ω → Streaming D ω → Prop where
  | token (s : Streaming D ω) (w : ω) (x : Caller) (id : Nat) (t : Token) (x' : Caller)
      (st : LogStore D) (hw : s.callers w = x) (hx : x.nextToken = some (id, t, x'))
      (h : s.store.addEntry id t = .ok st) :
      Step s { s with store := st, callers := Function.update s.callers w x' }
  | log (s : Streaming D ω) (w : ω) (x : Caller) (st : LogStore D) (x' : Caller)
      (hw : s.callers w = x) (hx : x.nextToken = none) (h : x.Step s.store st x')
      (hat : x.atStreams = true → ∃ num, s.phases w = .behind num)
      (hopen : x'.current = none → x.current = none) :
      Step s { s with store := st, callers := Function.update s.callers w x' }
  | finish (s : Streaming D ω) (w : ω) (x : Caller) (st : LogStore D) (x' : Caller) (r : Record)
      (id num : Nat) (hw : s.callers w = x) (h : x.Step s.store st x')
      (hx : x.current = some (r, id)) (hx' : x'.current = none)
      (hphase : s.phases w = .behind num) :
      Step s
        { store := st
          callers := Function.update s.callers w x'
          streams := s.streams
          phases := Function.update s.phases w .before
          done := s.done ++ [⟨r, id, num⟩] }
  | enter (s : Streaming D ω) (w : ω) (hat : (s.callers w).atStreams = true)
      (hphase : s.phases w = .before) :
      Step s { s with phases := Function.update s.phases w (.checking s.streams.length 0) }
  | stream (s : Streaming D ω) (w : ω) (r : Record) (id : Nat) (σs : List Streamlog)
      (p : StreamPhase) (hx : (s.callers w).current = some (r, id))
      (hnext : (s.phases w).next id r s.streams = some (σs, p)) :
      Step s { s with streams := σs, phases := Function.update s.phases w p }
  | addStream (s : Streaming D ω) (fn : FilterFunction) :
      Step s { s with streams := s.streams ++ [.new fn] }

def Reached (indexes : (k : Nat) → List (LogIndex k)) (roles : ω → Role) (s : Streaming D ω) : Prop :=
  Relation.ReflTransGen Step (init indexes roles) s

end Streaming

namespace Caller

variable {D : Type} [Datalog D] {st st' : LogStore D} {x x' : Caller}

/-- The call holds its id. -/
theorem block_of_current {r : Record} {id : Nat} (hr : x.Ready) (hx : x.current = some (r, id)) :
    ∃ b, x.block = some b ∧ b.Holds id := by
  cases x with
  | store x =>
    cases x with
    | running r' offset id' todo =>
      cases hx
      exact ⟨⟨id, 1⟩, rfl, Nat.le_refl _, Nat.lt_succ_self _⟩
    | _ => cases hx
  | handle x =>
    cases x with
    | running h r' todo =>
      cases hx
      exact ⟨⟨h.curId, h.remainingIds⟩, rfl, Nat.le_refl _, Nat.lt_add_of_pos_right hr.2⟩
    | _ => cases hx
  | burst x => cases hx

/-- A call keeps its record and its id until it returns. -/
theorem step_current (h : x.Step st st' x') {p : Record × Nat} (hx : x.current = some p) :
    x'.current = some p ∨ x'.current = none := by
  cases h with
  | store x st' x' ret h =>
    cases h with
    | run r offset id op todo _ _ => exact .inl hx
    | finish => exact .inr rfl
    | locate => cases hx
    | start => cases hx
  | handle x st' x' h =>
    cases h with
    | run h r op todo _ _ => exact .inl hx
    | finish => exact .inr rfl
    | number => cases hx
    | place => cases hx
  | burst x st' x' h => cases hx

/-- A step that is not the last one of a call. -/
theorem step_keeps (h : x.Step st st' x') (hopen : x'.current = none → x.current = none)
    (p : Record × Nat) (hx : x.current = some p) : x'.current = some p := by
  rcases step_current h hx with hsame | hnone
  · exact hsame
  · rw [hopen hnone] at hx
    cases hx

/-- A call returns with the `end` of its id. -/
theorem step_returns (h : x.Step st st' x') {r : Record} {id : Nat} (hx : x.current = some (r, id))
    (hx' : x'.current = none) : st.olog.readId = id ∧ st'.olog.readId = id + 1 := by
  cases h with
  | store x st' x' ret h =>
    cases h with
    | run r offset id op todo _ _ => cases hx'
    | finish r offset id _ hst =>
      cases hx
      obtain ⟨hread, rfl⟩ := LogStore.endBlock_eq hst
      exact ⟨hread, rfl⟩
    | locate => cases hx
    | start => cases hx
  | handle x st' x' h =>
    cases h with
    | run h r op todo _ _ => cases hx'
    | finish h r _ hst =>
      cases hx
      obtain ⟨hread, rfl⟩ := LogStore.endBlock_eq hst
      exact ⟨hread, rfl⟩
    | number => cases hx
    | place => cases hx
  | burst x st' x' h => cases hx

/-- At `update_streams` a store's insertion can only return, and a handle's only sets its entry. -/
theorem current_of_atStreams (h : x.atStreams = true) : ∃ p, x.current = some p := by
  cases x with
  | store x =>
    cases x with
    | running r offset id todo => exact ⟨_, rfl⟩
    | _ => cases h
  | handle x =>
    cases x with
    | running h r todo => exact ⟨_, rfl⟩
    | _ => cases h
  | burst x => cases h

/-- An `add_entry` changes nothing about the call but the tokens that are left. -/
theorem nextToken_same {id : Nat} {t : Token} (h : x.nextToken = some (id, t, x')) :
    x'.block = x.block ∧ x'.current = x.current ∧ x'.atStreams = x.atStreams ∧
      (x'.Ready ↔ x.Ready) ∧ ∃ p, x.current = some p := by
  unfold nextToken at h
  split at h
  · next r offset id' i t' tokens todo =>
    cases h
    cases todo <;> exact ⟨rfl, rfl, rfl, Iff.rfl, _, rfl⟩
  · next h' r i t' tokens todo =>
    cases h
    cases todo <;> exact ⟨rfl, rfl, rfl, Iff.rfl, _, rfl⟩
  · cases h

end Caller

/-! ## The ids -/

namespace Streaming

variable {D ω : Type} [Datalog D] [DecidableEq ω]

omit [Datalog D] in
theorem idsHeld_token {s : Streaming D ω} (h : s.toCallers.IdsHeld) {w : ω} {x x' : Caller}
    {id : Nat} {t : Token} {st : LogStore D} (hw : s.callers w = x)
    (hx : x.nextToken = some (id, t, x')) (hst : s.store.addEntry id t = .ok st) :
    Callers.IdsHeld ⟨st, Function.update s.callers w x'⟩ := by
  obtain ⟨hblock, -, -, hready, -⟩ := Caller.nextToken_same hx
  refine ⟨?_, fun v => ?_⟩
  · have hpend : Callers.pending ⟨st, Function.update s.callers w x'⟩ = s.toCallers.pending := by
      funext v
      by_cases hv : v = w
      · subst hv
        simp [Callers.pending, toCallers, hblock, hw]
      · simp [Callers.pending, toCallers, hv]
    rw [hpend, LogStore.addEntry_frame hst]
    exact h.tiles
  · by_cases hv : v = w
    · subst hv
      have hold : (s.callers v).Ready := h.ready v
      rw [hw] at hold
      simpa using hready.mpr hold
    · simpa [hv, toCallers] using h.ready v

theorem idsHeld_reached {indexes : (k : Nat) → List (LogIndex k)} {roles : ω → Role}
    {s : Streaming D ω} (hroles : ∀ w requestBatchSize dataBlockSize,
      roles w = .handle requestBatchSize dataBlockSize → 1 ≤ requestBatchSize)
    (h : Reached indexes roles s) : s.toCallers.IdsHeld := by
  induction h with
  | refl => exact Callers.idsHeld_init indexes hroles
  | tail _ hs ih =>
    cases hs with
    | token w x id t x' st hw hx hst => exact idsHeld_token ih hw hx hst
    | log w x st x' hw _ hx _ _ => exact Callers.idsHeld_step ih (.step _ w x st x' hw hx)
    | finish w x st x' r id num hw hx _ _ _ =>
      exact Callers.idsHeld_step ih (.step _ w x st x' hw hx)
    | enter => exact ih
    | stream => exact ih
    | addStream => exact ih

end Streaming

end Netplay
