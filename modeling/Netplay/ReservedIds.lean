import Netplay.ConcurrentInsert

/-!
# Ids that are reserved and not ended

Insertions of all three kinds among each other: `log_store::insert`,
`handle::insert` and `insert_pktburst`. `get` and `extract` take an id for that of
a record when it is below `current_write_id_`; the records that have been ended
are those below `current_read_id_`.
-/

namespace Netplay

open BlockTail

/-! ## Handles -/

/-- Where the owner of a handle stands in `handle::insert`: it has an id, or
also its bytes and the operations that are left. -/
inductive HandleUser where
  | idle : Handle → HandleUser
  | numbered : Handle → Record → HandleUser
  | running : Handle → Record → List LogOp → HandleUser

namespace HandleUser

def handle : HandleUser → Handle
  | .idle h => h
  | .numbered h _ => h
  | .running h _ _ => h

/-- The ids that the handle has reserved and not yet ended, the current one first. -/
def block (x : HandleUser) : Block := ⟨x.handle.curId, x.handle.remainingIds⟩

variable {D : Type} [Datalog D]

inductive Step (st : LogStore D) : HandleUser → LogStore D → HandleUser → Prop where
  | number (h : Handle) (r : Record) (p : LogStore D × Handle) (hp : st.takeIds h = .ok p) :
      Step st (.idle h) p.1 (.numbered p.2 r)
  | place (h : Handle) (r : Record) (p : LogStore D × Handle) (hp : st.takeBytes h r.len = .ok p) :
      Step st (.numbered h r) p.1 (.running p.2 r (p.2.insertOps r))
  | run (h : Handle) (r : Record) (op : LogOp) (todo : List LogOp) (st' : LogStore D)
      (hp : st.runOp op = .ok st') : Step st (.running h r (op :: todo)) st' (.running h r todo)
  | finish (h : Handle) (r : Record) (st' : LogStore D) (hp : st.endBlock h.curId 1 = .ok st') :
      Step st (.running h r []) st' (.idle (h.finish r.len))

end HandleUser

/-! ## Bursts -/

/-- What `insert_pktburst` writes to the two logs: an entry and a record for each packet. -/
def burstLogOps (now : Nat) : (id offset : Nat) → List Mbuf → List LogOp
  | _, _, [] => []
  | id, offset, m :: ms =>
    .set id offset m.size :: .append ((List.range (8 + m.size)).map (record now m.data)) offset ::
      burstLogOps now (id + 1) (offset + (8 + m.size)) ms

/-- Where a thread stands in `insert_pktburst`, as far as the log store goes. -/
inductive Burster where
  | idle : Burster
  | reserved : Burst → (start : Nat) → Burster
  | running : Burst → (start : Nat) → List LogOp → Burster

namespace Burster

def block : Burster → Option Block
  | .idle => none
  | .reserved b start => some ⟨start, b.cnt⟩
  | .running b start _ => some ⟨start, b.cnt⟩

variable {D : Type} [Datalog D]

inductive Step (st : LogStore D) : Burster → LogStore D → Burster → Prop where
  | reserve (b : Burst) (olog : OffsetLog) (h : st.olog.requestIdBlock b.cnt = .ok olog) :
      Step st .idle { st with olog := olog } (.reserved b st.olog.writeId)
  | place (b : Burst) (start : Nat) (st' : LogStore D) (h : st.requestBytes b.nbytes = .ok st') :
      Step st (.reserved b start) st'
        (.running b start (burstLogOps b.now.toNat start st.dtail b.pkts))
  | run (b : Burst) (start : Nat) (op : LogOp) (todo : List LogOp) (st' : LogStore D)
      (h : st.runOp op = .ok st') : Step st (.running b start (op :: todo)) st' (.running b start todo)
  | finish (b : Burst) (start : Nat) (st' : LogStore D) (h : st.endBlock start b.cnt = .ok st') :
      Step st (.running b start []) st' .idle

end Burster

/-! ## All of them -/

/-- What a caller inserts through. A thread that uses several of them is several
callers that take turns. -/
inductive Role where
  | store : Role
  | handle : (requestBatchSize dataBlockSize : Nat) → Role
  | burst : Role

inductive Caller where
  | store : Inserter → Caller
  | handle : HandleUser → Caller
  | burst : Burster → Caller

namespace Caller

def ofRole : Role → Caller
  | .store => .store .idle
  | .handle requestBatchSize dataBlockSize =>
    .handle (.idle (.new requestBatchSize dataBlockSize))
  | .burst => .burst .idle

/-- The ids that the caller holds: those of its call in flight, and those its
handle keeps for later calls. -/
def block : Caller → Option Block
  | .store x => x.block
  | .handle x => some x.block
  | .burst x => x.block

variable {D : Type} [Datalog D]

inductive Step (st : LogStore D) : Caller → LogStore D → Caller → Prop where
  | store (x : Inserter) (st' : LogStore D) (x' : Inserter) (ret : Option InsertDone)
      (h : x.Step st st' x' ret) : Step st (.store x) st' (.store x')
  | handle (x : HandleUser) (st' : LogStore D) (x' : HandleUser) (h : x.Step st st' x') :
      Step st (.handle x) st' (.handle x')
  | burst (x : Burster) (st' : LogStore D) (x' : Burster) (h : x.Step st st' x') :
      Step st (.burst x) st' (.burst x')

end Caller

/-! ## The ids that callers hold -/

namespace HandleUser

/-- The handle takes ids at least one by one, and has one during a call. -/
def Ready : HandleUser → Prop
  | .idle h => 1 ≤ h.idBlockSize
  | .numbered h _ => 1 ≤ h.idBlockSize ∧ 1 ≤ h.remainingIds
  | .running h _ _ => 1 ≤ h.idBlockSize ∧ 1 ≤ h.remainingIds

variable {D ω : Type} [Datalog D] [DecidableEq ω] {st st' : LogStore D} {x x' : HandleUser}

theorem step_ready (h : x.Step st st' x') (hr : x.Ready) : x'.Ready := by
  cases h with
  | number h r p hp =>
    rcases LogStore.takeIds_cases hp with ⟨-, -, rfl⟩ | ⟨hne, rfl⟩
    · exact ⟨hr, hr⟩
    · exact ⟨hr, Nat.one_le_iff_ne_zero.mpr hne⟩
  | place h r p hp =>
    rcases LogStore.takeBytes_cases hp with ⟨-, -, rfl⟩ | ⟨-, rfl⟩
    · exact hr
    · exact hr
  | run h r op todo st' hp => exact hr
  | finish h r st' hp => exact hr.1

theorem step_tiles (h : x.Step st st' x') (hr : x.Ready) {pending : ω → Option Block} {w : ω}
    (ht : Tiles st.olog.readId st.olog.writeId pending) (hw : pending w = some x.block) :
    Tiles st'.olog.readId st'.olog.writeId (Function.update pending w (some x'.block)) := by
  have same : x'.block = x.block → Tiles st.olog.readId st.olog.writeId
      (Function.update pending w (some x'.block)) := by
    intro heq
    rw [heq, ← hw, Function.update_eq_self]
    exact ht
  cases h with
  | number h r p hp =>
    rcases LogStore.takeIds_cases hp with ⟨h0, -, rfl⟩ | ⟨-, rfl⟩
    · exact ht.refill hw h0 h.idBlockSize
    · exact same rfl
  | place h r p hp =>
    rcases LogStore.takeBytes_cases hp with ⟨-, -, rfl⟩ | ⟨-, rfl⟩
    · exact same rfl
    · exact same rfl
  | run h r op todo st' hp =>
    obtain ⟨hread, hwrite, -⟩ := LogStore.runOp_counters hp
    rw [hread, hwrite]
    exact same rfl
  | finish h r st' hp =>
    obtain ⟨hread, rfl⟩ := LogStore.endBlock_eq hp
    obtain ⟨m, hm⟩ : ∃ m, h.remainingIds = 1 + m := ⟨h.remainingIds - 1, by have := hr.2; omega⟩
    have hdec : dec64 h.remainingIds = m := by
      rw [hm, dec64, if_neg (by omega), Nat.add_sub_cancel_left]
    have hblock : pending w = some ⟨st.olog.readId, 1 + m⟩ := by
      rw [hw, hread, ← hm]
      rfl
    have := ht.advance hblock
    rw [hread] at this
    simpa [block, handle, Handle.finish, hdec] using this

end HandleUser

namespace Caller

/-- Nothing is asked of callers without a handle. -/
def Ready : Caller → Prop
  | .handle x => x.Ready
  | _ => True

variable {D ω : Type} [Datalog D] [DecidableEq ω] {st st' : LogStore D} {x x' : Caller}

theorem step_ready (h : x.Step st st' x') (hr : x.Ready) : x'.Ready := by
  cases h with
  | store x st' x' ret h => trivial
  | handle x st' x' h => exact HandleUser.step_ready h hr
  | burst x st' x' h => trivial

/-- Every step of a caller takes ids at the write counter, ends ids at the read
counter, or leaves the counters and its ids alone. -/
theorem step_tiles (h : x.Step st st' x') (hr : x.Ready) {pending : ω → Option Block} {w : ω}
    (ht : Tiles st.olog.readId st.olog.writeId pending) (hw : pending w = x.block) :
    Tiles st'.olog.readId st'.olog.writeId (Function.update pending w x'.block) := by
  have same : x'.block = x.block → Tiles st.olog.readId st.olog.writeId
      (Function.update pending w x'.block) := by
    intro heq
    rw [heq, ← hw, Function.update_eq_self]
    exact ht
  cases h with
  | store x st' x' ret h =>
    cases h with
    | locate r _ hst =>
      obtain ⟨-, rfl⟩ := LogStore.requestBytes_eq hst
      exact same rfl
    | start r offset => exact ht.reserve hw 1
    | run r offset id op todo _ hst =>
      obtain ⟨hread, hwrite, -⟩ := LogStore.runOp_counters hst
      rw [hread, hwrite]
      exact same rfl
    | finish r offset id _ hst =>
      obtain ⟨rfl, rfl⟩ := LogStore.endBlock_eq hst
      exact ht.publish hw
  | handle x st' x' h => exact HandleUser.step_tiles h hr ht hw
  | burst x st' x' h =>
    cases h with
    | reserve b olog hst =>
      obtain ⟨-, rfl⟩ := OffsetLog.requestIdBlock_eq hst
      exact ht.reserve hw b.cnt
    | place b start _ hst =>
      obtain ⟨-, rfl⟩ := LogStore.requestBytes_eq hst
      exact same rfl
    | run b start op todo _ hst =>
      obtain ⟨hread, hwrite, -⟩ := LogStore.runOp_counters hst
      rw [hread, hwrite]
      exact same rfl
    | finish b start _ hst =>
      obtain ⟨rfl, rfl⟩ := LogStore.endBlock_eq hst
      exact ht.publish hw

end Caller

structure Callers (D ω : Type) where
  store : LogStore D
  callers : ω → Caller

namespace Callers

variable {D ω : Type} [Datalog D]

def init (indexes : (k : Nat) → List (LogIndex k)) (roles : ω → Role) : Callers D ω :=
  ⟨{ LogStore.empty with indexes := indexes }, fun w => .ofRole (roles w)⟩

def pending (s : Callers D ω) (w : ω) : Option Block := (s.callers w).block

/-- The ids that `get` and `extract` accept are those of the records that have been ended. -/
def FetchesRecords (s : Callers D ω) : Prop :=
  ∀ junk id, ((s.store.get junk id).isSome ↔ id < s.store.numRecords) ∧
    ∀ offset length, (s.store.extract junk id offset length).isSome ↔ id < s.store.numRecords

/-- No call in flight and no handle holds an id. -/
def NoneHeld (s : Callers D ω) : Prop := ∀ w b, s.pending w = some b → b.count = 0

variable [DecidableEq ω]

inductive Step : Callers D ω → Callers D ω → Prop where
  | step (s : Callers D ω) (w : ω) (x : Caller) (st : LogStore D) (x' : Caller)
      (hw : s.callers w = x) (h : x.Step s.store st x') :
      Step s ⟨st, Function.update s.callers w x'⟩

def Reached (indexes : (k : Nat) → List (LogIndex k)) (roles : ω → Role) (s : Callers D ω) : Prop :=
  Relation.ReflTransGen Step (init indexes roles) s

/-- The ids between the counters are those that callers hold. -/
structure IdsHeld (s : Callers D ω) : Prop where
  tiles : Tiles s.store.olog.readId s.store.olog.writeId s.pending
  ready : ∀ w, (s.callers w).Ready

omit [DecidableEq ω] in
theorem idsHeld_init (indexes : (k : Nat) → List (LogIndex k)) {roles : ω → Role}
    (hroles : ∀ w requestBatchSize dataBlockSize,
      roles w = .handle requestBatchSize dataBlockSize → 1 ≤ requestBatchSize) :
    IdsHeld (init indexes roles : Callers D ω) := by
  refine ⟨Tiles.init.congr fun w i => ?_, fun w => ?_⟩
  · cases hrole : roles w <;>
      simp [Holds, pending, init, hrole, Caller.ofRole, Caller.block, Inserter.block,
        HandleUser.block, HandleUser.handle, Handle.new, Burster.block, Block.Holds]
  · cases hrole : roles w with
    | handle requestBatchSize dataBlockSize =>
      simp only [init, hrole]
      exact hroles w _ _ hrole
    | _ =>
      simp only [init, hrole]
      trivial

theorem idsHeld_step {s s' : Callers D ω} (h : IdsHeld s) (hs : Step s s') : IdsHeld s' := by
  obtain ⟨w, x, st, x', hw, hx⟩ := hs
  have hready : x.Ready := by
    rw [← hw]
    exact h.ready w
  refine ⟨?_, fun v => ?_⟩
  · have hpend : pending ⟨st, Function.update s.callers w x'⟩ =
        Function.update s.pending w x'.block := Function.comp_update Caller.block s.callers w x'
    rw [hpend]
    exact Caller.step_tiles hx hready h.tiles (by rw [pending, hw])
  · by_cases hv : v = w
    · subst hv
      simpa using Caller.step_ready hx hready
    · simpa [hv] using h.ready v

theorem idsHeld_reached {indexes : (k : Nat) → List (LogIndex k)} {roles : ω → Role}
    {s : Callers D ω} (hroles : ∀ w requestBatchSize dataBlockSize,
      roles w = .handle requestBatchSize dataBlockSize → 1 ≤ requestBatchSize)
    (h : Reached indexes roles s) : IdsHeld s := by
  induction h with
  | refl => exact idsHeld_init indexes hroles
  | tail _ hs ih => exact idsHeld_step ih hs

/-- In every state of every run, only records that have been ended can be fetched
exactly if no caller holds an id. -/
theorem fetchesRecords_iff {indexes : (k : Nat) → List (LogIndex k)} {roles : ω → Role}
    {s : Callers D ω} (hroles : ∀ w requestBatchSize dataBlockSize,
      roles w = .handle requestBatchSize dataBlockSize → 1 ≤ requestBatchSize)
    (h : Reached indexes roles s) : s.FetchesRecords ↔ s.NoneHeld := by
  have hheld := idsHeld_reached hroles h
  have hget : ∀ junk id, (s.store.get junk id).isSome ↔ id < s.store.olog.writeId := by
    intro junk id
    by_cases hid : id < s.store.olog.writeId <;> simp [LogStore.get, OffsetLog.isValid, hid]
  have hextract : ∀ junk id offset length,
      (s.store.extract junk id offset length).isSome ↔ id < s.store.olog.writeId := by
    intro junk id offset length
    by_cases hid : id < s.store.olog.writeId <;> simp [LogStore.extract, OffsetLog.isValid, hid]
  have hall : s.FetchesRecords ↔ s.store.olog.readId = s.store.olog.writeId := by
    simp only [FetchesRecords, hget, hextract]
    constructor
    · intro hf
      have hle := hheld.tiles.le
      have hlast := (hf 0 s.store.olog.readId).1
      rw [LogStore.numRecords, OffsetLog.numIds] at hlast
      omega
    · intro heq junk id
      rw [LogStore.numRecords, OffsetLog.numIds, heq]
      exact ⟨Iff.rfl, fun _ _ => Iff.rfl⟩
  exact hall.trans hheld.tiles.read_eq_write_iff

end Callers

/-! ## Callers that take turns -/

/-- What a caller inserts: a record, through the store or its handle, or a burst. -/
inductive Insertable where
  | record : Record → Insertable
  | burst : Burst → Insertable

namespace HandleUser

variable {D : Type} [Datalog D]

/-- The owner of the handle begins a call, or goes on with it by one step. -/
def turn (st : LogStore D) : HandleUser → Option Record → Option (LogStore D × HandleUser)
  | .idle h, some r => (st.takeIds h).toOption.map fun p => (p.1, .numbered p.2 r)
  | .numbered h r, none =>
    (st.takeBytes h r.len).toOption.map fun p => (p.1, .running p.2 r (p.2.insertOps r))
  | .running h r (op :: todo), none =>
    (st.runOp op).toOption.map fun st' => (st', .running h r todo)
  | .running h r [], none =>
    (st.endBlock h.curId 1).toOption.map fun st' => (st', .idle (h.finish r.len))
  | _, _ => none

theorem step_of_turn {st : LogStore D} {x : HandleUser} {call : Option Record}
    {p : LogStore D × HandleUser} (h : x.turn st call = some p) : x.Step st p.1 p.2 := by
  cases x with
  | idle h' =>
    cases call with
    | none => cases h
    | some r =>
      obtain ⟨q, hq, rfl⟩ := Option.map_eq_some_iff.mp h
      exact .number h' r q (ok_of_toOption hq)
  | numbered h' r =>
    cases call with
    | none =>
      obtain ⟨q, hq, rfl⟩ := Option.map_eq_some_iff.mp h
      exact .place h' r q (ok_of_toOption hq)
    | some r' => cases h
  | running h' r todo =>
    cases call with
    | none =>
      cases todo with
      | nil =>
        obtain ⟨st', hst, rfl⟩ := Option.map_eq_some_iff.mp h
        exact .finish h' r st' (ok_of_toOption hst)
      | cons op todo =>
        obtain ⟨st', hst, rfl⟩ := Option.map_eq_some_iff.mp h
        exact .run h' r op todo st' (ok_of_toOption hst)
    | some r' => cases todo <;> cases h

end HandleUser

namespace Burster

variable {D : Type} [Datalog D]

/-- The thread begins a burst, or goes on with it by one step. -/
def turn (st : LogStore D) : Burster → Option Burst → Option (LogStore D × Burster)
  | .idle, some b =>
    (st.olog.requestIdBlock b.cnt).toOption.map fun olog =>
      ({ st with olog := olog }, .reserved b st.olog.writeId)
  | .reserved b start, none =>
    (st.requestBytes b.nbytes).toOption.map fun st' =>
      (st', .running b start (burstLogOps b.now.toNat start st.dtail b.pkts))
  | .running b start (op :: todo), none =>
    (st.runOp op).toOption.map fun st' => (st', .running b start todo)
  | .running b start [], none =>
    (st.endBlock start b.cnt).toOption.map fun st' => (st', .idle)
  | _, _ => none

theorem step_of_turn {st : LogStore D} {x : Burster} {call : Option Burst}
    {p : LogStore D × Burster} (h : x.turn st call = some p) : x.Step st p.1 p.2 := by
  cases x with
  | idle =>
    cases call with
    | none => cases h
    | some b =>
      obtain ⟨olog, holog, rfl⟩ := Option.map_eq_some_iff.mp h
      exact .reserve b olog (ok_of_toOption holog)
  | reserved b start =>
    cases call with
    | none =>
      obtain ⟨st', hst, rfl⟩ := Option.map_eq_some_iff.mp h
      exact .place b start st' (ok_of_toOption hst)
    | some b' => cases h
  | running b start todo =>
    cases call with
    | none =>
      cases todo with
      | nil =>
        obtain ⟨st', hst, rfl⟩ := Option.map_eq_some_iff.mp h
        exact .finish b start st' (ok_of_toOption hst)
      | cons op todo =>
        obtain ⟨st', hst, rfl⟩ := Option.map_eq_some_iff.mp h
        exact .run b start op todo st' (ok_of_toOption hst)
    | some b' => cases todo <;> cases h

end Burster

namespace Caller

variable {D : Type} [Datalog D]

/-- The caller begins an insertion of its kind, or goes on with its call by one step. -/
def turn (st : LogStore D) : Caller → Option Insertable → Option (LogStore D × Caller)
  | .store x, some (.record r) => (x.turn st (some r)).map fun p => (p.1, .store p.2.1)
  | .store x, none => (x.turn st none).map fun p => (p.1, .store p.2.1)
  | .handle x, some (.record r) => (x.turn st (some r)).map fun p => (p.1, .handle p.2)
  | .handle x, none => (x.turn st none).map fun p => (p.1, .handle p.2)
  | .burst x, some (.burst b) => (x.turn st (some b)).map fun p => (p.1, .burst p.2)
  | .burst x, none => (x.turn st none).map fun p => (p.1, .burst p.2)
  | _, _ => none

theorem step_of_turn {st : LogStore D} {x : Caller} {call : Option Insertable}
    {p : LogStore D × Caller} (h : x.turn st call = some p) : x.Step st p.1 p.2 := by
  unfold turn at h
  split at h
  · obtain ⟨q, hq, rfl⟩ := Option.map_eq_some_iff.mp h
    exact .store _ _ _ _ (Inserter.step_of_turn hq)
  · obtain ⟨q, hq, rfl⟩ := Option.map_eq_some_iff.mp h
    exact .store _ _ _ _ (Inserter.step_of_turn hq)
  · obtain ⟨q, hq, rfl⟩ := Option.map_eq_some_iff.mp h
    exact .handle _ _ _ (HandleUser.step_of_turn hq)
  · obtain ⟨q, hq, rfl⟩ := Option.map_eq_some_iff.mp h
    exact .handle _ _ _ (HandleUser.step_of_turn hq)
  · obtain ⟨q, hq, rfl⟩ := Option.map_eq_some_iff.mp h
    exact .burst _ _ _ (Burster.step_of_turn hq)
  · obtain ⟨q, hq, rfl⟩ := Option.map_eq_some_iff.mp h
    exact .burst _ _ _ (Burster.step_of_turn hq)
  · cases h

end Caller

namespace Callers

variable {D ω : Type} [Datalog D] [DecidableEq ω]

def turn (s : Callers D ω) (t : ω × Option Insertable) : Option (Callers D ω) :=
  ((s.callers t.1).turn s.store t.2).map fun p => ⟨p.1, Function.update s.callers t.1 p.2⟩

theorem step_of_turn (s : Callers D ω) (t : ω × Option Insertable) (s' : Callers D ω)
    (h : s.turn t = some s') : Step s s' := by
  obtain ⟨p, hp, rfl⟩ := Option.map_eq_some_iff.mp h
  exact .step s t.1 _ _ _ rfl (Caller.step_of_turn hp)

/-- A handle that takes two ids, a thread in `log_store::insert` and one in `insert_pktburst`. -/
def threeRoles (w : Fin 3) : Role :=
  if w = 0 then .handle 2 64 else if w = 1 then .store else .burst

/-- Their insertions race; the ids are ended in their order. -/
def threeKinds : List (Fin 3 × Option Insertable) :=
  [(0, some (.record .oneByte)), (1, some (.record .oneByte)), (1, none),
    (2, some (.burst ⟨7, [⟨fun _ => 0, 20⟩]⟩)), (2, none), (0, none), (1, none), (2, none),
    (0, none), (1, none), (2, none), (0, none), (1, none), (0, none), (0, none),
    (0, some (.record .oneByte)), (0, none), (0, none), (0, none), (0, none), (0, none),
    (1, none), (2, none)]

/-- When all have returned, four records can be fetched, and nothing else. -/
theorem fetchesRecords_threeKinds : ∃ s : Callers FlatLog (Fin 3),
    Reached (fun _ => []) threeRoles s ∧ s.store.numRecords = 4 ∧ s.FetchesRecords := by
  obtain ⟨s, hs, hsee⟩ := Schedule.exists_run step_of_turn threeKinds
    (by decide +kernel : (Schedule.after turn (init (fun _ => []) threeRoles :
      Callers FlatLog (Fin 3)) threeKinds).map (fun s => (s.store.numRecords,
        (List.finRange 3).all fun w => (s.pending w).all fun b => b.count = 0)) =
      some (4, true))
  obtain ⟨hread, hnone⟩ := Prod.mk.inj hsee
  refine ⟨s, hs, hread, (fetchesRecords_iff (fun w n m h => ?_) hs).mpr fun w b hb => ?_⟩
  · rw [threeRoles] at h
    split at h
    · cases h
      decide
    · split at h <;> cases h
  · have hall := List.all_eq_true.mp hnone w (List.mem_finRange w)
    rw [hb] at hall
    exact of_decide_eq_true hall

/-- A handle that takes two ids inserts one record. -/
def oneOfTwo : List (Unit × Option Insertable) :=
  ((), some (.record .oneByte)) :: List.replicate 5 ((), none)

/-- A handle that takes two ids has ended one record, no call is in flight, and the
other id is fetched. -/
theorem fetches_reserved : ∃ s : Callers FlatLog Unit,
    Reached (fun _ => []) (fun _ => .handle 2 64) s ∧ s.store.numRecords = 1 ∧
      (s.store.get 0 1).isSome ∧ ¬ s.FetchesRecords := by
  obtain ⟨s, hs, hsee⟩ := Schedule.exists_run step_of_turn oneOfTwo
    (by decide +kernel : (Schedule.after turn (init (fun _ => []) fun _ => .handle 2 64 :
      Callers FlatLog Unit) oneOfTwo).map (fun s => (s.store.numRecords,
        (s.store.get 0 1).isSome)) = some (1, true))
  obtain ⟨hread, hget⟩ := Prod.mk.inj hsee
  refine ⟨s, hs, hread, hget, fun hf => ?_⟩
  have hlt := ((hf 0 1).1).mp hget
  rw [hread] at hlt
  exact Nat.lt_irrefl 1 hlt

end Callers

end Netplay
