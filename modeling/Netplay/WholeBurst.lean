import Netplay.PacketStore
import Netplay.Schedule

/-!
# A burst by itself

`insert_pktburst` from its first to its last step without another writer in
between, as a function on stores, and the run of atomic steps that it is. Writers
that take turns in a given order.
-/

namespace Netplay

open Packet NetplayUtils

namespace Store

/-- The loop of `push_back_range` over the `n` entries from `i` on. -/
def storeFrom (st : Store) (a : Append) (idx : Nat) : Nat → Nat → Store
  | _, 0 => st
  | i, n + 1 =>
    storeFrom ((st.updateList a.key (·.allocate (idx + i))).updateList a.key
      (·.store (idx + i) (a.first + i))) a idx (i + 1) n

/-- A whole append: `get` of the list, `fetch_add` and the stores. -/
def runAppend (st : Store) (a : Append) : Store :=
  storeFrom ((st.updateList a.key .create).updateList a.key (·.reserve a)) a
    (st.lists a.key).tail 0 a.count

/-- A whole operation of a burst. -/
def runOp (st : Store) : Op → Store
  | .append a => st.runAppend a
  | .character c second id pkt =>
    if (st.filters c).any (·.applyPkt pkt) then st.runAppend ⟨.character second c, id, 1⟩ else st
  | op => (st.stepOp op).1

def runOps (st : Store) (ops : List Op) : Store := ops.foldl runOp st

/-- `insert_pktburst` by itself up to the loop in `end`. -/
def burstBody (st : Store) (b : Burst) : Store :=
  runOps ((st.requestIdBlock b.cnt).requestBytes b.nbytes)
    (burstOps b st.writeId st.dtail st.numFilters)

/-- `insert_pktburst` by itself; `none` where it is undefined or its loop in
`end` does not leave. -/
def insertPktburst (st : Store) (b : Burst) : Option Store :=
  if (st.dtail + b.nbytes) / blockSize < numBlocks ∧ (st.burstBody b).readId = st.writeId then
    some ((st.burstBody b).endBlock st.writeId b.cnt)
  else none

/-- Only the lists differ, or the two logs. -/
structure SameIds (st st' : Store) : Prop where
  readId : st'.readId = st.readId
  writeId : st'.writeId = st.writeId
  numFilters : st'.numFilters = st.numFilters
  filters : st'.filters = st.filters

theorem SameIds.trans {st st' st'' : Store} (h : SameIds st st') (h' : SameIds st' st'') :
    SameIds st st'' :=
  ⟨h'.readId.trans h.readId, h'.writeId.trans h.writeId, h'.numFilters.trans h.numFilters,
    h'.filters.trans h.filters⟩

theorem stepAppend_sameIds (st : Store) (a : Appending) : SameIds st (st.stepAppend a).1 := by
  cases a <;> exact ⟨rfl, rfl, rfl, rfl⟩

theorem stepOp_sameIds (st : Store) (op : Op) : SameIds st (st.stepOp op).1 := by
  cases op <;> exact ⟨rfl, rfl, rfl, rfl⟩

theorem storeFrom_sameIds (a : Append) (idx n : Nat) : ∀ (st : Store) (i : Nat),
    SameIds st (st.storeFrom a idx i n) := by
  induction n with
  | zero => exact fun _ _ => ⟨rfl, rfl, rfl, rfl⟩
  | succ n ih =>
    intro st i
    exact ((st.stepAppend_sameIds (.allocate a idx i)).trans
      (Store.stepAppend_sameIds _ (.store a idx i))).trans (ih _ (i + 1))

theorem runAppend_sameIds (st : Store) (a : Append) : SameIds st (st.runAppend a) :=
  ((st.stepAppend_sameIds (.get a)).trans (Store.stepAppend_sameIds _ (.reserve a))).trans
    (storeFrom_sameIds a _ _ _ _)

theorem runOp_sameIds (st : Store) (op : Op) : SameIds st (st.runOp op) := by
  cases op with
  | append a => exact st.runAppend_sameIds a
  | character c second id pkt =>
    rw [runOp]
    split
    · exact st.runAppend_sameIds _
    · exact ⟨rfl, rfl, rfl, rfl⟩
  | setOfflen id offset length => exact st.stepOp_sameIds (.setOfflen id offset length)
  | appendPkt offset ts pkt len => exact st.stepOp_sameIds (.appendPkt offset ts pkt len)

theorem runOps_sameIds (ops : List Op) : ∀ st : Store, SameIds st (st.runOps ops) := by
  induction ops with
  | nil => exact fun _ => ⟨rfl, rfl, rfl, rfl⟩
  | cons op ops ih => exact fun st => (st.runOp_sameIds op).trans (ih _)

theorem burstBody_readId (st : Store) (b : Burst) : (st.burstBody b).readId = st.readId :=
  (runOps_sameIds _ _).readId

/-- By itself, with nothing in flight, a burst completes where the data log has room. -/
theorem insertPktburst_eq (st : Store) (b : Burst) (hq : st.readId = st.writeId)
    (hcap : (st.dtail + b.nbytes) / blockSize < numBlocks) :
    st.insertPktburst b = some ((st.burstBody b).endBlock st.writeId b.cnt) :=
  if_pos ⟨hcap, (burstBody_readId st b).trans hq⟩

end Store

namespace System

variable {ω : Type} [DecidableEq ω]

/-- The system with another store and another state of writer `w`. -/
def put (s : System ω) (w : ω) (st : Store) (x : Writer) : System ω :=
  { s with store := st, writers := Function.update s.writers w x }

@[simp] theorem put_store (s : System ω) (w : ω) (st : Store) (x : Writer) :
    (s.put w st x).store = st := rfl
@[simp] theorem put_writers (s : System ω) (w : ω) (st : Store) (x : Writer) :
    (s.put w st x).writers w = x := by simp [put]
@[simp] theorem put_other (s : System ω) {w v : ω} (h : v ≠ w) (st : Store) (x : Writer) :
    (s.put w st x).writers v = s.writers v := by simp [put, h]
@[simp] theorem put_ended (s : System ω) (w : ω) (st : Store) (x : Writer) :
    (s.put w st x).ended = s.ended := rfl
@[simp] theorem put_put (s : System ω) (w : ω) (st st' : Store) (x x' : Writer) :
    (s.put w st x).put w st' x' = s.put w st' x' := by simp [put]

theorem put_self (s : System ω) (w : ω) : s.put w s.store (s.writers w) = s := by
  simp [put, Function.update_eq_self]

theorem step_put (s : System ω) {w : ω} {st st' : Store} {x x' : Writer}
    (h : x.step st = some (st', x')) : Step (s.put w st x) (s.put w st' x') := by
  have := Step.run (s.put w st x) w st' x' (by simpa using h)
  simpa [put] using this

/-- The stores of an append, run to its end. -/
theorem storeFrom_run (s : System ω) (w : ω) (b : Burst) (start offset k : Nat) (todo : List Op)
    (a : Append) (idx : Nat) (n : Nat) : ∀ (st : Store) (i : Nat), i + n = a.count →
    Relation.ReflTransGen Step
      (s.put w st (.running b start offset k (a.entry idx i) todo))
      (s.put w (st.storeFrom a idx i n) (.running b start offset k none todo)) := by
  induction n with
  | zero =>
    intro st i hi
    rw [Append.entry, if_neg (by omega)]
    exact .refl
  | succ n ih =>
    intro st i hi
    rw [Append.entry, if_pos (by omega)]
    exact .head (step_put s rfl) (.head (step_put s rfl) (ih _ (i + 1) (by omega)))

theorem runAppend_run (s : System ω) (w : ω) (b : Burst) (start offset k : Nat) (todo : List Op)
    (a : Append) (st : Store) :
    Relation.ReflTransGen Step
      (s.put w st (.running b start offset k (some (.get a)) todo))
      (s.put w (st.runAppend a) (.running b start offset k none todo)) := by
  refine .head (step_put s rfl) (.head (step_put s rfl) ?_)
  have htail : ((st.updateList a.key .create).lists a.key).tail = (st.lists a.key).tail := by
    rw [Store.updateList_self]
    rfl
  rw [htail]
  exact storeFrom_run s w b start offset k todo a _ a.count _ 0 (Nat.zero_add _)

theorem runOp_run (s : System ω) (w : ω) (b : Burst) (start offset k : Nat) (todo : List Op)
    (op : Op) (st : Store) :
    Relation.ReflTransGen Step
      (s.put w st (.running b start offset k none (op :: todo)))
      (s.put w (st.runOp op) (.running b start offset k none todo)) := by
  cases op with
  | append a => exact .head (step_put s rfl) (runAppend_run s w b start offset k todo a st)
  | setOfflen id off length => exact .single (step_put s rfl)
  | appendPkt off ts pkt len => exact .single (step_put s rfl)
  | character c second id pkt =>
    refine .head (step_put s rfl) ?_
    simp only [Store.runOp]
    split
    · exact runAppend_run s w b start offset k todo _ st
    · exact .refl

theorem runOps_run (s : System ω) (w : ω) (b : Burst) (start offset k : Nat) (todo : List Op) :
    ∀ st : Store, Relation.ReflTransGen Step
      (s.put w st (.running b start offset k none todo))
      (s.put w (st.runOps todo) (.running b start offset k none [])) := by
  induction todo with
  | nil => exact fun st => .refl
  | cons op todo ih => exact fun st => (runOp_run s w b start offset k todo op st).trans (ih _)

/-- A writer that has its ids runs up to its `end`, if the data log has room. -/
theorem reserved_run (s : System ω) {w : ω} {b : Burst} {start : Nat}
    (hw : s.writers w = .reserved b start)
    (hcap : (s.store.dtail + b.nbytes) / blockSize < numBlocks) :
    Relation.ReflTransGen Step s
      (s.put w
        (Store.runOps (s.store.requestBytes b.nbytes)
          (burstOps b start s.store.dtail s.store.numFilters))
        (.running b start s.store.dtail s.store.numFilters none [])) := by
  have h1 : (s.writers w).step s.store = some (s.store.requestBytes b.nbytes,
      .located b start s.store.dtail) := by
    rw [hw]
    exact if_pos hcap
  have h2 := step_put s (w := w) h1
  rw [put_self] at h2
  refine .head h2 (.head (step_put s rfl) ?_)
  exact runOps_run s w b start s.store.dtail s.store.numFilters _ _

/-- A call by itself runs up to its `end`, if the data log has room. -/
theorem burstBody_run (s : System ω) {w : ω} (b : Burst) (hw : s.writers w = .idle)
    (hcap : (s.store.dtail + b.nbytes) / blockSize < numBlocks) :
    Relation.ReflTransGen Step s (s.put w (s.store.burstBody b)
      (.running b s.store.writeId s.store.dtail s.store.numFilters none [])) := by
  have hreq : Step s (s.put w (s.store.requestIdBlock b.cnt) (.reserved b s.store.writeId)) :=
    Step.request s w b hw
  have hrun := reserved_run (s.put w (s.store.requestIdBlock b.cnt) (.reserved b s.store.writeId))
    (put_writers s w _ _) hcap
  rw [put_put] at hrun
  exact .head hreq hrun

/-- A burst by itself is a run of the system. -/
theorem insertPktburst_run (s : System ω) {w : ω} {b : Burst} {st : Store}
    (hw : s.writers w = .idle) (h : s.store.insertPktburst b = some st) :
    Relation.ReflTransGen Step s
      ⟨st, s.writers, s.ended ++ [⟨b, s.store.writeId, s.store.dtail, s.store.numFilters⟩]⟩ := by
  simp only [Store.insertPktburst] at h
  split at h
  · next hcond =>
    cases h
    have hpub := Step.publish
      (s.put w (s.store.burstBody b)
        (.running b s.store.writeId s.store.dtail s.store.numFilters none []))
      w b _ _ _ (put_writers s w _ _) hcond.2
    have hidle : Function.update s.writers w .idle = s.writers := by
      rw [← hw, Function.update_eq_self]
    refine (burstBody_run s b hw hcond.1).tail ?_
    simpa [put, hidle] using hpub
  · cases h

/-! ## Writers that take turns -/

/-- What a writer does in its turn: it begins a call, or it goes on with its call by one step. -/
inductive Turn (ω : Type) where
  | call : ω → Burst → Turn ω
  | goOn : ω → Turn ω

/-- The state after the turn. A writer at its `end` waits for the ids below its own. -/
def turn (s : System ω) : Turn ω → Option (System ω)
  | .call w b => match s.writers w with
    | .idle => some (s.put w (s.store.requestIdBlock b.cnt) (.reserved b s.store.writeId))
    | _ => none
  | .goOn w => match s.writers w with
    | .running b start offset n none [] =>
      if s.store.readId = start then
        some { s.put w (s.store.endBlock start b.cnt) .idle with
          ended := s.ended ++ [⟨b, start, offset, n⟩] }
      else none
    | x => (x.step s.store).map fun next => s.put w next.1 next.2

theorem step_of_turn (s : System ω) (t : Turn ω) (s' : System ω) (h : s.turn t = some s') :
    Step s s' := by
  cases t with
  | call w b =>
    simp only [turn] at h
    split at h
    · next hw =>
      cases h
      exact .request s w b hw
    · cases h
  | goOn w =>
    simp only [turn] at h
    split at h
    · next b start offset n hw =>
      split at h
      · next hr =>
        cases h
        exact .publish s w b start offset n hw hr
      · cases h
    · obtain ⟨next, hnext, rfl⟩ := Option.map_eq_some_iff.mp h
      exact .run s w next.1 next.2 hnext

/-- Two writers by turns, `n` steps each. -/
def byTurns (w w' : ω) (n : Nat) : List (Turn ω) :=
  (List.replicate n [.goOn w, .goOn w']).flatten

/-- The writer is not in a call. -/
def rests (s : System ω) (w : ω) : Bool :=
  match s.writers w with
  | .idle => true
  | _ => false

omit [DecidableEq ω] in
theorem idle_of_rests {s : System ω} {w : ω} (h : s.rests w = true) : s.writers w = .idle := by
  rw [rests] at h
  split at h
  · assumption
  · cases h

theorem quiescent_of_rests {s : System Bool} (h : (s.rests false && s.rests true) = true) :
    s.Quiescent := by
  rw [Bool.and_eq_true] at h
  intro w
  cases w with
  | false => exact idle_of_rests h.1
  | true => exact idle_of_rests h.2

end System

end Netplay
