import Netplay.Published

/-!
# Writers that poll their ports

A daemon runs `netplay_writer::start` on each of its cores: `recv_pkts` on the virtual port of the
writer, `insert_pktburst` of what it has returned, `rec_pkts_ += recv`, without end. The queue behind
a port is a ring. What `rte_eth_rx_burst` does to it is a parameter, and so is the clock that
`insert_pktburst` reads, which may be set back.
-/

namespace Netplay

/-- `BATCH_SIZE`. -/
def batchSize : Nat := 32

/-- `vport_` of each writer, and `rte_eth_rx_burst`, which `recv_pkts` calls: what it can take off a
queue in one step, and what it leaves there. It is assumed that it takes at the front, no more than
is asked for, and in one step also where several writers poll one port. -/
structure Ports (ω π : Type) where
  vport : ω → π
  rxBurst : (ring pkts rest : List Mbuf) → Prop
  fifo : ∀ ring pkts rest, rxBurst ring pkts rest → pkts ++ rest = ring ∧ pkts.length ≤ batchSize

/-- Any receive that the assumption allows. -/
def Ports.ofVport {ω π : Type} (vport : ω → π) : Ports ω π where
  vport := vport
  rxBurst ring pkts rest := pkts ++ rest = ring ∧ pkts.length ≤ batchSize
  fifo _ _ _ h := h

/-- Where a writer stands in its loop. In `insert_pktburst` it has first read the clock, and then
follows the steps of its burst. -/
inductive Loop where
  | polling : Loop
  | received : List Mbuf → Loop
  | stamped : Burst → Loop
  | inserting : Burst → Loop
  | returned : (recv : Nat) → Loop

namespace Loop

/-- The packets that the writer has received and not yet published. -/
def held : Loop → List Mbuf
  | .received pkts => pkts
  | .stamped b => b.pkts
  | .inserting b => b.pkts
  | _ => []

/-- The burst of the call, once the clock is read. -/
def burst : Loop → Option Burst
  | .stamped b => some b
  | .inserting b => some b
  | _ => none

/-- The burst whose ids are reserved. -/
def call : Loop → Option Burst
  | .inserting b => some b
  | _ => none

/-- The packets published and not yet added to `rec_pkts_`. -/
def uncounted : Loop → Nat
  | .returned recv => recv
  | _ => 0

end Loop

/-- The burst that a writer of the store is inserting. -/
def Writer.burst : Writer → Option Burst
  | .idle => none
  | .reserved b _ => some b
  | .located b _ _ => some b
  | .running b _ _ _ _ _ => some b

/-- Between its reservation and its `end` a writer stays with its burst. -/
theorem Writer.step_burst {st st' : Store} {x x' : Writer} (h : x.step st = some (st', x')) :
    x'.burst = x.burst := by
  rcases Writer.step_cases h with ⟨b, start, rfl, -, rfl, rfl⟩ | ⟨b, start, offset, rfl, rfl, rfl⟩ |
    ⟨b, start, offset, n, a, todo, rfl, rfl, rfl⟩ | ⟨b, start, offset, n, op, todo, rfl, rfl, rfl⟩
  all_goals rfl

namespace Writer

/-- A step of a writer by itself, with the store before and after it. -/
def Steps (p q : Store × Writer) : Prop := p.2.step p.1 = some q

theorem steps_ids {p q : Store × Writer} (h : Relation.ReflTransGen Steps p q) :
    Store.SameIds p.1 q.1 ∧ q.2.block = p.2.block ∧ q.2.burst = p.2.burst := by
  induction h with
  | refl => exact ⟨⟨rfl, rfl, rfl, rfl⟩, rfl, rfl⟩
  | tail _ hs ih =>
    obtain ⟨hids, hblock, -⟩ := step_ids hs
    exact ⟨ih.1.trans hids, hblock.trans ih.2.1, (step_burst hs).trans ih.2.2⟩

/-- The entries that are left of an append get their stores. -/
theorem entry_steps (b : Burst) (start offset n : Nat) (todo : List Op) (a : Append) (idx left : Nat) :
    ∀ (st : Store) (i : Nat), a.count ≤ i + left → ∃ st', Relation.ReflTransGen Steps
      (st, .running b start offset n (a.entry idx i) todo)
      (st', .running b start offset n none todo) := by
  induction left with
  | zero =>
    intro st i hi
    rw [Append.entry, if_neg (by omega)]
    exact ⟨st, .refl⟩
  | succ left ih =>
    intro st i hi
    by_cases hlt : i < a.count
    · rw [Append.entry, if_pos hlt]
      obtain ⟨st', hrun⟩ := ih _ (i + 1) (by omega)
      exact ⟨st', .head rfl (.head rfl hrun)⟩
    · rw [Append.entry, if_neg hlt]
      exact ⟨st, .refl⟩

theorem append_steps (b : Burst) (start offset n : Nat) (todo : List Op) (cur : Option Appending)
    (st : Store) : ∃ st', Relation.ReflTransGen Steps
      (st, .running b start offset n cur todo) (st', .running b start offset n none todo) := by
  have hentry : ∀ (st : Store) (a : Append) (idx i : Nat), ∃ st', Relation.ReflTransGen Steps
      (st, .running b start offset n (a.entry idx i) todo)
      (st', .running b start offset n none todo) :=
    fun st a idx i => entry_steps b start offset n todo a idx a.count st i (by omega)
  cases cur with
  | none => exact ⟨st, .refl⟩
  | some c =>
    cases c with
    | get a =>
      obtain ⟨st', hrun⟩ := hentry ((st.updateList a.key .create).updateList a.key (·.reserve a)) a
        ((st.updateList a.key .create).lists a.key).tail 0
      exact ⟨st', .head rfl (.head rfl hrun)⟩
    | reserve a =>
      obtain ⟨st', hrun⟩ := hentry (st.updateList a.key (·.reserve a)) a (st.lists a.key).tail 0
      exact ⟨st', .head rfl hrun⟩
    | allocate a idx i =>
      obtain ⟨st', hrun⟩ := hentry ((st.updateList a.key (·.allocate (idx + i))).updateList a.key
        (·.store (idx + i) (a.first + i))) a idx (i + 1)
      exact ⟨st', .head rfl (.head rfl hrun)⟩
    | store a idx i =>
      obtain ⟨st', hrun⟩ := hentry (st.updateList a.key (·.store (idx + i) (a.first + i))) a idx (i + 1)
      exact ⟨st', .head rfl hrun⟩

theorem ops_steps (b : Burst) (start offset n : Nat) (todo : List Op) :
    ∀ (cur : Option Appending) (st : Store), ∃ st', Relation.ReflTransGen Steps
      (st, .running b start offset n cur todo) (st', .running b start offset n none []) := by
  induction todo with
  | nil => exact fun cur st => append_steps b start offset n [] cur st
  | cons op todo ih =>
    intro cur st
    obtain ⟨st₁, h₁⟩ := append_steps b start offset n (op :: todo) cur st
    obtain ⟨st₂, h₂⟩ := ih (st₁.stepOp op).2 (st₁.stepOp op).1
    exact ⟨st₂, h₁.trans (.head rfl h₂)⟩

/-- A writer that has its ids gets by itself to its `end`, unless the data log has no room. -/
theorem steps_end {x : Writer} {b : Burst} (hx : x.burst = some b) (st : Store) :
    numBlocks ≤ (st.dtail + b.nbytes) / blockSize ∨ ∃ st' start offset n,
      Relation.ReflTransGen Steps (st, x) (st', .running b start offset n none []) := by
  have hlocated : ∀ (st : Store) start offset, ∃ st', Relation.ReflTransGen Steps
      (st, .located b start offset) (st', .running b start offset st.numFilters none []) := by
    intro st start offset
    obtain ⟨st', hrun⟩ := ops_steps b start offset st.numFilters
      (burstOps b start offset st.numFilters) none st
    exact ⟨st', .head rfl hrun⟩
  cases x with
  | idle => cases hx
  | reserved b' start =>
    cases hx
    by_cases hroom : (st.dtail + b.nbytes) / blockSize < numBlocks
    · obtain ⟨st', hrun⟩ := hlocated (st.requestBytes b.nbytes) start st.dtail
      exact .inr ⟨st', start, _, _, .head (if_pos hroom) hrun⟩
    · exact .inl (Nat.le_of_not_lt hroom)
  | located b' start offset =>
    cases hx
    obtain ⟨st', hrun⟩ := hlocated st start offset
    exact .inr ⟨st', start, _, _, hrun⟩
  | running b' start offset n cur todo =>
    cases hx
    obtain ⟨st', hrun⟩ := ops_steps b start offset n todo cur st
    exact .inr ⟨st', start, _, _, hrun⟩

end Writer

/-- The store with its writers, the clock, the rings of the ports, and the loops; for the record,
what has arrived at each port, each packet received with its writer, and each call that has ended. -/
structure Daemon (ω π : Type) where
  system : System ω
  clock : UInt32
  rings : π → List Mbuf
  loops : ω → Loop
  recPkts : ω → Nat
  arrived : π → List Mbuf
  polls : List (ω × Mbuf)
  calls : List (ω × Ended)

namespace Daemon

variable {ω π : Type} [DecidableEq ω] [DecidableEq π]

def init (numFilters : Nat) (filters : Nat → List PacketFilter) (clock : UInt32) : Daemon ω π :=
  ⟨.init numFilters filters, clock, fun _ => [], fun _ => .polling, fun _ => 0, fun _ => [], [], []⟩

/-- One step of the switch behind a port, of the clock, or of a writer. -/
inductive Step (ports : Ports ω π) : Daemon ω π → Daemon ω π → Prop where
  | arrive (d : Daemon ω π) (p : π) (m : Mbuf) :
      Step ports d
        { d with
          rings := Function.update d.rings p (d.rings p ++ [m])
          arrived := Function.update d.arrived p (d.arrived p ++ [m]) }
  | tick (d : Daemon ω π) (now : UInt32) : Step ports d { d with clock := now }
  | receive (d : Daemon ω π) (w : ω) (pkts rest : List Mbuf) (hw : d.loops w = .polling)
      (h : ports.rxBurst (d.rings (ports.vport w)) pkts rest) :
      Step ports d
        { d with
          rings := Function.update d.rings (ports.vport w) rest
          loops := Function.update d.loops w (.received pkts)
          polls := d.polls ++ pkts.map fun m => (w, m) }
  | stamp (d : Daemon ω π) (w : ω) (pkts : List Mbuf) (hw : d.loops w = .received pkts) :
      Step ports d { d with loops := Function.update d.loops w (.stamped ⟨d.clock, pkts⟩) }
  | request (d : Daemon ω π) (w : ω) (b : Burst) (hw : d.loops w = .stamped b)
      (hi : d.system.writers w = .idle) :
      Step ports d
        { d with
          system := { d.system with
            store := d.system.store.requestIdBlock b.cnt
            writers := Function.update d.system.writers w (.reserved b d.system.store.writeId) }
          loops := Function.update d.loops w (.inserting b) }
  | run (d : Daemon ω π) (w : ω) (st : Store) (x : Writer)
      (hw : (d.system.writers w).step d.system.store = some (st, x)) :
      Step ports d
        { d with
          system := { d.system with
            store := st, writers := Function.update d.system.writers w x } }
  | publish (d : Daemon ω π) (w : ω) (b : Burst) (start offset n : Nat)
      (hw : d.system.writers w = .running b start offset n none [])
      (hr : d.system.store.readId = start) :
      Step ports d
        { d with
          system :=
            { store := d.system.store.endBlock start b.cnt
              writers := Function.update d.system.writers w .idle
              ended := d.system.ended ++ [⟨b, start, offset, n⟩] }
          loops := Function.update d.loops w (.returned b.cnt)
          calls := d.calls ++ [(w, ⟨b, start, offset, n⟩)] }
  | count (d : Daemon ω π) (w : ω) (recv : Nat) (hw : d.loops w = .returned recv) :
      Step ports d
        { d with
          loops := Function.update d.loops w .polling
          recPkts := Function.update d.recPkts w (d.recPkts w + recv) }

/-- The states of a daemon that starts with the given characters at the given second. -/
def Reached (ports : Ports ω π) (numFilters : Nat) (filters : Nat → List PacketFilter) (clock : UInt32)
    (d : Daemon ω π) : Prop :=
  Relation.ReflTransGen (Step ports) (init numFilters filters clock) d

/-- The states that it reaches when the clock does not go back. -/
def Forward (ports : Ports ω π) (numFilters : Nat) (filters : Nat → List PacketFilter)
    (clock : UInt32) (d : Daemon ω π) : Prop :=
  Relation.ReflTransGen (fun d d' => Step ports d d' ∧ d.clock ≤ d'.clock)
    (init numFilters filters clock) d

/-- The packets that a writer has received, in order. -/
def received (d : Daemon ω π) (w : ω) : List Mbuf :=
  (d.polls.filter fun x => x.1 = w).map Prod.snd

/-- The packets that any writer has received from a port, in order. -/
def taken (ports : Ports ω π) (d : Daemon ω π) (p : π) : List Mbuf :=
  (d.polls.filter fun x => ports.vport x.1 = p).map Prod.snd

/-- The calls of a writer that have ended, in order. -/
def inserted (d : Daemon ω π) (w : ω) : List Ended :=
  (d.calls.filter fun x => x.1 = w).map Prod.snd

/-- What a step of the daemon is for the store. -/
theorem step_system {ports : Ports ω π} {d d' : Daemon ω π} (h : Step ports d d') :
    d'.system = d.system ∨ System.Step d.system d'.system := by
  cases h with
  | arrive p m => exact .inl rfl
  | tick now => exact .inl rfl
  | receive w pkts rest hw h => exact .inl rfl
  | stamp w pkts hw => exact .inl rfl
  | request w b hw hi => exact .inr (.request d.system w b hi)
  | run w st x hw => exact .inr (.run d.system w st x hw)
  | publish w b start offset n hw hr => exact .inr (.publish d.system w b start offset n hw hr)
  | count w recv hw => exact .inl rfl

variable {ports : Ports ω π} {numFilters : Nat} {filters : Nat → List PacketFilter} {clock : UInt32}

theorem run_system {d d' : Daemon ω π} (h : Relation.ReflTransGen (Step ports) d d') :
    Relation.ReflTransGen System.Step d.system d'.system := by
  induction h with
  | refl => exact .refl
  | tail _ hs ih =>
    rcases step_system hs with heq | hstep
    · rw [heq]
      exact ih
    · exact ih.tail hstep

theorem Forward.reached {d : Daemon ω π} (h : Forward ports numFilters filters clock d) :
    Reached ports numFilters filters clock d :=
  Relation.ReflTransGen.mono (fun _ _ hs => hs.1) _ _ h

/-- The store of a daemon is the store of writers that only insert bursts. -/
theorem reached_system {d : Daemon ω π} (h : Reached ports numFilters filters clock d) :
    System.Reached numFilters filters d.system := run_system h

/-! ## The calls and the bursts -/

/-- Each loop agrees with its writer in the store about the burst in flight, and the calls that have
ended are the bursts that have ended. -/
structure Agrees (d : Daemon ω π) : Prop where
  call : ∀ w, (d.system.writers w).burst = (d.loops w).call
  ended : d.calls.map Prod.snd = d.system.ended

omit [DecidableEq ω] [DecidableEq π] in
theorem agrees_init : Agrees (init numFilters filters clock : Daemon ω π) := ⟨fun _ => rfl, rfl⟩

omit [DecidableEq π] in
/-- A loop that goes on outside of a call. -/
theorem agrees_turn {d : Daemon ω π} (h : Agrees d) {w : ω} {l l' : Loop} (hw : d.loops w = l)
    (hl : l.call = none) (hl' : l'.call = none) (v : ω) :
    (d.system.writers v).burst = (Function.update d.loops w l' v).call := by
  by_cases hv : v = w
  · subst hv
    rw [Function.update_self, hl', h.call, hw, hl]
  · rw [Function.update_of_ne hv]
    exact h.call v

omit [DecidableEq π] in
/-- A call that begins or ends. -/
theorem agrees_call {d : Daemon ω π} (h : Agrees d) (w : ω) {x : Writer} {l : Loop}
    (hx : x.burst = l.call) (v : ω) :
    (Function.update d.system.writers w x v).burst = (Function.update d.loops w l v).call := by
  by_cases hv : v = w
  · subst hv
    rw [Function.update_self, Function.update_self, hx]
  · rw [Function.update_of_ne hv, Function.update_of_ne hv]
    exact h.call v

theorem agrees_step {d d' : Daemon ω π} (h : Agrees d) (hs : Step ports d d') : Agrees d' := by
  cases hs with
  | arrive p m => exact ⟨h.call, h.ended⟩
  | tick now => exact ⟨h.call, h.ended⟩
  | receive w pkts rest hw hrx => exact ⟨agrees_turn h hw rfl rfl, h.ended⟩
  | stamp w pkts hw => exact ⟨agrees_turn h hw rfl rfl, h.ended⟩
  | request w b hw hi => exact ⟨agrees_call h w rfl, h.ended⟩
  | run w st x hw =>
    refine ⟨fun v => ?_, h.ended⟩
    by_cases hv : v = w
    · subst hv
      simp only [Function.update_self]
      rw [Writer.step_burst hw]
      exact h.call v
    · simp only [Function.update_of_ne hv]
      exact h.call v
  | publish w b start offset n hw hr =>
    refine ⟨agrees_call h w rfl, ?_⟩
    rw [List.map_append, h.ended]
    rfl
  | count w recv hw => exact ⟨agrees_turn h hw rfl rfl, h.ended⟩

theorem agrees_reached {d : Daemon ω π} (h : Reached ports numFilters filters clock d) : Agrees d := by
  induction h with
  | refl => exact agrees_init
  | tail _ hs ih => exact agrees_step ih hs

omit [DecidableEq ω] [DecidableEq π] in
/-- The loop of a writer whose burst is in flight. -/
theorem Agrees.inserting {d : Daemon ω π} (h : Agrees d) {w : ω} {b : Burst}
    (hw : (d.system.writers w).burst = some b) : d.loops w = .inserting b := by
  have hcall := h.call w
  rw [hw] at hcall
  cases hl : d.loops w with
  | inserting b' =>
    rw [hl] at hcall
    cases hcall
    rfl
  | polling => rw [hl] at hcall; cases hcall
  | received pkts => rw [hl] at hcall; cases hcall
  | stamped b' => rw [hl] at hcall; cases hcall
  | returned recv => rw [hl] at hcall; cases hcall

omit [DecidableEq ω] [DecidableEq π] in
/-- A writer whose loop is not in a call is idle in the store. -/
theorem Agrees.idle {d : Daemon ω π} (h : Agrees d) {w : ω} (hw : (d.loops w).call = none) :
    d.system.writers w = .idle := by
  have hcall := (h.call w).trans hw
  cases hx : d.system.writers w with
  | idle => rfl
  | reserved b start => rw [hx] at hcall; cases hcall
  | located b start offset => rw [hx] at hcall; cases hcall
  | running b start offset n cur todo => rw [hx] at hcall; cases hcall

/-! ## A writer by itself -/

/-- The data log has no block for what the writer holds. -/
def Full (d : Daemon ω π) (w : ω) : Prop :=
  numBlocks ≤ (d.system.store.dtail + Burst.nbytes ⟨d.clock, (d.loops w).held⟩) / blockSize

omit [DecidableEq ω] [DecidableEq π] in
theorem Full.of_held {d d' : Daemon ω π} {w : ω} (h : d'.Full w)
    (hdtail : d'.system.store.dtail = d.system.store.dtail)
    (hheld : (d'.loops w).held = (d.loops w).held) : d.Full w := by
  rw [Full, hdtail, hheld] at h
  exact h

/-- Writer `w` is back at its port; the other loops and the ports are as they were. -/
structure Turned (d d' : Daemon ω π) (w : ω) : Prop where
  loops : d'.loops = Function.update d.loops w .polling
  pending : d'.system.pending = Function.update d.system.pending w none
  arrived : d'.arrived = d.arrived
  polls : d'.polls = d.polls

omit [DecidableEq π] in
theorem Turned.other {d d' : Daemon ω π} {w : ω} (h : Turned d d' w) {v : ω} (hv : v ≠ w) :
    d'.loops v = d.loops v := by
  rw [h.loops, Function.update_of_ne hv]

omit [DecidableEq π] in
theorem update_pending_none (s : System ω) (w : ω) (st : Store) (x : Writer) (es : List Ended) :
    Function.update (System.pending ⟨st, Function.update s.writers w x, es⟩) w none =
      Function.update s.pending w none := by
  rw [System.pending_update, Function.update_idem]

theorem steps_run (ports : Ports ω π) (d : Daemon ω π) (w : ω) {p q : Store × Writer}
    (h : Relation.ReflTransGen Writer.Steps p q) :
    Relation.ReflTransGen (Step ports) { d with system := d.system.put w p.1 p.2 }
      { d with system := d.system.put w q.1 q.2 } := by
  induction h with
  | refl => exact .refl
  | @tail p' q' _ hs ih =>
    have hstep : Step ports _ _ := .run { d with system := d.system.put w p'.1 p'.2 } w q'.1 q'.2
      (by rw [System.put_writers]; exact hs)
    refine ih.tail ?_
    simpa [System.put] using hstep

/-- A call whose ids are next runs to its end by itself, unless the data log is full. -/
theorem call_run (ports : Ports ω π) {d : Daemon ω π} {w : ω} {b : Burst}
    (hloop : d.loops w = .inserting b) (hw : (d.system.writers w).burst = some b)
    (hnext : d.system.pending w = some ⟨d.system.store.readId, b.cnt⟩) :
    d.Full w ∨
      ∃ d', Relation.ReflTransGen (Step ports) d d' ∧ Turned d d' w ∧
        d'.system.store.readId = d.system.store.readId + b.cnt ∧
        d'.system.store.writeId = d.system.store.writeId := by
  rcases Writer.steps_end hw d.system.store with hfull | ⟨st, start, offset, n, hrun⟩
  · refine .inl ?_
    rw [Full, hloop]
    exact hfull
  · obtain ⟨hids, hblock, -⟩ := Writer.steps_ids hrun
    have hstart : start = d.system.store.readId := by
      have heq := hblock.trans hnext
      simp only [Writer.block, Option.some.injEq, Block.mk.injEq] at heq
      exact heq.1
    subst hstart
    have hsteps := steps_run ports d w hrun
    rw [System.put_self] at hsteps
    have hpub : Step ports _ _ := .publish
      { d with system := d.system.put w st (.running b d.system.store.readId offset n none []) } w b
      d.system.store.readId offset n (System.put_writers _ _ _ _) hids.readId
    refine .inr ⟨_, (hsteps.tail hpub).tail (.count _ w b.cnt (Function.update_self ..)),
      ⟨?_, ?_, rfl, rfl⟩, rfl, hids.writeId⟩
    · exact Function.update_idem ..
    · rw [System.pending_update]
      exact update_pending_none d.system w _ _ _

/-- With no call in flight a writer runs back to its port by itself, unless the data log is full. -/
theorem turn_run (ports : Ports ω π) {d : Daemon ω π} (ha : Agrees d) (hids : System.IdsTiled d.system)
    (hquiet : ∀ v, d.system.writers v = .idle) (w : ω) :
    d.Full w ∨ ∃ d', Relation.ReflTransGen (Step ports) d d' ∧ Turned d d' w := by
  have hnone : ∀ v, d.system.pending v = none := fun v => by rw [System.pending, hquiet]; rfl
  have hsame : Function.update d.system.pending w none = d.system.pending :=
    System.update_pending_self (hnone w)
  have heq : d.system.store.readId = d.system.store.writeId :=
    (hids.tiles.read_eq_write_iff).mpr fun v b hb => by
      rw [hnone] at hb
      cases hb
  -- the rest of the turn once the clock is read
  have hstamped : ∀ (loops : ω → Loop) (b : Burst), loops w = .stamped b →
      Full { d with loops := loops } w ∨
        ∃ d', Relation.ReflTransGen (Step ports) { d with loops := loops } d' ∧
          Turned { d with loops := loops } d' w := by
    intro loops b hw
    have hreq : Step ports _ _ := .request { d with loops := loops } w b hw (hquiet w)
    rcases call_run ports (d := { d with
        system := { d.system with
          store := d.system.store.requestIdBlock b.cnt
          writers := Function.update d.system.writers w (.reserved b d.system.store.writeId) }
        loops := Function.update loops w (.inserting b) }) (w := w) (b := b)
        (Function.update_self ..) (by simp only [Function.update_self]; rfl)
        (by simp only [System.pending, Function.update_self, Writer.block, ← heq]; rfl) with
      hfull | ⟨d', hrun, hturn, -, -⟩
    · refine .inl (hfull.of_held rfl ?_)
      simp only [Function.update_self, hw, Loop.held]
    · refine .inr ⟨d', .head hreq hrun, hturn.loops.trans (Function.update_idem ..), ?_,
        hturn.arrived, hturn.polls⟩
      rw [hturn.pending]
      exact update_pending_none d.system w _ _ _
  cases hw : d.loops w with
  | polling => exact .inr ⟨d, .refl, by rw [← hw, Function.update_eq_self], hsame.symm, rfl, rfl⟩
  | received pkts =>
    rcases hstamped (Function.update d.loops w (.stamped ⟨d.clock, pkts⟩)) _
      (Function.update_self ..) with hfull | ⟨d', hrun, hturn⟩
    · refine .inl (hfull.of_held rfl ?_)
      simp only [Function.update_self, hw, Loop.held]
    · exact .inr ⟨d', .head (.stamp d w pkts hw) hrun,
        hturn.loops.trans (Function.update_idem ..), hturn.pending, hturn.arrived, hturn.polls⟩
  | stamped b => exact hstamped d.loops b hw
  | inserting b =>
    have hcall := ha.call w
    rw [hquiet, hw] at hcall
    cases hcall
  | returned recv => exact .inr ⟨_, .single (.count d w recv hw), rfl, hsame.symm, rfl, rfl⟩

/-! ## Writers that take turns -/

/-- What happens next: a packet arrives, the clock goes on, a writer receives at most that many
packets, or goes on with its loop by one step. -/
inductive Turn (ω π : Type) where
  | arrive : π → Mbuf → Turn ω π
  | tick : UInt32 → Turn ω π
  | receive : ω → Nat → Turn ω π
  | goOn : ω → Turn ω π

/-- The state after the turn. A writer at its `end` waits for the ids below its own. -/
def turn (vport : ω → π) (d : Daemon ω π) : Turn ω π → Option (Daemon ω π)
  | .arrive p m => some
    { d with
      rings := Function.update d.rings p (d.rings p ++ [m])
      arrived := Function.update d.arrived p (d.arrived p ++ [m]) }
  | .tick now => if d.clock ≤ now then some { d with clock := now } else none
  | .receive w n =>
    match d.loops w with
    | .polling =>
      if n ≤ batchSize then
        some
          { d with
            rings := Function.update d.rings (vport w) ((d.rings (vport w)).drop n)
            loops := Function.update d.loops w (.received ((d.rings (vport w)).take n))
            polls := d.polls ++ ((d.rings (vport w)).take n).map fun m => (w, m) }
      else none
    | _ => none
  | .goOn w =>
    match d.loops w, d.system.writers w with
    | .received pkts, _ => some
      { d with loops := Function.update d.loops w (.stamped ⟨d.clock, pkts⟩) }
    | .stamped b, .idle => some
      { d with
        system := { d.system with
          store := d.system.store.requestIdBlock b.cnt
          writers := Function.update d.system.writers w (.reserved b d.system.store.writeId) }
        loops := Function.update d.loops w (.inserting b) }
    | .inserting _, .running b start offset n none [] =>
      if d.system.store.readId = start then
        some
          { d with
            system :=
              { store := d.system.store.endBlock start b.cnt
                writers := Function.update d.system.writers w .idle
                ended := d.system.ended ++ [⟨b, start, offset, n⟩] }
            loops := Function.update d.loops w (.returned b.cnt)
            calls := d.calls ++ [(w, ⟨b, start, offset, n⟩)] }
      else none
    | .inserting _, x => (x.step d.system.store).map fun p =>
      { d with
        system := { d.system with
          store := p.1, writers := Function.update d.system.writers w p.2 } }
    | .returned recv, _ => some
      { d with
        loops := Function.update d.loops w .polling
        recPkts := Function.update d.recPkts w (d.recPkts w + recv) }
    | _, _ => none

theorem step_of_turn (vport : ω → π) (d : Daemon ω π) (t : Turn ω π) (d' : Daemon ω π)
    (h : d.turn vport t = some d') : Step (.ofVport vport) d d' ∧ d.clock ≤ d'.clock := by
  cases t with
  | arrive p m =>
    cases h
    exact ⟨.arrive d p m, UInt32.le_refl _⟩
  | tick now =>
    obtain ⟨hnow, heq⟩ := Option.ite_none_right_eq_some.mp h
    cases heq
    exact ⟨.tick d now, hnow⟩
  | receive w n =>
    rw [turn] at h
    split at h
    · next hw =>
      obtain ⟨hn, heq⟩ := Option.ite_none_right_eq_some.mp h
      cases heq
      exact ⟨.receive d w _ _ hw ⟨List.take_append_drop _ _,
        Nat.le_trans (List.length_take_le _ _) hn⟩, UInt32.le_refl _⟩
    · cases h
  | goOn w =>
    rw [turn] at h
    split at h
    · next hw =>
      cases h
      exact ⟨.stamp d w _ hw, UInt32.le_refl _⟩
    · next hw hi =>
      cases h
      exact ⟨.request d w _ hw hi, UInt32.le_refl _⟩
    · next hloop hw =>
      obtain ⟨hr, heq⟩ := Option.ite_none_right_eq_some.mp h
      cases heq
      exact ⟨.publish d w _ _ _ _ hw hr, UInt32.le_refl _⟩
    · obtain ⟨p, hp, rfl⟩ := Option.map_eq_some_iff.mp h
      exact ⟨.run d w p.1 p.2 hp, UInt32.le_refl _⟩
    · next hw =>
      cases h
      exact ⟨.count d w _ hw, UInt32.le_refl _⟩
    · cases h

end Daemon

end Netplay
