import Netplay.NetplayWriter

/-!
# From the ports into the store

What has arrived at a port is what its writers have received from it and what its ring still holds;
what a writer has received is what its ended calls have inserted and what it holds. The ended bursts
give out the ids below `num_pkts` one after the other.
-/

namespace Netplay

/-! ## The packets of the ended bursts -/

/-- A packet in the store: its id, its second and its bytes. -/
structure Stored where
  id : Nat
  second : UInt32
  pkt : Mbuf

namespace Ended

/-- The packets of a burst with their ids. -/
def stored (e : Ended) : List Stored :=
  (e.burst.pkts.zipIdx e.start).map fun x => ⟨x.2, e.burst.now, x.1⟩

theorem stored_ids (e : Ended) : e.stored.map Stored.id = List.range' e.start e.burst.cnt := by
  rw [stored, List.map_map]
  exact List.zipIdx_map_snd e.start e.burst.pkts

theorem stored_pkts (e : Ended) : e.stored.map Stored.pkt = e.burst.pkts := by
  rw [stored, List.map_map]
  exact List.zipIdx_map_fst e.start e.burst.pkts

theorem stored_second {e : Ended} {x : Stored} (h : x ∈ e.stored) : x.second = e.burst.now := by
  obtain ⟨p, -, rfl⟩ := List.mem_map.mp h
  rfl

theorem stored_gave {e : Ended} {x : Stored} (h : x ∈ e.stored) : e.Gave x.id x.pkt := by
  obtain ⟨⟨m, i⟩, hp, rfl⟩ := List.mem_map.mp h
  obtain ⟨hle, hget⟩ := List.mem_zipIdx_iff_le_and_getElem?_sub.mp hp
  exact ⟨i - e.start, hget, (Nat.add_sub_cancel' hle).symm⟩

end Ended

namespace System

variable {ω : Type}

/-- The store keeps the packet under its id, with its second in front of its bytes. -/
def Keeps (s : System ω) (x : Stored) : Prop :=
  ∃ e off, s.PacketAt x.id e x.pkt off ∧ e.burst.now = x.second

/-- The ended bursts have given out the ids in order. -/
def Numbered (s : System ω) : Prop :=
  (s.ended.flatMap Ended.stored).map Stored.id = List.range s.store.readId

variable [DecidableEq ω]

theorem numbered_step {s s' : System ω} (h : Numbered s) (hs : Step s s') : Numbered s' := by
  cases hs with
  | request w b hw => exact h
  | run w st x hw =>
    rw [Numbered, (Writer.step_ids hw).1.readId]
    exact h
  | publish w b start offset n hw hr =>
    subst hr
    rw [Numbered, List.flatMap_append, List.map_append, h, List.flatMap_singleton, Ended.stored_ids,
      List.range_eq_range', List.range_eq_range']
    have hjoin := List.range'_append_1 (s := 0) (m := s.store.readId) (n := b.cnt)
    rw [Nat.zero_add] at hjoin
    exact hjoin

variable {numFilters : Nat} {filters : Nat → List PacketFilter}

theorem numbered_reached {s : System ω} (h : Reached numFilters filters s) : Numbered s := by
  induction h with
  | refl => rfl
  | tail _ hs ih => exact numbered_step ih hs

theorem keeps_of_ended {s : System ω} (h : Reached numFilters filters s) {e : Ended}
    (he : e ∈ s.ended) {x : Stored} (hx : x ∈ e.stored) : s.Keeps x := by
  have hgave := Ended.stored_gave hx
  have hid := ((idsTiled_reached h).ended_iff x.id).mp ⟨e, he, hgave.holds⟩
  obtain ⟨e', m, off, hat⟩ := exists_packetAt h hid
  obtain rfl := ended_unique (idsTiled_reached h) he hat.mem hgave.holds hat.gave.holds
  obtain rfl := hgave.unique hat.gave
  exact ⟨e, off, hat, (Ended.stored_second hx).symm⟩

omit [DecidableEq ω] in
/-- The ids increase along the ended bursts. -/
theorem stored_sorted {s : System ω} (h : Numbered s) :
    (s.ended.flatMap Ended.stored).Pairwise fun x y => x.id < y.id := by
  have hlt : ((s.ended.flatMap Ended.stored).map Stored.id).Pairwise (· < ·) := by
    rw [h]
    exact List.pairwise_lt_range
  exact List.pairwise_map.mp hlt

end System

/-! ## The packets of the loops -/

namespace Daemon

variable {ω π : Type} [DecidableEq ω] [DecidableEq π]

/-- No packet is lost between the arrival at a port and the end of a call. -/
structure Delivers (ports : Ports ω π) (d : Daemon ω π) : Prop where
  ring : ∀ p, d.arrived p = d.taken ports p ++ d.rings p
  loop : ∀ w, d.received w = ((d.inserted w).flatMap fun e => e.burst.pkts) ++ (d.loops w).held
  count : ∀ w, d.recPkts w + (d.loops w).uncounted =
    ((d.inserted w).flatMap fun e => e.burst.pkts).length

variable {ports : Ports ω π} {numFilters : Nat} {filters : Nat → List PacketFilter} {clock : UInt32}

theorem delivers_init :
    Delivers ports (init numFilters filters clock : Daemon ω π) :=
  ⟨fun _ => rfl, fun _ => rfl, fun _ => rfl⟩

omit [DecidableEq ω] in
/-- The packets of one writer among those it has just received, or of another. -/
theorem filter_tagged (w : ω) (pkts : List Mbuf) (q : ω → Prop) [DecidablePred q] :
    ((pkts.map fun m => (w, m)).filter fun x => q x.1).map Prod.snd = if q w then pkts else [] := by
  induction pkts with
  | nil => simp
  | cons m pkts ih =>
    rw [List.map_cons, List.filter_cons]
    by_cases hq : q w
    · simp only [hq, decide_true, if_true, List.map_cons] at ih ⊢
      rw [ih]
    · simp only [hq, decide_false, if_false] at ih ⊢
      exact ih

/-- A step of a loop that receives nothing and ends no call. -/
theorem delivers_turn {d : Daemon ω π} (h : Delivers ports d) {w : ω} {l : Loop}
    (hw : d.loops w = l) (l' : Loop) (hheld : l'.held = l.held) (hcount : l'.uncounted = l.uncounted)
    (s : System ω) :
    Delivers ports { d with system := s, loops := Function.update d.loops w l' } := by
  refine ⟨h.ring, fun v => ?_, fun v => ?_⟩
  · by_cases hv : v = w
    · subst hv
      simp only [Function.update_self]
      rw [hheld, ← hw]
      exact h.loop v
    · simp only [Function.update_of_ne hv]
      exact h.loop v
  · by_cases hv : v = w
    · subst hv
      simp only [Function.update_self]
      rw [hcount, ← hw]
      exact h.count v
    · simp only [Function.update_of_ne hv]
      exact h.count v

theorem delivers_arrive {d : Daemon ω π} (h : Delivers ports d) (p : π) (m : Mbuf) :
    Delivers ports
      { d with
        rings := Function.update d.rings p (d.rings p ++ [m])
        arrived := Function.update d.arrived p (d.arrived p ++ [m]) } := by
  refine ⟨fun q => ?_, h.loop, h.count⟩
  by_cases hq : q = p
  · subst hq
    simp only [Function.update_self]
    rw [h.ring, List.append_assoc]
    rfl
  · simp only [Function.update_of_ne hq]
    exact h.ring q

theorem delivers_receive {d : Daemon ω π} (h : Delivers ports d) {w : ω} {pkts rest : List Mbuf}
    (hw : d.loops w = .polling) (hrx : ports.rxBurst (d.rings (ports.vport w)) pkts rest) :
    Delivers ports
      { d with
        rings := Function.update d.rings (ports.vport w) rest
        loops := Function.update d.loops w (.received pkts)
        polls := d.polls ++ pkts.map fun m => (w, m) } := by
  obtain ⟨hring, -⟩ := ports.fifo _ _ _ hrx
  refine ⟨fun p => ?_, fun v => ?_, fun v => ?_⟩
  · simp only [taken]
    rw [List.filter_append, List.map_append, filter_tagged w _ (fun v => ports.vport v = p)]
    by_cases hp : p = ports.vport w
    · subst hp
      rw [if_pos rfl, Function.update_self, h.ring, ← hring, List.append_assoc]
      rfl
    · rw [if_neg fun heq => hp heq.symm, Function.update_of_ne hp, List.append_nil]
      exact h.ring p
  · simp only [received]
    rw [List.filter_append, List.map_append, filter_tagged w _ (fun u => u = v)]
    have hloop := h.loop v
    by_cases hv : v = w
    · subst hv
      rw [hw] at hloop
      rw [if_pos rfl, Function.update_self]
      exact congrArg (· ++ pkts) (hloop.trans (List.append_nil _))
    · rw [if_neg fun heq => hv heq.symm, Function.update_of_ne hv, List.append_nil]
      exact hloop
  · have hcount := h.count v
    by_cases hv : v = w
    · subst hv
      rw [hw] at hcount
      simp only [Function.update_self]
      exact hcount
    · simp only [Function.update_of_ne hv]
      exact hcount

theorem filter_call_self (calls : List (ω × Ended)) (w : ω) (e : Ended) :
    (calls ++ [(w, e)]).filter (fun x => x.1 = w) = (calls.filter fun x => x.1 = w) ++ [(w, e)] := by
  rw [List.filter_append, List.filter_cons_of_pos (by simp), List.filter_nil]

theorem filter_call_other (calls : List (ω × Ended)) {v w : ω} (h : v ≠ w) (e : Ended) :
    (calls ++ [(w, e)]).filter (fun x => x.1 = v) = calls.filter fun x => x.1 = v := by
  rw [List.filter_append, List.filter_cons_of_neg (by simp [Ne.symm h]), List.filter_nil,
    List.append_nil]

theorem delivers_publish {d : Daemon ω π} (h : Delivers ports d) {w : ω} {b : Burst}
    (hw : d.loops w = .inserting b) {e : Ended} (he : e.burst = b) (s : System ω) :
    Delivers ports
      { d with
        system := s
        loops := Function.update d.loops w (.returned b.cnt)
        calls := d.calls ++ [(w, e)] } := by
  subst he
  refine ⟨h.ring, fun v => ?_, fun v => ?_⟩
  · have hloop := h.loop v
    simp only [inserted]
    by_cases hv : v = w
    · subst hv
      rw [hw] at hloop
      rw [filter_call_self, List.map_append, List.flatMap_append, Function.update_self]
      exact hloop.trans (by simp [Loop.held, inserted])
    · rw [filter_call_other d.calls hv, Function.update_of_ne hv]
      exact hloop
  · have hcount := h.count v
    simp only [inserted]
    by_cases hv : v = w
    · subst hv
      rw [hw] at hcount
      rw [filter_call_self, List.map_append, List.flatMap_append, Function.update_self,
        List.length_append]
      exact congrArg₂ (· + ·) hcount (by simp [Burst.cnt, Loop.uncounted])
    · rw [filter_call_other d.calls hv, Function.update_of_ne hv]
      exact hcount

theorem delivers_step {d d' : Daemon ω π} (ha : Agrees d) (h : Delivers ports d)
    (hs : Step ports d d') : Delivers ports d' := by
  cases hs with
  | arrive p m => exact delivers_arrive h p m
  | tick now => exact ⟨h.ring, h.loop, h.count⟩
  | receive w pkts rest hw hrx => exact delivers_receive h hw hrx
  | stamp w pkts hw => exact delivers_turn h hw (.stamped ⟨d.clock, pkts⟩) rfl rfl d.system
  | request w b hw hi => exact delivers_turn h hw (.inserting b) rfl rfl _
  | run w st x hw => exact ⟨h.ring, h.loop, h.count⟩
  | publish w b start offset n hw hr =>
    exact delivers_publish h (b := b) (ha.inserting (by rw [hw]; rfl)) rfl _
  | count w recv hw =>
    refine ⟨h.ring, fun v => ?_, fun v => ?_⟩
    · by_cases hv : v = w
      · subst hv
        simp only [Function.update_self]
        have hloop := h.loop v
        rw [hw] at hloop
        exact hloop
      · simp only [Function.update_of_ne hv]
        exact h.loop v
    · by_cases hv : v = w
      · subst hv
        simp only [Function.update_self]
        have hcount := h.count v
        rw [hw] at hcount
        exact hcount
      · simp only [Function.update_of_ne hv]
        exact h.count v

theorem delivers_reached {d : Daemon ω π} (h : Reached ports numFilters filters clock d) :
    Delivers ports d := by
  induction h with
  | refl => exact delivers_init
  | tail hrun hs ih => exact delivers_step (agrees_reached hrun) ih hs

/-! ## The seconds of a writer -/

/-- A writer stamps its bursts in order, and none with a second to come. -/
structure Timed (d : Daemon ω π) : Prop where
  held : ∀ w b, (d.loops w).burst = some b → b.now ≤ d.clock
  clock : ∀ w, ∀ e ∈ d.inserted w, e.burst.now ≤ d.clock
  before : ∀ w, ∀ e ∈ d.inserted w, ∀ b, (d.loops w).burst = some b → e.burst.now ≤ b.now
  sorted : ∀ w, (d.inserted w).Pairwise fun e e' => e.burst.now ≤ e'.burst.now

omit [DecidableEq π] in
theorem timed_init : Timed (init numFilters filters clock : Daemon ω π) :=
  ⟨fun _ _ h => (by cases h), fun _ _ h => (by cases h), fun _ _ h => (by cases h),
    fun _ => List.Pairwise.nil⟩

omit [DecidableEq π] in
/-- A step of a loop that reads no clock and ends no call. -/
theorem timed_turn {d d' : Daemon ω π} (h : Timed d) {w : ω} {l : Loop}
    (hl : ∀ b, l.burst = some b → (d.loops w).burst = some b)
    (hloops : d'.loops = Function.update d.loops w l) (hclock : d'.clock = d.clock)
    (hcalls : d'.calls = d.calls) : Timed d' := by
  have hins : ∀ v, d'.inserted v = d.inserted v := fun v => by rw [inserted, hcalls, inserted]
  have hburst : ∀ v b, (d'.loops v).burst = some b → (d.loops v).burst = some b := by
    intro v b hb
    rw [hloops] at hb
    by_cases hv : v = w
    · subst hv
      rw [Function.update_self] at hb
      exact hl b hb
    · rwa [Function.update_of_ne hv] at hb
  refine ⟨fun v b hb => ?_, fun v e he => ?_, fun v e he b hb => ?_, fun v => ?_⟩
  · rw [hclock]
    exact h.held v b (hburst v b hb)
  · rw [hclock]
    exact h.clock v e (hins v ▸ he)
  · exact h.before v e (hins v ▸ he) b (hburst v b hb)
  · rw [hins]
    exact h.sorted v

omit [DecidableEq π] in
theorem timed_stamp {d : Daemon ω π} (h : Timed d) (w : ω) (pkts : List Mbuf) :
    Timed { d with loops := Function.update d.loops w (.stamped ⟨d.clock, pkts⟩) } := by
  refine ⟨fun v b hb => ?_, h.clock, fun v e he b hb => ?_, h.sorted⟩
  · by_cases hv : v = w
    · subst hv
      simp only [Function.update_self] at hb
      cases hb
      exact UInt32.le_refl _
    · simp only [Function.update_of_ne hv] at hb
      exact h.held v b hb
  · by_cases hv : v = w
    · subst hv
      simp only [Function.update_self] at hb
      cases hb
      exact h.clock v e he
    · simp only [Function.update_of_ne hv] at hb
      exact h.before v e he b hb

omit [DecidableEq π] in
theorem timed_publish {d : Daemon ω π} (h : Timed d) {w : ω} {e : Ended}
    (hw : (d.loops w).burst = some e.burst) (s : System ω) :
    Timed
      { d with
        system := s
        loops := Function.update d.loops w (.returned e.burst.cnt)
        calls := d.calls ++ [(w, e)] } := by
  have hself : inserted { d with calls := d.calls ++ [(w, e)] } w = d.inserted w ++ [e] := by
    rw [inserted, filter_call_self, List.map_append]
    rfl
  have hother : ∀ {v}, v ≠ w → inserted { d with calls := d.calls ++ [(w, e)] } v = d.inserted v :=
    fun hv => by rw [inserted, filter_call_other d.calls hv, inserted]
  refine ⟨fun v b hb => ?_, fun v e' he' => ?_, fun v e' he' b hb => ?_, fun v => ?_⟩
  · by_cases hv : v = w
    · subst hv
      simp only [Function.update_self] at hb
      cases hb
    · simp only [Function.update_of_ne hv] at hb
      exact h.held v b hb
  · by_cases hv : v = w
    · subst hv
      rcases List.mem_append.mp (hself ▸ he') with he' | he'
      · exact h.clock v e' he'
      · obtain rfl := List.mem_singleton.mp he'
        exact h.held v _ hw
    · exact h.clock v e' (hother hv ▸ he')
  · by_cases hv : v = w
    · subst hv
      simp only [Function.update_self] at hb
      cases hb
    · simp only [Function.update_of_ne hv] at hb
      exact h.before v e' (hother hv ▸ he') b hb
  · by_cases hv : v = w
    · subst hv
      refine hself ▸ List.pairwise_append.mpr
        ⟨h.sorted v, List.pairwise_singleton _ _, fun e' he' e'' he'' => ?_⟩
      obtain rfl := List.mem_singleton.mp he''
      exact h.before v e' he' _ hw
    · exact (hother hv).symm ▸ h.sorted v

theorem timed_step {d d' : Daemon ω π} (ha : Agrees d) (h : Timed d) (hs : Step ports d d')
    (hclock : d.clock ≤ d'.clock) : Timed d' := by
  cases hs with
  | arrive p m => exact ⟨h.held, h.clock, h.before, h.sorted⟩
  | tick now =>
    exact ⟨fun w b hb => UInt32.le_trans (h.held w b hb) hclock,
      fun w e he => UInt32.le_trans (h.clock w e he) hclock, h.before, h.sorted⟩
  | receive w pkts rest hw hrx => exact timed_turn h (fun b hb => by cases hb) rfl rfl rfl
  | stamp w pkts hw => exact timed_stamp h w pkts
  | request w b hw hi => exact timed_turn h (fun b' hb => by rw [hw]; exact hb) rfl rfl rfl
  | run w st x hw => exact ⟨h.held, h.clock, h.before, h.sorted⟩
  | publish w b start offset n hw hr =>
    have hl := ha.inserting (w := w) (b := b) (by rw [hw]; rfl)
    exact timed_publish (e := ⟨b, start, offset, n⟩) h (by rw [hl]; rfl) _
  | count w recv hw => exact timed_turn h (fun b hb => by cases hb) rfl rfl rfl

theorem timed_reached {d : Daemon ω π} (h : Forward ports numFilters filters clock d) : Timed d := by
  induction h with
  | refl => exact timed_init
  | tail hrun hs ih => exact timed_step (agrees_reached (Forward.reached hrun)) ih hs.1 hs.2

/-! ## From arrival to id -/

/-- Two lists of packets with their writers, alike for each writer, hold the same packets. -/
theorem perm_of_writers {l l' : List (ω × Mbuf)}
    (h : ∀ w, (l.filter fun x => x.1 = w).map Prod.snd = (l'.filter fun x => x.1 = w).map Prod.snd) :
    (l.map Prod.snd).Perm (l'.map Prod.snd) := by
  classical
  have hcount : ∀ (l : List (ω × Mbuf)) (x : ω × Mbuf),
      l.count x = ((l.filter fun y => y.1 = x.1).map Prod.snd).count x.2 := by
    intro l x
    rw [List.count_eq_countP, List.count_eq_countP, List.countP_map, List.countP_filter]
    refine List.countP_congr fun y _ => ?_
    simp [Prod.ext_iff, and_comm]
  refine List.Perm.map _ (List.perm_iff_count.mpr fun x => ?_)
  rw [hcount l, hcount l', h x.1]

omit [DecidableEq π] in
/-- The packets of the ended calls, with their writers. -/
theorem inserted_tagged (d : Daemon ω π) (w : ω) :
    ((d.calls.flatMap fun c => c.2.burst.pkts.map fun m => (c.1, m)).filter
      fun x => x.1 = w).map Prod.snd = (d.inserted w).flatMap fun e => e.burst.pkts := by
  rw [inserted]
  induction d.calls with
  | nil => rfl
  | cons c calls ih =>
    rw [List.flatMap_cons, List.filter_append, List.map_append, ih,
      filter_tagged c.1 _ (fun v => v = w)]
    by_cases hc : c.1 = w
    · rw [if_pos hc, List.filter_cons_of_pos (by simp [hc]), List.map_cons, List.flatMap_cons]
    · rw [if_neg hc, List.filter_cons_of_neg (by simp [hc]), List.nil_append]

/-- Without a writer that holds packets, the packets in the store are those received. -/
theorem ended_perm {d : Daemon ω π} (h : Reached ports numFilters filters clock d)
    (hidle : ∀ w, d.loops w = .polling) :
    ((d.system.ended.flatMap Ended.stored).map Stored.pkt).Perm (d.polls.map Prod.snd) := by
  have hpkts : (d.system.ended.flatMap Ended.stored).map Stored.pkt =
      (d.calls.flatMap fun c => c.2.burst.pkts.map fun m => (c.1, m)).map Prod.snd := by
    rw [← (agrees_reached h).ended, List.map_flatMap, List.map_flatMap, List.flatMap_map]
    simp [Ended.stored_pkts, Function.comp_def]
  rw [hpkts]
  refine perm_of_writers fun w => ?_
  have hloop := (delivers_reached h).loop w
  rw [hidle, received] at hloop
  rw [inserted_tagged, hloop]
  exact (List.append_nil _).symm

/-- Without a writer that holds packets, the ids below `num_pkts` are those of the packets that the
writers have received, each once, and every packet of a port that is not received waits in its ring. -/
theorem stored_perm {d : Daemon ω π} (h : Reached ports numFilters filters clock d)
    (hidle : ∀ w, d.loops w = .polling) :
    ∃ stored : List Stored, stored.map Stored.id = List.range d.system.store.numPkts ∧
      (∀ x ∈ stored, d.system.Keeps x) ∧ (stored.map Stored.pkt).Perm (d.polls.map Prod.snd) ∧
      (∀ p, d.arrived p = d.taken ports p ++ d.rings p) ∧
      ∀ w, d.recPkts w = (d.received w).length := by
  have hsys := reached_system h
  have hdel := delivers_reached h
  refine ⟨d.system.ended.flatMap Ended.stored, System.numbered_reached hsys, fun x hx => ?_,
    ended_perm h hidle, hdel.ring, fun w => ?_⟩
  · obtain ⟨e, he, hx⟩ := List.mem_flatMap.mp hx
    exact System.keeps_of_ended hsys he hx
  · have hcount := hdel.count w
    have hloop := hdel.loop w
    rw [hidle] at hcount hloop
    rw [hloop]
    exact hcount.trans (congrArg List.length (List.append_nil _).symm)

/-- A packet with TCP. -/
def tcpMbuf (len : UInt32) : Mbuf := ⟨fun i => if i = 23 then 6 else 0, len⟩

/-- A packet arrives at each of two ports. Writer `true` has its ids last and is ahead of writer
`false` up to its `end`, where it waits; both get back to their ports. -/
def twoPorts (m m' : Mbuf) : List (Turn Bool Bool) :=
  [.arrive true m, .arrive false m', .receive true 32, .receive false 32, .goOn false, .goOn false,
    .tick 8, .goOn true, .goOn true] ++
  (List.replicate 29 [.goOn true, .goOn false]).flatten ++
  [.goOn false, .goOn true, .goOn false, .goOn true]

/-- Two more packets arrive, and a writer receives one of them. -/
def twoMore : List (Turn Bool Bool) :=
  twoPorts (tcpMbuf 60) (tcpMbuf 61) ++
  [.arrive true (tcpMbuf 62), .arrive true (tcpMbuf 63), .receive true 1]

def rests (d : Daemon Bool Bool) : Bool :=
  match d.loops false, d.loops true with
  | .polling, .polling => true
  | _, _ => false

theorem polling_of_rests {d : Daemon Bool Bool} (h : d.rests = true) (w : Bool) :
    d.loops w = .polling := by
  rw [rests] at h
  split at h
  · cases w <;> assumption
  · cases h

theorem twoPorts_run : ∃ d : Daemon Bool Bool, Forward (.ofVport id) 0 (fun _ => []) 7 d ∧
    (∀ w, d.loops w = .polling) ∧ d.system.store.numPkts = 2 ∧
      d.polls.map (fun p => p.2.pktLen) = [60, 61] := by
  obtain ⟨d, hrun, hsee⟩ := Schedule.exists_run (step_of_turn id) (twoPorts (tcpMbuf 60) (tcpMbuf 61))
    (by decide +kernel : (Schedule.after (turn id) (init 0 (fun _ => []) 7 : Daemon Bool Bool)
      (twoPorts (tcpMbuf 60) (tcpMbuf 61))).map (fun d => decide (d.rests = true ∧
        d.system.store.numPkts = 2 ∧ d.polls.map (fun p => p.2.pktLen) = [60, 61])) = some true)
  obtain ⟨hrests, hnum, hpolls⟩ := of_decide_eq_true hsee
  exact ⟨d, hrun, polling_of_rests hrests, hnum, hpolls⟩

theorem stored_perm_twoPorts : ∃ (d : Daemon Bool Bool) (stored : List Stored),
    stored.map Stored.id = [0, 1] ∧ (stored.map fun x => x.pkt.pktLen).Perm [60, 61] ∧
      ∀ x ∈ stored, d.system.Keeps x := by
  obtain ⟨d, hrun, hidle, hnum, hpolls⟩ := twoPorts_run
  obtain ⟨stored, hids, hkeeps, hperm, -⟩ := stored_perm hrun.reached hidle
  have hlens := hperm.map Mbuf.pktLen
  rw [List.map_map, List.map_map] at hlens
  exact ⟨d, stored, hids.trans (by rw [hnum]; rfl), hlens.trans (.of_eq hpolls), hkeeps⟩

/-- The packets of a port that one writer polls: those in the store, in the order of their arrival
with ids that increase and seconds that do not decrease; then those that the writer holds; then those
in the ring. The clock does not go back. -/
theorem stored_inOrder {d : Daemon ω π} (hclock : Forward ports numFilters filters clock d) {w : ω}
    (hone : ∀ v, ports.vport v = ports.vport w → v = w) :
    ∃ stored : List Stored,
      d.arrived (ports.vport w) = stored.map Stored.pkt ++ (d.loops w).held ++ d.rings (ports.vport w) ∧
      (stored.Pairwise fun x y => x.id < y.id ∧ x.second ≤ y.second) ∧
      ∀ x ∈ stored, d.system.Keeps x := by
  have h := hclock.reached
  have hsys := reached_system h
  have hdel := delivers_reached h
  have hsub : (d.inserted w).Sublist d.system.ended := by
    rw [← (agrees_reached h).ended]
    exact List.filter_sublist.map Prod.snd
  refine ⟨(d.inserted w).flatMap Ended.stored, ?_, ?_, fun x hx => ?_⟩
  · have htaken : d.taken ports (ports.vport w) = d.received w := by
      rw [taken, received]
      refine congrArg _ (List.filter_congr fun x _ => ?_)
      simp only [decide_eq_decide]
      exact ⟨hone x.1, fun heq => congrArg ports.vport heq⟩
    rw [hdel.ring, htaken, hdel.loop, List.map_flatMap]
    simp [Ended.stored_pkts]
  · have hids := List.pairwise_flatMap.mp (System.stored_sorted (System.numbered_reached hsys))
    refine List.pairwise_flatMap.mpr ⟨fun e he => ?_, ?_⟩
    · refine (hids.1 e (hsub.mem he)).imp_of_mem fun {x y} hx hy hlt => ⟨hlt, ?_⟩
      rw [Ended.stored_second hx, Ended.stored_second hy]
      exact UInt32.le_refl _
    · refine ((hids.2.sublist hsub).and ((timed_reached hclock).sorted w)).imp ?_
      intro e e' hlt x hx y hy
      refine ⟨hlt.1 x hx y hy, ?_⟩
      rw [Ended.stored_second hx, Ended.stored_second hy]
      exact hlt.2
  · obtain ⟨e, he, hx⟩ := List.mem_flatMap.mp hx
    exact System.keeps_of_ended hsys (hsub.mem he) hx

/-- Of three packets that have arrived at a port, the first is stored. -/
theorem stored_inOrder_twoMore : ∃ (d : Daemon Bool Bool) (stored : List Stored),
    (d.arrived true).map Mbuf.pktLen = [60, 62, 63] ∧
      stored.map (fun x => x.pkt.pktLen) = [60] ∧ ∀ x ∈ stored, d.system.Keeps x := by
  obtain ⟨d, hrun, hsee⟩ := Schedule.exists_run (step_of_turn id) twoMore
    (by decide +kernel : (Schedule.after (turn id) (init 0 (fun _ => []) 7 : Daemon Bool Bool)
      twoMore).map (fun d => decide ((d.arrived true).map Mbuf.pktLen = [60, 62, 63] ∧
        (d.loops true).held.map Mbuf.pktLen = [62] ∧ (d.rings true).map Mbuf.pktLen = [63])) =
      some true)
  obtain ⟨harrived, hheld, hring⟩ := of_decide_eq_true hsee
  obtain ⟨stored, heq, -, hkeeps⟩ := stored_inOrder hrun (w := true) (fun v hv => hv)
  have hport : (Ports.ofVport id : Ports Bool Bool).vport true = true := rfl
  have hlens := congrArg (List.map Mbuf.pktLen) heq
  rw [hport, harrived, List.map_append, List.map_append, hheld, hring, List.map_map,
    List.append_assoc] at hlens
  have hstored : [60] ++ [62, 63] = stored.map (Mbuf.pktLen ∘ Stored.pkt) ++ [62, 63] := hlens
  exact ⟨d, stored, harrived, (List.append_cancel_right hstored).symm, hkeeps⟩

end Daemon

end Netplay
