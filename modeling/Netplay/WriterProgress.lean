import Netplay.PortOrder

/-!
# Writers that go on, and writers that do not

As long as `current_read_id_` has passed no burst in flight, all writers can get back to their
ports, and what they hold gets into the store. A writer whose burst is passed never does, and a port
that nobody else polls is never read again.
-/

namespace Netplay

open BlockTail

theorem Writer.burst_of_block {x : Writer} {blk : Block} (h : x.block = some blk) :
    ∃ b, x.burst = some b ∧ blk.count = b.cnt := by
  cases x with
  | idle => cases h
  | reserved b start => cases h; exact ⟨b, rfl, rfl⟩
  | located b start offset => cases h; exact ⟨b, rfl, rfl⟩
  | running b start offset n cur todo => cases h; exact ⟨b, rfl, rfl⟩

theorem Writer.idle_of_block {x : Writer} (h : x.block = none) : x = .idle := by
  cases x with
  | idle => rfl
  | reserved b start => cases h
  | located b start offset => cases h
  | running b start offset n cur todo => cases h

namespace System

variable {ω : Type}

/-- If a burst is in flight and none is passed, one of them is next; an empty one if there is one. -/
theorem exists_next {s : System ω} (hi : IdsTiled s) (hn : NoneStranded s) {w : ω} {blk : Block}
    (hw : s.pending w = some blk) :
    ∃ v n, s.pending v = some ⟨s.store.readId, n⟩ ∧
      (n ≠ 0 → ∀ u, s.pending u ≠ some ⟨s.store.readId, 0⟩) := by
  by_cases hempty : ∃ v, s.pending v = some ⟨s.store.readId, 0⟩
  · obtain ⟨v, hv⟩ := hempty
    exact ⟨v, 0, hv, fun hne => absurd rfl hne⟩
  · have hlt : s.store.readId < s.store.writeId := by
      refine Nat.lt_of_le_of_ne hi.tiles.le fun heq => hempty ⟨w, ?_⟩
      have hcount := hi.tiles.read_eq_write_iff.mp heq w blk hw
      have hlo := hn w blk hw
      have hhi := hi.aligned.le w blk hw
      have hstart : blk.start = s.store.readId := by omega
      rw [hw, ← hcount, ← hstart]
    obtain ⟨v, blk', hv, hhold⟩ := (hi.tiles.holds _).mpr ⟨Nat.le_refl _, hlt⟩
    have hstart : blk'.start = s.store.readId := Nat.le_antisymm hhold.1 (hn v blk' hv)
    exact ⟨v, blk'.count, by rw [hv, ← hstart], fun _ u hu => hempty ⟨u, hu⟩⟩

end System

namespace Daemon

variable {ω π : Type} [DecidableEq ω] [DecidableEq π]
variable {ports : Ports ω π} {numFilters : Nat} {filters : Nat → List PacketFilter} {clock : UInt32}

/-- Only finitely many writers have left their ports. -/
theorem finite_busy {d : Daemon ω π} (h : Reached ports numFilters filters clock d) :
    ∃ ws : List ω, ∀ w, w ∉ ws → d.loops w = .polling := by
  induction h with
  | refl => exact ⟨[], fun _ _ => rfl⟩
  | @tail d d' _ hs ih =>
    obtain ⟨ws, hws⟩ := ih
    have hturn : ∀ (w : ω) (l : Loop), ∃ ws : List ω, ∀ v, v ∉ ws →
        Function.update d.loops w l v = .polling := by
      refine fun w l => ⟨w :: ws, fun v hv => ?_⟩
      rw [List.mem_cons, not_or] at hv
      rw [Function.update_of_ne hv.1]
      exact hws v hv.2
    cases hs with
    | arrive p m => exact ⟨ws, hws⟩
    | tick now => exact ⟨ws, hws⟩
    | receive w pkts rest hw hrx => exact hturn w _
    | stamp w pkts hw => exact hturn w _
    | request w b hw hi => exact hturn w _
    | run w st x hw => exact ⟨ws, hws⟩
    | publish w b start offset n hw hr => exact hturn w _
    | count w recv hw => exact hturn w _

/-- One writer that has left its port gets back, and passes no burst. -/
theorem turn_one {d : Daemon ω π} (h : Reached ports numFilters filters clock d)
    (hn : System.NoneStranded d.system) {w : ω} (hw : d.loops w ≠ .polling) :
    (∃ v, d.Full v) ∨ ∃ d' v, Relation.ReflTransGen (Step ports) d d' ∧ Turned d d' v ∧
      d.loops v ≠ .polling ∧ System.NoneStranded d'.system := by
  have ha := agrees_reached h
  have hi := System.idsTiled_reached (reached_system h)
  by_cases hcall : ∃ v blk, d.system.pending v = some blk
  · obtain ⟨v, blk, hv⟩ := hcall
    obtain ⟨v, n, hv, hfirst⟩ := System.exists_next hi hn hv
    obtain ⟨b, hb, hcount⟩ := Writer.burst_of_block hv
    dsimp only at hcount
    subst hcount
    have hloop := ha.inserting hb
    rcases call_run ports hloop hb hv with hfull | ⟨d', hrun, hturn, hread, -⟩
    · exact .inl ⟨v, hfull⟩
    · refine .inr ⟨d', v, hrun, hturn, by rw [hloop]; exact Loop.noConfusion, ?_⟩
      rw [System.NoneStranded, hturn.pending, hread]
      refine (hn.publish_iff hi.aligned hi.tiles hv).mpr ?_
      rintro ⟨hne, u, -, hu⟩
      exact hfirst hne u hu
  · have hquiet : ∀ v, d.system.pending v = none := by
      intro v
      rw [Option.eq_none_iff_forall_ne_some]
      exact fun blk hblk => hcall ⟨v, blk, hblk⟩
    rcases turn_run ports ha hi (fun v => Writer.idle_of_block (hquiet v)) w with
      hfull | ⟨d', hrun, hturn⟩
    · exact .inl ⟨w, hfull⟩
    · refine .inr ⟨d', w, hrun, hturn, hw, fun v blk hblk => ?_⟩
      rw [hturn.pending, System.update_pending_self (hquiet w), hquiet] at hblk
      cases hblk

/-- While no burst is passed, all writers can get back to their ports with all that they hold in the
store, unless the data log is full on the way. -/
theorem drains {d : Daemon ω π} (h : Reached ports numFilters filters clock d)
    (hn : System.NoneStranded d.system) :
    ∃ d', Relation.ReflTransGen (Step ports) d d' ∧ d'.polls = d.polls ∧
      ((∀ w, d'.loops w = .polling) ∨ ∃ w, d'.Full w) := by
  obtain ⟨ws, hws⟩ := finite_busy h
  -- on the number of writers that may have left their ports
  induction hk : ws.length generalizing ws d with
  | zero =>
    rw [List.length_eq_zero_iff] at hk
    subst hk
    exact ⟨d, .refl, rfl, .inl fun w => hws w List.not_mem_nil⟩
  | succ k ih =>
    by_cases hall : ∀ w, d.loops w = .polling
    · exact ⟨d, .refl, rfl, .inl hall⟩
    · obtain ⟨w, hw⟩ := Classical.not_forall.mp hall
      rcases turn_one h hn hw with hfull | ⟨d₁, v, hrun, hturn, hv, hn₁⟩
      · exact ⟨d, .refl, rfl, .inr hfull⟩
      · have hmem : v ∈ ws := by
          by_contra hnot
          exact hv (hws v hnot)
        have hrest : ∀ u, u ∉ ws.erase v → d₁.loops u = .polling := by
          intro u hu
          by_cases huv : u = v
          · rw [huv, hturn.loops, Function.update_self]
          · rw [hturn.other huv]
            exact hws u fun hin => hu ((List.mem_erase_of_ne huv).mpr hin)
        obtain ⟨d', hrun', hpolls, hend⟩ := ih (h.trans hrun) hn₁ (ws.erase v) hrest
          (by rw [List.length_erase_of_mem hmem, hk]; rfl)
        exact ⟨d', hrun.trans hrun', hpolls.trans hturn.polls, hend⟩

/-- Behind the two bursts of `twoPorts` both writers have reserved the ids of another one, and writer
`true`, whose ids are last, is in the middle of its own. -/
def twoInFlight : List (Turn Bool Bool) :=
  twoMore ++
    [.arrive false (tcpMbuf 64), .receive false 32, .goOn false, .goOn false, .goOn true, .goOn true] ++
    List.replicate 12 (.goOn true)

theorem drains_twoInFlight : ∃ d d' : Daemon Bool Bool,
    d.system.pending false = some ⟨2, 1⟩ ∧ d.system.pending true = some ⟨3, 1⟩ ∧
      Relation.ReflTransGen (Step (.ofVport id)) d d' ∧ d'.polls = d.polls ∧
      ((∀ w, d'.loops w = .polling) ∨ ∃ w, d'.Full w) := by
  obtain ⟨d, hrun, hsee⟩ := Schedule.exists_run (step_of_turn id) twoInFlight
    (by decide +kernel : (Schedule.after (turn id) (init 0 (fun _ => []) 7 : Daemon Bool Bool)
      twoInFlight).map (fun d => decide (d.system.pending false = some ⟨2, 1⟩ ∧
        d.system.pending true = some ⟨3, 1⟩ ∧ d.system.store.readId = 2)) = some true)
  obtain ⟨hfalse, htrue, hread⟩ := of_decide_eq_true hsee
  have hnone : System.NoneStranded d.system := by
    intro w b hb
    rw [hread]
    cases w with
    | false =>
      rw [hfalse] at hb
      cases hb
      decide
    | true =>
      rw [htrue] at hb
      cases hb
      decide
  obtain ⟨d', hrun', hpolls, hend⟩ := drains (Forward.reached hrun) hnone
  exact ⟨d, d', hfalse, htrue, hrun', hpolls, hend⟩

/-! ## A burst that is passed -/

/-- Writer `w` does not move, and a port that it alone polls only fills. -/
structure Stays (ports : Ports ω π) (d d' : Daemon ω π) (w : ω) : Prop where
  pending : d'.system.pending w = d.system.pending w
  loop : d'.loops w = d.loops w
  inserted : d'.inserted w = d.inserted w
  ring : (∀ v, ports.vport v = ports.vport w → v = w) → ∃ more,
    d'.arrived (ports.vport w) = d.arrived (ports.vport w) ++ more ∧
    d'.rings (ports.vport w) = d.rings (ports.vport w) ++ more

omit [DecidableEq π] in
theorem Stays.refl (d : Daemon ω π) (w : ω) : Stays ports d d w :=
  ⟨rfl, rfl, rfl, fun _ => ⟨[], (List.append_nil _).symm, (List.append_nil _).symm⟩⟩

omit [DecidableEq π] in
theorem Stays.trans {d d' d'' : Daemon ω π} {w : ω} (h : Stays ports d d' w)
    (h' : Stays ports d' d'' w) : Stays ports d d'' w := by
  refine ⟨h'.pending.trans h.pending, h'.loop.trans h.loop, h'.inserted.trans h.inserted,
    fun hone => ?_⟩
  obtain ⟨more, harrived, hring⟩ := h.ring hone
  obtain ⟨more', harrived', hring'⟩ := h'.ring hone
  exact ⟨more ++ more', by rw [harrived', harrived, List.append_assoc],
    by rw [hring', hring, List.append_assoc]⟩

omit [DecidableEq π] in
/-- A step of another writer that receives and ends nothing. -/
theorem Stays.of_other {d d' : Daemon ω π} {v w : ω} {l : Loop} (hne : w ≠ v)
    (hpending : d'.system.pending w = d.system.pending w)
    (hloops : d'.loops = Function.update d.loops v l) (hcalls : d'.calls = d.calls)
    (harrived : d'.arrived = d.arrived) (hrings : d'.rings = d.rings) : Stays ports d d' w := by
  refine ⟨hpending, ?_, ?_, fun _ => ⟨[], ?_, ?_⟩⟩
  · rw [hloops, Function.update_of_ne hne]
  · rw [Daemon.inserted, hcalls, Daemon.inserted]
  · rw [harrived, List.append_nil]
  · rw [hrings, List.append_nil]

theorem stays_arrive (d : Daemon ω π) (p : π) (m : Mbuf) (w : ω) :
    Stays ports d
      { d with
        rings := Function.update d.rings p (d.rings p ++ [m])
        arrived := Function.update d.arrived p (d.arrived p ++ [m]) } w := by
  refine ⟨rfl, rfl, rfl, fun _ => ?_⟩
  by_cases hp : ports.vport w = p
  · subst hp
    exact ⟨[m], Function.update_self .., Function.update_self ..⟩
  · refine ⟨[], ?_, ?_⟩
    · rw [List.append_nil]
      exact Function.update_of_ne hp ..
    · rw [List.append_nil]
      exact Function.update_of_ne hp ..

/-- A burst that `current_read_id_` has passed stays where it is. -/
theorem stranded_step {d d' : Daemon ω π} (ha : Agrees d) (hs : Step ports d d') {w : ω} {blk : Block}
    (hw : d.system.pending w = some blk) (hlt : blk.start < d.system.store.readId) :
    Stays ports d d' w := by
  obtain ⟨b, hb, -⟩ := Writer.burst_of_block hw
  have hloop := ha.inserting hb
  have hother : ∀ {v : ω} {l : Loop}, d.loops v = l → l.call = none → w ≠ v := by
    rintro v l hv hl rfl
    rw [← hv, hloop] at hl
    cases hl
  have hkeep : ∀ (s : System ω) {v : ω} {st : Store} {x : Writer} {es : List Ended}, w ≠ v →
      System.pending ⟨st, Function.update s.writers v x, es⟩ w = s.pending w := fun s _ _ _ _ hne => by
    rw [System.pending_update, Function.update_of_ne hne]
  cases hs with
  | arrive p m => exact stays_arrive d p m w
  | tick now => exact ⟨rfl, rfl, rfl, (Stays.refl d w).ring⟩
  | receive v pkts rest hv hrx =>
    have hne := hother hv rfl
    refine ⟨rfl, Function.update_of_ne hne .., rfl, fun hone => ⟨[], (List.append_nil _).symm, ?_⟩⟩
    rw [List.append_nil]
    exact Function.update_of_ne (fun heq => hne (hone v heq.symm).symm) ..
  | stamp v pkts hv => exact .of_other (hother hv rfl) rfl rfl rfl rfl rfl
  | request v b' hv hi =>
    exact .of_other (hother hv rfl) (hkeep d.system (hother hv rfl)) rfl rfl rfl rfl
  | run v st x hv =>
    refine ⟨?_, rfl, rfl, (Stays.refl d w).ring⟩
    by_cases hne : w = v
    · subst hne
      simp only [System.pending, Function.update_self]
      exact (Writer.step_ids hv).2.1
    · exact hkeep d.system hne
  | publish v b' start offset n hv hr =>
    have hne : w ≠ v := by
      rintro rfl
      rw [System.pending, hv] at hw
      cases hw
      dsimp only at hlt
      omega
    refine ⟨hkeep d.system hne, Function.update_of_ne hne .., ?_, (Stays.refl d w).ring⟩
    rw [Daemon.inserted, filter_call_other d.calls hne, Daemon.inserted]
  | count v recv hv => exact .of_other (hother hv rfl) rfl rfl rfl rfl rfl

/-- A writer whose burst is passed is never back at its port: in every later state it is where it
was, has inserted nothing more, and of a port that it alone polls nothing more is received. -/
theorem stranded_run {d d' : Daemon ω π} (h : Reached ports numFilters filters clock d)
    (hrun : Relation.ReflTransGen (Step ports) d d') {w : ω} {blk : Block}
    (hw : d.system.pending w = some blk) (hlt : blk.start < d.system.store.readId) :
    Stays ports d d' w := by
  induction hrun with
  | refl => exact .refl d w
  | tail hrun' hs ih =>
    refine ih.trans (stranded_step (agrees_reached (h.trans hrun')) hs (ih.pending.trans hw) ?_)
    exact Nat.lt_of_lt_of_le hlt (System.readId_le_of_run (run_system hrun'))

/-- Writer `false` receives nothing and requests its ids in front of writer `true`, which publishes
its packet. -/
def emptyInFront : List (Turn Bool Bool) :=
  [.arrive true (tcpMbuf 60), .receive true 32, .receive false 32, .goOn false, .goOn false,
    .goOn true, .goOn true] ++ List.replicate 30 (.goOn true)

theorem passed_reached : ∃ d : Daemon Bool Bool, Reached (.ofVport id) 0 (fun _ => []) 7 d ∧
    d.system.pending false = some ⟨0, 0⟩ ∧ 0 < d.system.store.readId := by
  obtain ⟨d, hrun, hsee⟩ := Schedule.exists_run (step_of_turn id) emptyInFront
    (by decide +kernel : (Schedule.after (turn id) (init 0 (fun _ => []) 7 : Daemon Bool Bool)
      emptyInFront).map (fun d => decide (d.system.pending false = some ⟨0, 0⟩ ∧
        0 < d.system.store.readId)) = some true)
  exact ⟨d, Forward.reached hrun, of_decide_eq_true hsee⟩

theorem stranded_run_passed : ∃ d d' : Daemon Bool Bool,
    d'.arrived false = d.arrived false ++ [⟨fun _ => 0, 60⟩] ∧ Stays (.ofVport id) d d' false := by
  obtain ⟨d, hreach, hpending, hlt⟩ := passed_reached
  have hstep : Step (.ofVport id) _ _ := .arrive d false ⟨fun _ => 0, 60⟩
  exact ⟨d, _, Function.update_self false _ d.arrived, stranded_run hreach (.single hstep) hpending hlt⟩

end Daemon

end Netplay
