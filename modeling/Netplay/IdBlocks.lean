import Netplay.GuardedRun
import Netplay.WholeBurst

/-!
# The ids of the bursts

The two id counters and the reserved blocks of a run. The blocks of at least
one id tile the interval between the counters. An empty burst shares its start
with a later block and is passed by when that block ends first.
-/

namespace Netplay

open Packet NetplayUtils BlockTail

/-- What a step of a writer between its reservation and its `end` is. -/
theorem Writer.step_cases {st st' : Store} {x x' : Writer} (h : x.step st = some (st', x')) :
    (∃ b start, x = .reserved b start ∧ (st.dtail + b.nbytes) / blockSize < numBlocks ∧
      st' = st.requestBytes b.nbytes ∧ x' = .located b start st.dtail) ∨
    (∃ b start offset, x = .located b start offset ∧ st' = st ∧
      x' = .running b start offset st.numFilters none (burstOps b start offset st.numFilters)) ∨
    (∃ b start offset n a todo, x = .running b start offset n (some a) todo ∧
      st' = (st.stepAppend a).1 ∧ x' = .running b start offset n (st.stepAppend a).2 todo) ∨
    ∃ b start offset n op todo, x = .running b start offset n none (op :: todo) ∧
      st' = (st.stepOp op).1 ∧ x' = .running b start offset n (st.stepOp op).2 todo := by
  match x, h with
  | .reserved b start, h =>
    simp only [step] at h
    split at h
    · next hcap =>
      cases h
      exact .inl ⟨b, start, rfl, hcap, rfl, rfl⟩
    · cases h
  | .located b start offset, h =>
    cases h
    exact .inr (.inl ⟨b, start, offset, rfl, rfl, rfl⟩)
  | .running b start offset n (some a) todo, h =>
    cases h
    exact .inr (.inr (.inl ⟨b, start, offset, n, a, todo, rfl, rfl, rfl⟩))
  | .running b start offset n none (op :: todo), h =>
    cases h
    exact .inr (.inr (.inr ⟨b, start, offset, n, op, todo, rfl, rfl, rfl⟩))

/-- Between its reservation and its `end` a writer leaves the counters and its block alone. -/
theorem Writer.step_ids {st st' : Store} {x x' : Writer} (h : x.step st = some (st', x')) :
    Store.SameIds st st' ∧ x'.block = x.block ∧ x'.block.isSome := by
  rcases step_cases h with ⟨b, start, rfl, -, rfl, rfl⟩ | ⟨b, start, offset, rfl, rfl, rfl⟩ |
    ⟨b, start, offset, n, a, todo, rfl, rfl, rfl⟩ | ⟨b, start, offset, n, op, todo, rfl, rfl, rfl⟩
  · exact ⟨⟨rfl, rfl, rfl, rfl⟩, rfl, rfl⟩
  · exact ⟨⟨rfl, rfl, rfl, rfl⟩, rfl, rfl⟩
  · exact ⟨st.stepAppend_sameIds a, rfl, rfl⟩
  · exact ⟨st.stepOp_sameIds op, rfl, rfl⟩

namespace System

variable {ω : Type}

/-- The id counters, the pending blocks and the blocks of the bursts that have ended. -/
structure IdsTiled (s : System ω) : Prop where
  tiles : Tiles s.store.readId s.store.writeId s.pending
  aligned : Aligned s.store.writeId s.pending
  ended_iff : ∀ i, (∃ e ∈ s.ended, e.block.Holds i) ↔ i < s.store.readId
  ended_apart : s.ended.Pairwise fun e e' => e.block.Apart e'.block

theorem idsTiled_init (numFilters : Nat) (filters : Nat → List PacketFilter) :
    IdsTiled (init numFilters filters : System ω) :=
  ⟨Tiles.init, Aligned.init, fun i => by simp [init, Store.init], List.Pairwise.nil⟩

variable [DecidableEq ω]

theorem pending_update (s : System ω) (st : Store) (es : List Ended) (w : ω) (x : Writer) :
    pending ⟨st, Function.update s.writers w x, es⟩ = Function.update s.pending w x.block :=
  Function.comp_update Writer.block s.writers w x

theorem update_pending_self {s : System ω} {w : ω} {x : Option Block} (h : s.pending w = x) :
    Function.update s.pending w x = s.pending := by
  rw [← h, Function.update_eq_self]

theorem idsTiled_step {s s' : System ω} (h : IdsTiled s) (hs : Step s s') : IdsTiled s' := by
  cases hs with
  | request w b hw =>
    have hnone : s.pending w = none := by rw [pending, hw]; rfl
    refine ⟨?_, ?_, h.ended_iff, h.ended_apart⟩
    · rw [pending_update]
      exact h.tiles.reserve hnone b.cnt
    · rw [pending_update]
      exact h.aligned.reserve h.tiles w b.cnt
  | run w st x hw =>
    obtain ⟨hids, hblock, -⟩ := Writer.step_ids hw
    have hp : pending ⟨st, Function.update s.writers w x, s.ended⟩ = s.pending := by
      rw [pending_update]
      exact update_pending_self hblock.symm
    refine ⟨?_, ?_, ?_, h.ended_apart⟩
    · rw [hp, hids.readId, hids.writeId]
      exact h.tiles
    · rw [hp, hids.writeId]
      exact h.aligned
    · rw [hids.readId]
      exact h.ended_iff
  | publish w b start offset n hw hr =>
    subst hr
    have hpend : s.pending w = some ⟨s.store.readId, b.cnt⟩ := by rw [pending, hw]; rfl
    refine ⟨?_, ?_, fun i => ?_, ?_⟩
    · rw [pending_update]
      exact h.tiles.publish hpend
    · rw [pending_update]
      exact h.aligned.publish w
    · have hi := h.ended_iff i
      simp only [List.mem_append, List.mem_singleton]
      constructor
      · rintro ⟨e, he | rfl, hhold⟩
        · exact Nat.lt_add_right _ (hi.mp ⟨e, he, hhold⟩)
        · exact hhold.2
      · intro hlt
        by_cases hold : i < s.store.readId
        · obtain ⟨e, he, hhold⟩ := hi.mpr hold
          exact ⟨e, .inl he, hhold⟩
        · exact ⟨_, .inr rfl, Nat.le_of_not_lt hold, hlt⟩
    · rw [List.pairwise_append]
      refine ⟨h.ended_apart, List.pairwise_singleton _ _, fun e he e' he' i hi hi' => ?_⟩
      obtain rfl := List.mem_singleton.mp he'
      exact absurd ((h.ended_iff i).mp ⟨e, he, hi⟩) (Nat.not_lt.mpr hi'.1)

theorem idsTiled_reached {numFilters : Nat} {filters : Nat → List PacketFilter} {s : System ω}
    (h : Reached numFilters filters s) : IdsTiled s := by
  induction h with
  | refl => exact idsTiled_init numFilters filters
  | tail _ hs ih => exact idsTiled_step ih hs

/-- `current_read_id_` never decreases. -/
theorem readId_le_of_step {s s' : System ω} (hs : Step s s') :
    s.store.readId ≤ s'.store.readId := by
  cases hs with
  | request w b hw => exact Nat.le_refl _
  | run w st x hw => exact Nat.le_of_eq (Writer.step_ids hw).1.readId.symm
  | publish w b start offset n hw hr =>
    subst hr
    exact Nat.le_add_right _ _

/-! ## Writers that are passed by -/

/-- Every burst that has reserved its ids and not yet ended starts at
`current_read_id_` or above. -/
def NoneStranded (s : System ω) : Prop := Unpassed s.store.readId s.pending

/-- The step ends a burst of at least one packet while an empty burst of another
writer waits at the same start. -/
def Overtakes (s s' : System ω) : Prop :=
  ∃ w v b start offset n, s.writers w = .running b start offset n none [] ∧
    s.store.readId = start ∧ s'.writers w = .idle ∧ b.cnt ≠ 0 ∧ v ≠ w ∧
    s.pending v = some ⟨start, 0⟩

omit [DecidableEq ω] in
theorem noneStranded_init (numFilters : Nat) (filters : Nat → List PacketFilter) :
    NoneStranded (init numFilters filters : System ω) := Unpassed.init

/-- From a state without stranded writers, a step strands one exactly if it overtakes one. -/
theorem noneStranded_step_iff {s s' : System ω} (hi : IdsTiled s) (h : NoneStranded s)
    (hs : Step s s') : NoneStranded s' ↔ ¬ Overtakes s s' := by
  cases hs with
  | request w b hw =>
    refine iff_of_true ?_ ?_
    · rw [NoneStranded, pending_update]
      exact h.reserve hi.tiles.le w b.cnt
    · rintro ⟨v, u, b', start, offset, n, hv, -, hv', -⟩
      by_cases hvw : v = w
      · subst hvw
        simp at hv'
      · simp [hvw, hv] at hv'
  | run w st x hw =>
    obtain ⟨hids, hblock, hsome⟩ := Writer.step_ids hw
    refine iff_of_true ?_ ?_
    · rw [NoneStranded, pending_update, hids.readId, update_pending_self hblock.symm]
      exact h
    · rintro ⟨v, u, b', start, offset, n, hv, -, hv', -⟩
      by_cases hvw : v = w
      · subst hvw
        simp only [Function.update_self] at hv'
        rw [hv'] at hsome
        cases hsome
      · simp [hvw, hv] at hv'
  | publish w b start offset n hw hr =>
    subst hr
    have hpend : s.pending w = some ⟨s.store.readId, b.cnt⟩ := by rw [pending, hw]; rfl
    have hiff := Unpassed.publish_iff h hi.aligned hi.tiles hpend
    rw [NoneStranded, pending_update]
    refine hiff.trans (not_congr ?_)
    constructor
    · rintro ⟨hn, v, hne, hv⟩
      exact ⟨w, v, b, _, offset, n, hw, rfl, by simp, hn, hne, hv⟩
    · rintro ⟨w', v, b', start, offset', n', hw', rfl, hidle, hn, hne, hv⟩
      have hww : w' = w := by
        by_contra hww
        simp [hww, hw'] at hidle
      subst hww
      rw [hw] at hw'
      cases hw'
      exact ⟨hn, v, hne, hv⟩

/-- In a run, no state has a stranded writer exactly if no step overtakes an
empty burst. -/
theorem noneStranded_run_iff (numFilters : Nat) (filters : Nat → List PacketFilter)
    (states : List (System ω)) (hrun : List.IsChain Step (init numFilters filters :: states)) :
    (∀ s ∈ init numFilters filters :: states, NoneStranded s) ↔
      List.IsChain (fun s s' => ¬ Overtakes s s') (init numFilters filters :: states) := by
  refine GuardedRun.forall_good_iff (fun s s' hi h hs hno => ?_) (fun s s' hi h hs hbad => ?_)
    states _ (idsTiled_init numFilters filters) (noneStranded_init numFilters filters) hrun
  · exact ⟨idsTiled_step hi hs, (noneStranded_step_iff hi h hs).mpr hno⟩
  · exact fun h' => (noneStranded_step_iff hi h hs).mp h' hbad

/-- A burst of nothing has its ids, then a burst of one packet has the same start. -/
def emptyFirst : System Bool :=
  (init 0 fun _ => []).put false ((Store.init 0 fun _ => []).requestIdBlock 0) (.reserved ⟨0, []⟩ 0)

def packetNext : System Bool :=
  emptyFirst.put true (emptyFirst.store.requestIdBlock 1) (.reserved ⟨0, [⟨fun _ => 0, 60⟩]⟩ 0)

theorem emptyFirst_step : Step (init 0 fun _ => []) emptyFirst :=
  Step.request (init 0 fun _ => []) false ⟨0, []⟩ rfl

theorem packetNext_step : Step emptyFirst packetNext :=
  Step.request emptyFirst true ⟨0, [⟨fun _ => 0, 60⟩]⟩ rfl

/-- Two requests overtake nothing. -/
theorem noneStranded_requests : NoneStranded emptyFirst ∧ NoneStranded packetNext := by
  have h1 : ¬ Overtakes (init 0 fun _ => []) emptyFirst := by
    rintro ⟨w, v, b, start, offset, n, hw, -⟩
    cases hw
  have h2 : ¬ Overtakes emptyFirst packetNext := by
    rintro ⟨w, v, b, start, offset, n, hw, -⟩
    cases w <;> cases hw
  have hall := (noneStranded_run_iff 0 (fun _ => []) [emptyFirst, packetNext]
    (by simp [emptyFirst_step, packetNext_step])).mpr (by simp [h1, h2])
  exact ⟨hall emptyFirst (by simp), hall packetNext (by simp)⟩

/-- The burst of one packet ends first; `current_read_id_` is then past the start
of the empty burst. -/
theorem stranded_reached : ∃ s : System Bool, Reached 0 (fun _ => []) s ∧ ¬ NoneStranded s := by
  have hrun := @reserved_run _ _ packetNext true ⟨0, [⟨fun _ => 0, 60⟩]⟩ 0 rfl (by decide)
  obtain ⟨t, ht, hstore, hmine, hother⟩ : ∃ t : System Bool,
      Relation.ReflTransGen Step packetNext t ∧ t.store.readId = 0 ∧
      (∃ off n, t.writers true = .running ⟨0, [⟨fun _ => 0, 60⟩]⟩ 0 off n none []) ∧
      t.writers false = .reserved ⟨0, []⟩ 0 :=
    ⟨_, hrun, (Store.runOps_sameIds _ _).readId, ⟨_, _, put_writers _ _ _ _⟩, rfl⟩
  obtain ⟨off, n, hmine⟩ := hmine
  have hpub := Step.publish t true _ 0 off n hmine hstore
  refine ⟨_, .head emptyFirst_step (.head packetNext_step (ht.tail hpub)), fun h => ?_⟩
  have hlt := h false ⟨0, 0⟩ (by rw [pending_update]; simp [pending, hother, Writer.block, Burst.cnt])
  exact Nat.not_succ_le_zero 0 hlt

end System

end Netplay
