import Mathlib.Logic.Function.Basic
import Mathlib.Logic.Relation
import Netplay.BlockTail
import Netplay.GuardedRun
import Netplay.Schedule

/-!
# The linearizable monolog

`monolog_linearizable` and its calls of `push_back` and `push_back_range` as the
sequence of their atomic steps: the `fetch_add` on `write_tail_`, the store of
each entry, and every attempt of the compare-exchange on `read_tail_`. The
attempt expects the local variable `idx` and, when it fails, puts the tail it
found there; the next attempt and the return value use what it put.

Counters are unbounded.
-/

namespace Netplay

open BlockTail

/-- What `push_back_range` computes with its bounds: `end - start + 1` as a
`size_t`, and `start + i`. -/
class Ranged (T : Type) where
  cnt : T → T → Nat
  nth : T → Nat → T

instance : Ranged UInt64 where
  cnt first last := (last - first + 1).toNat
  nth first i := first + UInt64.ofNat i

/-- The tails and the entries that are stored. -/
structure Monolog (T : Type) where
  writeTail : Nat
  readTail : Nat
  slots : Nat → Option T

namespace Monolog

variable {T ω : Type}

def empty : Monolog T := ⟨0, 0, fun _ => none⟩

def size (m : Monolog T) : Nat := m.readTail

/-- `at`; no entry where nothing was stored. -/
def get (m : Monolog T) (idx : Nat) : Option T := m.slots idx

def fetchAdd (m : Monolog T) (n : Nat) : Monolog T := { m with writeTail := m.writeTail + n }

def set (m : Monolog T) (idx : Nat) (val : T) : Monolog T :=
  { m with slots := Function.update m.slots idx (some val) }

def setTail (m : Monolog T) (n : Nat) : Monolog T := { m with readTail := n }

@[simp] theorem get_fetchAdd (m : Monolog T) (n i : Nat) : (m.fetchAdd n).get i = m.get i := rfl
@[simp] theorem get_setTail (m : Monolog T) (n i : Nat) : (m.setTail n).get i = m.get i := rfl
@[simp] theorem get_set_self (m : Monolog T) (i : Nat) (v : T) : (m.set i v).get i = some v := by
  simp [get, set]
theorem get_set_other (m : Monolog T) {i j : Nat} (h : j ≠ i) (v : T) :
    (m.set i v).get j = m.get j := by simp [get, set, h]

/-- A call that appends. -/
inductive Push (T : Type) where
  | pushBack : T → Push T
  | pushBackRange : (first last : T) → Push T

namespace Push

variable [Ranged T]

def cnt : Push T → Nat
  | .pushBack _ => 1
  | .pushBackRange first last => Ranged.cnt first last

/-- The value stored at the call's position plus `i`. -/
def val : Push T → Nat → T
  | .pushBack v, _ => v
  | .pushBackRange first _, i => Ranged.nth first i

end Push

/-- A thread: in a call that reserved the positions from `start` on and has
stored `i` entries, with its local variable `idx`. -/
inductive Pusher (T : Type) where
  | idle : Pusher T
  | pushing : Push T → (start i idx : Nat) → Pusher T

/-- A call that has returned. -/
structure Pushed (T : Type) where
  push : Push T
  start : Nat
  returned : Nat

variable [Ranged T]

def Pusher.block : Pusher T → Option Block
  | .idle => none
  | .pushing p start _ _ => some ⟨start, p.cnt⟩

def Pushed.block (d : Pushed T) : Block := ⟨d.start, d.push.cnt⟩

/-- The log, its threads, and the calls that have returned, for the record. -/
structure Threads (T ω : Type) where
  log : Monolog T
  pushers : ω → Pusher T
  done : List (Pushed T)

namespace Threads

def init : Threads T ω := ⟨.empty, fun _ => .idle, []⟩

/-- The positions reserved and not yet published. -/
def pending (s : Threads T ω) (w : ω) : Option Block := (s.pushers w).block

/-- A call has returned whose positions start there. -/
def Shared (s : Threads T ω) (start : Nat) : Prop := ∃ d ∈ s.done, d.start = start

variable [DecidableEq ω]

/-- One atomic step of one thread. A weak compare-exchange can fail at any tail. -/
inductive Step : Threads T ω → Threads T ω → Prop where
  | reserve (s : Threads T ω) (w : ω) (p : Push T) (hw : s.pushers w = .idle) :
      Step s
        { s with
          log := s.log.fetchAdd p.cnt
          pushers := Function.update s.pushers w (.pushing p s.log.writeTail 0 s.log.writeTail) }
  | store (s : Threads T ω) (w : ω) (p : Push T) (start i idx : Nat)
      (hw : s.pushers w = .pushing p start i idx) (hi : i < p.cnt) :
      Step s
        { s with
          log := s.log.set (idx + i) (p.val i)
          pushers := Function.update s.pushers w (.pushing p start (i + 1) idx) }
  | fail (s : Threads T ω) (w : ω) (p : Push T) (start idx : Nat)
      (hw : s.pushers w = .pushing p start p.cnt idx) :
      Step s
        { s with pushers := Function.update s.pushers w (.pushing p start p.cnt s.log.readTail) }
  | succeed (s : Threads T ω) (w : ω) (p : Push T) (start idx : Nat)
      (hw : s.pushers w = .pushing p start p.cnt idx) (hr : s.log.readTail = idx) :
      Step s
        { log := s.log.setTail (idx + p.cnt)
          pushers := Function.update s.pushers w .idle
          done := s.done ++ [⟨p, start, idx⟩] }

/-- The states of a run from an empty log. -/
def Reached (s : Threads T ω) : Prop := Relation.ReflTransGen Step init s

/-- The comment in front of the class, and what its callers use the returned
positions for. -/
structure Promise (s : Threads T ω) : Prop where
  stored : ∀ i, i < s.log.size →
    ∃ d ∈ s.done, d.block.Holds i ∧ s.log.get i = some (d.push.val (i - d.start))
  ordered : s.done.Pairwise fun d d' => d.start + d.push.cnt ≤ d'.start
  covered : ∀ i, i < s.log.size ↔ ∃ d ∈ s.done, d.block.Holds i
  returned : ∀ d ∈ s.done, d.returned = d.start
  distinct : s.done.Pairwise fun d d' => d.returned ≠ d'.returned
  first : ∀ d ∈ s.done, d.push.cnt ≠ 0 → s.log.get d.returned = some (d.push.val 0)

/-- The step is a compare-exchange that succeeds with an expected value that an
earlier attempt wrote, or for a call at whose position an empty range has returned. -/
def Slips (s s' : Threads T ω) : Prop :=
  ∃ w p start idx, s.pushers w = .pushing p start p.cnt idx ∧ s.log.readTail = idx ∧
    s'.pushers w = .idle ∧ (idx ≠ start ∨ s.Shared start)

omit [DecidableEq ω] in
theorem not_slips_self (s : Threads T ω) : ¬ Slips s s := by
  rintro ⟨w, p, start, idx, hw, -, hidle, -⟩
  rw [hw] at hidle
  cases hidle

/-! ## Runs in which no step slips -/

/-- What holds while no step has slipped. -/
structure Sound (s : Threads T ω) : Prop where
  tiles : Tiles s.log.readTail s.log.writeTail s.pending
  progress : ∀ w p start i idx, s.pushers w = .pushing p start i idx →
    i ≤ p.cnt ∧ (i < p.cnt → idx = start) ∧ ∀ j, j < i → s.log.get (start + j) = some (p.val j)
  done_le : ∀ d ∈ s.done, d.start + d.push.cnt ≤ s.log.readTail
  done_stored : ∀ d ∈ s.done, ∀ j, j < d.push.cnt → s.log.get (d.start + j) = some (d.push.val j)

omit [DecidableEq ω] in
theorem sound_init : Sound (init : Threads T ω) :=
  ⟨Tiles.init, fun _ _ _ _ _ h => by simp [init] at h, fun _ h => by simp [init] at h,
    fun _ h => by simp [init] at h⟩

omit [DecidableEq ω] in
theorem promise_init : Promise (init : Threads T ω) :=
  ⟨fun _ h => absurd h (Nat.not_lt_zero _), List.Pairwise.nil,
    fun _ => by simp [init, size, empty], fun _ h => by simp [init] at h, List.Pairwise.nil,
    fun _ h => by simp [init] at h⟩

theorem pending_update (s : Threads T ω) (m : Monolog T) (ds : List (Pushed T)) (w : ω)
    (x : Pusher T) :
    pending ⟨m, Function.update s.pushers w x, ds⟩ = Function.update s.pending w x.block :=
  Function.comp_update Pusher.block s.pushers w x

/-- A thread that keeps its positions keeps the tiling. -/
theorem Sound.tiles_same {s : Threads T ω} (h : s.Sound) {w : ω} {x x' : Pusher T}
    (hw : s.pushers w = x) (hx : x'.block = x.block) :
    Tiles s.log.readTail s.log.writeTail (Function.update s.pending w x'.block) := by
  have hself : Function.update s.pending w x'.block = s.pending := by
    rw [hx, ← hw]
    exact Function.update_eq_self w s.pending
  rw [hself]
  exact h.tiles

omit [DecidableEq ω] in
/-- A thread's own positions are neither those of another thread nor below the read tail. -/
theorem Sound.own {s : Threads T ω} (h : s.Sound) {w : ω} {p : Push T} {start i idx j : Nat}
    (hw : s.pushers w = .pushing p start i idx) (hj : j < p.cnt) :
    s.log.readTail ≤ start + j ∧ ∀ v p' start' i' idx' j', s.pushers v = .pushing p' start' i' idx' →
      j' < p'.cnt → start' + j' = start + j → v = w := by
  have hold : Holds s.pending w (start + j) :=
    ⟨⟨start, p.cnt⟩, by rw [pending, hw]; rfl, by simp [Block.Holds, hj]⟩
  refine ⟨(h.tiles.inside hold).1, fun v p' start' i' idx' j' hv hj' heq => ?_⟩
  refine h.tiles.unique v w (start + j) ⟨⟨start', p'.cnt⟩, by rw [pending, hv]; rfl, ?_⟩ hold
  simp only [Block.Holds]
  omega

theorem sound_store {s : Threads T ω} (h : s.Sound) {w : ω} {p : Push T} {start i idx : Nat}
    (hw : s.pushers w = .pushing p start i idx) (hi : i < p.cnt) :
    Sound { s with
      log := s.log.set (idx + i) (p.val i)
      pushers := Function.update s.pushers w (.pushing p start (i + 1) idx) } := by
  obtain ⟨-, hidx, hstored⟩ := h.progress w p start i idx hw
  obtain rfl := hidx hi
  obtain ⟨hread, hown⟩ := h.own hw hi
  refine ⟨?_, fun v p' start' i' idx' hv => ?_, h.done_le, fun d hd j hj => ?_⟩
  · rw [pending_update]
    exact h.tiles_same hw rfl
  · by_cases hvw : v = w
    · subst hvw
      simp only [Function.update_self, Pusher.pushing.injEq] at hv
      obtain ⟨rfl, rfl, rfl, rfl⟩ := hv
      refine ⟨hi, fun _ => rfl, fun j hj => ?_⟩
      by_cases hji : j = i
      · subst hji
        exact get_set_self _ _ _
      · rw [get_set_other _ (by omega)]
        exact hstored j (by omega)
    · simp only [Function.update_of_ne hvw] at hv
      obtain ⟨hle, hidx', hstored'⟩ := h.progress v p' start' i' idx' hv
      refine ⟨hle, hidx', fun j hj => ?_⟩
      have hne : start' + j ≠ idx + i := fun heq =>
        hvw (hown v p' start' i' idx' j hv (by omega) heq)
      rw [get_set_other _ hne]
      exact hstored' j hj
  · have hle := h.done_le d hd
    rw [get_set_other _ (by omega)]
    exact h.done_stored d hd j hj

omit [DecidableEq ω] in
/-- The promise speaks of the calls that have returned, and of the entries below the tail. -/
theorem Promise.of_same {s s' : Threads T ω} (h : s.Promise) (hd : s'.done = s.done)
    (hr : s'.log.size = s.log.size) (hs : ∀ i, i < s.log.size → s'.log.get i = s.log.get i) :
    s'.Promise := by
  obtain ⟨stored, ordered, covered, returned, distinct, first⟩ := h
  refine ⟨fun i hi => ?_, hd ▸ ordered, hd ▸ hr ▸ covered, hd ▸ returned, hd ▸ distinct,
    fun d hmem hc => ?_⟩
  · rw [hr] at hi
    rw [hs i hi, hd]
    exact stored i hi
  · rw [hd] at hmem
    have hlt : d.returned < s.log.size := by
      rw [returned d hmem]
      exact (covered d.start).mpr ⟨d, hmem, Nat.le_refl _, Nat.lt_add_of_pos_right (by
        simpa [Pushed.block] using Nat.pos_of_ne_zero hc)⟩
    rw [hs _ hlt]
    exact first d hmem hc

/-- The call publishes its own positions and returns where they start. -/
theorem sound_succeed {s : Threads T ω} (h : s.Sound) {w : ω} {p : Push T}
    (hw : s.pushers w = .pushing p s.log.readTail p.cnt s.log.readTail) :
    Sound
      { log := s.log.setTail (s.log.readTail + p.cnt)
        pushers := Function.update s.pushers w .idle
        done := s.done ++ [⟨p, s.log.readTail, s.log.readTail⟩] } := by
  have hpend : s.pending w = some ⟨s.log.readTail, p.cnt⟩ := by rw [pending, hw]; rfl
  obtain ⟨-, -, hstored⟩ := h.progress w _ _ _ _ hw
  refine ⟨?_, fun v p' start' i' idx' hv => ?_, fun d hd => ?_, fun d hd j hj => ?_⟩
  · rw [pending_update]
    exact h.tiles.publish hpend
  · by_cases hvw : v = w
    · subst hvw
      simp at hv
    · simp only [Function.update_of_ne hvw] at hv
      exact h.progress v p' start' i' idx' hv
  · rcases List.mem_append.mp hd with hd | hd
    · exact Nat.le_trans (h.done_le d hd) (Nat.le_add_right _ _)
    · obtain rfl := List.mem_singleton.mp hd
      exact Nat.le_refl _
  · rcases List.mem_append.mp hd with hd | hd
    · exact h.done_stored d hd j hj
    · obtain rfl := List.mem_singleton.mp hd
      exact hstored j hj

theorem promise_succeed {s : Threads T ω} (h : s.Sound) (hp : s.Promise) {w : ω} {p : Push T}
    (hw : s.pushers w = .pushing p s.log.readTail p.cnt s.log.readTail)
    (hshared : ¬ s.Shared s.log.readTail) :
    Promise
      { log := s.log.setTail (s.log.readTail + p.cnt)
        pushers := Function.update s.pushers w .idle
        done := s.done ++ [⟨p, s.log.readTail, s.log.readTail⟩] } := by
  obtain ⟨-, -, hstored⟩ := h.progress w _ _ _ _ hw
  refine ⟨fun i hi => ?_, ?_, fun i => ?_, fun d hd => ?_, ?_, fun d hd hc => ?_⟩
  · by_cases hlt : i < s.log.readTail
    · obtain ⟨d, hd, hhold, hget⟩ := hp.stored i hlt
      exact ⟨d, List.mem_append_left _ hd, hhold, hget⟩
    · have hi' : i < s.log.readTail + p.cnt := hi
      refine ⟨_, List.mem_append_right _ List.mem_cons_self, ⟨Nat.le_of_not_lt hlt, hi'⟩, ?_⟩
      have := hstored (i - s.log.readTail) (by omega)
      rwa [Nat.add_sub_cancel' (Nat.le_of_not_lt hlt)] at this
  · rw [List.pairwise_append]
    refine ⟨hp.ordered, List.pairwise_singleton _ _, fun d hd d' hd' => ?_⟩
    obtain rfl := List.mem_singleton.mp hd'
    exact h.done_le d hd
  · have hi := hp.covered i
    simp only [size, setTail, List.mem_append, List.mem_singleton] at hi ⊢
    constructor
    · intro hlt
      by_cases hold : i < s.log.readTail
      · obtain ⟨d, hd, hhold⟩ := hi.mp hold
        exact ⟨d, .inl hd, hhold⟩
      · exact ⟨_, .inr rfl, Nat.le_of_not_lt hold, hlt⟩
    · rintro ⟨d, hd | rfl, hhold⟩
      · exact Nat.lt_add_right _ (hi.mpr ⟨d, hd, hhold⟩)
      · exact hhold.2
  · rcases List.mem_append.mp hd with hd | hd
    · exact hp.returned d hd
    · obtain rfl := List.mem_singleton.mp hd
      rfl
  · rw [List.pairwise_append]
    refine ⟨hp.distinct, List.pairwise_singleton _ _, fun d hd d' hd' heq => ?_⟩
    obtain rfl := List.mem_singleton.mp hd'
    exact hshared ⟨d, hd, (hp.returned d hd).symm.trans heq⟩
  · rcases List.mem_append.mp hd with hd | hd
    · exact hp.first d hd hc
    · obtain rfl := List.mem_singleton.mp hd
      exact hstored 0 (Nat.pos_of_ne_zero hc)

/-- A step that does not slip keeps the promise. -/
theorem promise_step {s s' : Threads T ω} (h : s.Sound) (hp : s.Promise) (hs : Step s s')
    (hno : ¬ Slips s s') : s'.Sound ∧ s'.Promise := by
  cases hs with
  | reserve w p hw =>
    refine ⟨⟨?_, fun v p' start i idx hv => ?_, h.done_le, h.done_stored⟩,
      hp.of_same rfl rfl fun _ _ => rfl⟩
    · rw [pending_update]
      exact h.tiles.reserve (by rw [pending, hw]; rfl) p.cnt
    · by_cases hvw : v = w
      · subst hvw
        simp only [Function.update_self, Pusher.pushing.injEq] at hv
        obtain ⟨rfl, rfl, rfl, rfl⟩ := hv
        exact ⟨Nat.zero_le _, fun _ => rfl, fun j hj => absurd hj (Nat.not_lt_zero j)⟩
      · simp only [Function.update_of_ne hvw] at hv
        exact h.progress v p' start i idx hv
  | store w p start i idx hw hi =>
    refine ⟨sound_store h hw hi, hp.of_same rfl rfl fun k hk => get_set_other _ ?_ _⟩
    obtain rfl := (h.progress w p start i idx hw).2.1 hi
    have hread := (h.own hw hi).1
    have hlt : k < s.log.readTail := hk
    omega
  | fail w p start idx hw =>
    refine ⟨⟨?_, fun v p' start' i idx' hv => ?_, h.done_le, h.done_stored⟩,
      hp.of_same rfl rfl fun _ _ => rfl⟩
    · rw [pending_update]
      exact h.tiles_same hw rfl
    · by_cases hvw : v = w
      · subst hvw
        simp only [Function.update_self, Pusher.pushing.injEq] at hv
        obtain ⟨rfl, rfl, rfl, rfl⟩ := hv
        exact ⟨Nat.le_refl _, fun hlt => absurd hlt (Nat.lt_irrefl _), (h.progress v _ _ _ _ hw).2.2⟩
      · simp only [Function.update_of_ne hvw] at hv
        exact h.progress v p' start' i idx' hv
  | succeed w p start idx hw hr =>
    have hnot : ¬ (idx ≠ start ∨ s.Shared start) := fun hbad =>
      hno ⟨w, p, start, idx, hw, hr, by simp, hbad⟩
    obtain ⟨heq, hshared⟩ := not_or.mp hnot
    obtain rfl : idx = start := not_not.mp heq
    subst hr
    exact ⟨sound_succeed h hw, promise_succeed h hp hw hshared⟩

/-- A step that slips returns a position that is not the call's own, or not its alone. -/
theorem not_promise_of_slips {s s' : Threads T ω} (hp : s.Promise) (hs : Step s s')
    (hbad : Slips s s') : ¬ s'.Promise := by
  obtain ⟨w, p, start, idx, hw, hr, hidle, hbad⟩ := hbad
  have busy : ∀ {v : ω} {x : Pusher T}, x ≠ .idle →
      Function.update s.pushers v x w ≠ .idle := by
    intro v x hx hidle
    by_cases hwv : w = v
    · subst hwv
      rw [Function.update_self] at hidle
      exact hx hidle
    · rw [Function.update_of_ne hwv, hw] at hidle
      cases hidle
  cases hs with
  | reserve v p' hv => exact absurd hidle (busy (by simp))
  | store v p' start' i idx' hv hi => exact absurd hidle (busy (by simp))
  | fail v p' start' idx' hv => exact absurd hidle (busy (by simp))
  | succeed v p' start' idx' hv hr' =>
    have hwv : w = v := by
      by_contra hwv
      simp only [Function.update_of_ne hwv, hw] at hidle
      cases hidle
    subst hwv
    rw [hw] at hv
    cases hv
    intro hp'
    have hret := hp'.returned ⟨p, start, idx⟩ (by simp)
    rcases hbad with hne | ⟨d, hd, hstart⟩
    · exact hne hret
    · have hdist := (List.pairwise_append.mp hp'.distinct).2.2 d hd ⟨p, start, idx⟩ (by simp)
      exact hdist ((hp.returned d hd).trans (hstart.trans hret.symm))

/-- In a run, every state keeps the promise exactly if no step slips. -/
theorem promise_run_iff (states : List (Threads T ω)) (hrun : List.IsChain Step (init :: states)) :
    (∀ s ∈ init :: states, Promise s) ↔
      List.IsChain (fun s s' => ¬ Slips s s') (init :: states) :=
  GuardedRun.forall_good_iff (fun _ _ hi hg hs hno => promise_step hi hg hs hno)
    (fun _ _ _ hg hs hbad => not_promise_of_slips hg hs hbad) states init sound_init promise_init
    hrun

/-! ## One call at a time -/

/-- At most one thread is in a call. The calls append one entry each, and none has lost its
position. -/
structure OneCall (s : Threads T ω) : Prop where
  one : ∀ w w', s.pushers w ≠ .idle → s.pushers w' ≠ .idle → w = w'
  own : ∀ w p start i idx, s.pushers w = .pushing p start i idx → p.cnt = 1 ∧ idx = start
  done : ∀ d ∈ s.done, d.push.cnt = 1

omit [DecidableEq ω] in
theorem oneCall_init : OneCall (init : Threads T ω) :=
  ⟨fun _ _ h => absurd rfl h, fun _ _ _ _ _ h => (nomatch h), fun _ h => absurd h List.not_mem_nil⟩

omit [DecidableEq ω] in
/-- The call has the position at the read tail. -/
theorem OneCall.start_eq {s : Threads T ω} (h : s.OneCall) (hs : s.Sound) {w : ω} {p : Push T}
    {start i idx : Nat} (hw : s.pushers w = .pushing p start i idx) :
    start = s.log.readTail := by
  obtain ⟨hcnt, -⟩ := h.own w p start i idx hw
  have hpend : s.pending w = some ⟨start, 1⟩ := by
    rw [pending, hw, Pusher.block, hcnt]
  obtain ⟨hread, hwrite⟩ := hs.tiles.block_inside hpend Nat.one_ne_zero
  obtain ⟨v, b, hb, hhold⟩ :=
    (hs.tiles.holds s.log.readTail).mpr ⟨Nat.le_refl _, Nat.lt_of_le_of_lt hread hwrite⟩
  have hvw : v = w := by
    refine h.one v w (fun hv => ?_) (fun hidle => ?_)
    · rw [pending, hv] at hb
      cases hb
    · rw [hw] at hidle
      cases hidle
  subst hvw
  obtain rfl := Option.some.inj (hpend.symm.trans hb)
  exact Nat.le_antisymm hhold.1 hread

omit [DecidableEq ω] in
/-- With one call at a time no step slips. -/
theorem OneCall.not_slips {s t : Threads T ω} (h : s.OneCall) (hs : s.Sound) : ¬ Slips s t := by
  rintro ⟨w, p, start, idx, hw, hr, -, hne | ⟨d, hd, hstart⟩⟩
  · exact hne (h.own w p start _ idx hw).2
  · have hle := hs.done_le d hd
    have heq := h.start_eq hs hw
    rw [h.done d hd, hstart] at hle
    omega

theorem OneCall.step {s t : Threads T ω} (h : s.OneCall) (hsound : s.Sound) (hs : Step s t)
    (hone : ∀ w w', t.pushers w ≠ .idle → t.pushers w' ≠ .idle → w = w')
    (hcnt : ∀ w p start i idx, s.pushers w = .idle → t.pushers w = .pushing p start i idx →
      p.cnt = 1) : t.OneCall := by
  -- The other threads are as they were.
  have hown : ∀ {w : ω} {x : Pusher T}, (∀ p start i idx, x = .pushing p start i idx →
      p.cnt = 1 ∧ idx = start) → ∀ v p start i idx,
      Function.update s.pushers w x v = .pushing p start i idx → p.cnt = 1 ∧ idx = start := by
    intro w x hx v p start i idx hv
    by_cases hvw : v = w
    · subst hvw
      rw [Function.update_self] at hv
      exact hx p start i idx hv
    · rw [Function.update_of_ne hvw] at hv
      exact h.own v p start i idx hv
  cases hs with
  | reserve w p hw =>
    refine ⟨hone, hown fun q start i idx hq => ?_, h.done⟩
    cases hq
    exact ⟨hcnt w _ _ _ _ hw (Function.update_self _ _ _), rfl⟩
  | store w p start i idx hw hi =>
    refine ⟨hone, hown fun q start' i' idx' hq => ?_, h.done⟩
    cases hq
    exact h.own w p start i idx hw
  | fail w p start idx hw =>
    refine ⟨hone, hown fun q start' i' idx' hq => ?_, h.done⟩
    cases hq
    exact ⟨(h.own w p start _ idx hw).1, (h.start_eq hsound hw).symm⟩
  | succeed w p start idx hw hr =>
    refine ⟨hone, hown fun q start' i' idx' hq => (nomatch hq), fun d hd => ?_⟩
    rcases List.mem_append.mp hd with hd | hd
    · exact h.done d hd
    · obtain rfl := List.mem_singleton.mp hd
      exact (h.own w p start _ idx hw).1

/-! ## Threads that take turns -/

/-- The thread begins the call, or goes on with its own; its attempt fails only at another tail. -/
def turn (s : Threads T ω) (w : ω) (call : Option (Push T)) : Option (Threads T ω) :=
  match s.pushers w with
  | .idle => call.map fun p =>
    { s with
      log := s.log.fetchAdd p.cnt
      pushers := Function.update s.pushers w (.pushing p s.log.writeTail 0 s.log.writeTail) }
  | .pushing p start i idx =>
    if i < p.cnt then
      some
        { s with
          log := s.log.set (idx + i) (p.val i)
          pushers := Function.update s.pushers w (.pushing p start (i + 1) idx) }
    else if i = p.cnt then
      if s.log.readTail = idx then
        some
          { log := s.log.setTail (idx + p.cnt)
            pushers := Function.update s.pushers w .idle
            done := s.done ++ [⟨p, start, idx⟩] }
      else
        some
          { s with pushers := Function.update s.pushers w (.pushing p start p.cnt s.log.readTail) }
    else none

theorem step_of_turn {s t : Threads T ω} {w : ω} {call : Option (Push T)}
    (h : s.turn w call = some t) : Step s t := by
  unfold turn at h
  split at h
  · next hw =>
    obtain ⟨p, -, rfl⟩ := Option.map_eq_some_iff.mp h
    exact .reserve s w p hw
  · next p start i idx hw =>
    split at h
    · next hi =>
      cases h
      exact .store s w p start i idx hw hi
    · split at h
      · next hi =>
        subst hi
        split at h
        · next hr =>
          cases h
          exact .succeed s w p start idx hw hr
        · cases h
          exact .fail s w p start idx hw
      · cases h

/-- The thread, should it publish, does so at its own position, and no call has returned there. -/
def clean (s : Threads T ω) (w : ω) : Bool :=
  match s.pushers w with
  | .idle => true
  | .pushing _ start _ idx =>
    decide (s.log.readTail = idx → idx = start ∧ ∀ d ∈ s.done, d.start ≠ start)

theorem turn_others {s t : Threads T ω} {w : ω} {call : Option (Push T)}
    (h : s.turn w call = some t) {v : ω} (hv : v ≠ w) : t.pushers v = s.pushers v := by
  unfold turn at h
  split at h
  · obtain ⟨q, -, rfl⟩ := Option.map_eq_some_iff.mp h
    exact Function.update_of_ne hv _ _
  · split at h
    · cases h
      exact Function.update_of_ne hv _ _
    · split at h
      · split at h <;> cases h <;> exact Function.update_of_ne hv _ _
      · cases h

theorem not_slips_of_turn {s t : Threads T ω} {w : ω} {call : Option (Push T)}
    (h : s.turn w call = some t) (hclean : s.clean w = true) : ¬ Slips s t := by
  rintro ⟨v, p, start, idx, hv, hr, hidle, hbad⟩
  -- The thread that has returned is the one whose turn it was.
  have hvw : v = w := by
    by_contra hne
    rw [turn_others h hne, hv] at hidle
    cases hidle
  subst hvw
  rw [clean, hv] at hclean
  obtain ⟨heq, hnone⟩ := of_decide_eq_true hclean hr
  rcases hbad with hne | ⟨d, hd, hstart⟩
  · exact hne heq
  · exact hnone d hd hstart

/-- A turn of a thread that is clean. -/
def cleanTurn (s : Threads T ω) (t : ω × Option (Push T)) : Option (Threads T ω) :=
  if s.clean t.1 then s.turn t.1 t.2 else none

theorem step_of_cleanTurn (s : Threads T ω) (t : ω × Option (Push T)) (s' : Threads T ω)
    (h : s.cleanTurn t = some s') : Step s s' ∧ ¬ Slips s s' := by
  obtain ⟨hclean, hturn⟩ := Option.ite_none_right_eq_some.mp h
  exact ⟨step_of_turn hturn, not_slips_of_turn hturn hclean⟩

/-- A thread that goes on with its call lets the others rest. -/
theorem cleanTurn_idle {s s' : Threads T ω} {w v : ω} (h : s.cleanTurn (w, none) = some s')
    (hv : s.pushers v = .idle) : s'.pushers v = .idle := by
  obtain ⟨-, hturn⟩ := Option.ite_none_right_eq_some.mp h
  by_cases hvw : v = w
  · subst hvw
    rw [turn, hv] at hturn
    cases hturn
  · rw [turn_others hturn hvw]
    exact hv

/-- Two threads add an entry each. The second one stores first, its attempt fails twice, and it
publishes behind the first one. -/
def twoPushes : List (Bool × Option (Push UInt64)) :=
  [(false, some (.pushBack 7)), (true, some (.pushBack 8)), (true, none), (true, none),
    (false, none), (false, none), (true, none), (true, none)]

theorem twoPushes_promise : ∃ states : List (Threads UInt64 Bool),
    states.map (fun s => s.log.size) = [0, 0, 0, 0, 0, 1, 1, 2] ∧ ∀ s ∈ states, s.Promise := by
  obtain ⟨states, hstates, hsizes⟩ := Option.map_eq_some_iff.mp
    (by decide +kernel : (Schedule.states cleanTurn (init : Threads UInt64 Bool) twoPushes).map
      (fun states => states.map fun s => s.log.size) = some [0, 0, 0, 0, 0, 1, 1, 2])
  have hrun := Schedule.states_isChain step_of_cleanTurn hstates
  refine ⟨states, hsizes, fun s hs => ?_⟩
  exact (promise_run_iff states (hrun.imp fun _ _ h => h.1)).mpr (hrun.imp fun _ _ h => h.2) s
    (List.mem_cons_of_mem _ hs)

/-- The call that reserved position 1 fails once and then publishes position 0,
where nothing is stored, and returns it. -/
theorem promise_broken : ∃ s : Threads UInt64 Bool, Reached s ∧ ¬ s.Promise ∧
    0 < s.log.size ∧ s.log.get 0 = none := by
  refine ⟨_, .head (Step.reserve _ false (.pushBack 7) rfl)
    (.head (Step.reserve _ true (.pushBack 8) rfl)
    (.head (Step.store _ true (.pushBack 8) 1 0 1 rfl Nat.zero_lt_one)
    (.head (Step.fail _ true (.pushBack 8) 1 1 rfl)
    (.single (Step.succeed _ true (.pushBack 8) 1 0 rfl rfl))))), fun h => ?_, Nat.zero_lt_one, rfl⟩
  exact Nat.zero_ne_one (h.returned ⟨.pushBack 8, 1, 0⟩ (List.mem_append_right _ (by simp)))

end Threads

end Monolog

end Netplay
