import Netplay.MonologLinearizable
import Netplay.StreamEntries

/-!
# Streams that are added by `push_back`

`streams_` as the linearizable monolog of pointers that it is. `add_stream` makes a `streamlog` and
puts its address there with the steps of `push_back`; `update_streams` takes the number of streams
from the read tail and reads their addresses. As long as no compare-exchange slips, streams appear
as if each were added in one step, and what holds of their lists holds here. With one `add_stream`
at a time none slips.
-/

namespace Netplay

open Monolog (Threads)

/-- One atomic step of `update_streams` for a record, with the addresses that are in `streams_`. -/
def StreamPhase.nextAt (id : Nat) (r : Record) (streams : Monolog UInt64)
    (logs : UInt64 → Option Streamlog) :
    StreamPhase → Option ((UInt64 → Option Streamlog) × StreamPhase)
  | .checking num i =>
    if i < num then
      (streams.get i).bind fun a => (logs a).map fun σ =>
        (logs, if (σ.fn id r).1 then .pushing num i (σ.fn id r).2 else .checking num (i + 1))
    else some (logs, .behind num)
  | .pushing num i val =>
    (streams.get i).bind fun a => (logs a).map fun σ =>
      (Function.update logs a (some (σ.fetchAdd id val)), .storing num i val σ.tail)
  | .storing num i val idx =>
    (streams.get i).bind fun a => (logs a).map fun σ =>
      (Function.update logs a (some (σ.store idx val)), .checking num (i + 1))
  | _ => none

/-- The store with its callers, the `streamlog`s at their addresses, `streams_` with the threads
in `add_stream`, and where the calls stand with the streams. -/
structure Hosting (D ω α : Type) where
  store : LogStore D
  callers : ω → Caller
  logs : UInt64 → Option Streamlog
  streams : Threads UInt64 α
  phases : ω → StreamPhase
  done : List StreamDone

namespace Hosting

variable {D ω α : Type}

/-- The number of streams. -/
def numStreams (s : Hosting D ω α) : Nat := s.streams.log.size

/-- `streams_->at`, and the `streamlog` at the address. -/
def stream (s : Hosting D ω α) (k : Nat) : Option Streamlog := (s.streams.log.get k).bind s.logs

/-! ## Streams added in one step -/

/-- The state with its streams as a list. -/
def withStreams (s : Hosting D ω α) (σs : List Streamlog) : Streaming D ω :=
  ⟨s.store, s.callers, σs, s.phases, s.done⟩

/-- The list has the streams, each at its own address; those of the threads that are about to
publish them are new. -/
structure Hosts (s : Hosting D ω α) (σs : List Streamlog) : Prop where
  sound : s.streams.Sound
  promise : s.streams.Promise
  length : σs.length = s.numStreams
  published : ∀ i σ, σs[i]? = some σ → ∃ a, s.streams.log.get i = some a ∧ s.logs a = some σ
  apart : ∀ i j a, i < s.numStreams → j < s.numStreams → s.streams.log.get i = some a →
    s.streams.log.get j = some a → i = j
  pushing : ∀ v p start i idx, s.streams.pushers v = .pushing p start i idx →
    ∃ a fn, p = .pushBack a ∧ s.logs a = some (.new fn) ∧
      ∀ j, j < s.numStreams → s.streams.log.get j ≠ some a
  alone : ∀ v v' a start i idx start' i' idx',
    s.streams.pushers v = .pushing (.pushBack a) start i idx →
    s.streams.pushers v' = .pushing (.pushBack a) start' i' idx' → v = v'

variable {s : Hosting D ω α} {σs : List Streamlog}

/-- A published stream is at its address. -/
theorem Hosts.stream_eq (h : s.Hosts σs) {i : Nat} {σ : Streamlog} (hσ : s.stream i = some σ)
    (hi : i < s.numStreams) : σs[i]? = some σ := by
  have hlt : i < σs.length := by
    rw [h.length]
    exact hi
  obtain ⟨a, ha, hlog⟩ := h.published i _ (List.getElem?_eq_getElem hlt)
  rw [stream, ha, Option.bind_some, hlog] at hσ
  rw [List.getElem?_eq_getElem hlt, hσ]

theorem Hosts.stream_of_get (h : s.Hosts σs) {i : Nat} {σ : Streamlog} (hσ : σs[i]? = some σ) :
    s.stream i = some σ := by
  obtain ⟨a, ha, hlog⟩ := h.published i σ hσ
  rw [stream, ha, Option.bind_some, hlog]

/-- A step of a call on one stream. -/
theorem Hosts.set (h : s.Hosts σs) {i : Nat} {a : UInt64} {σ σ' : Streamlog}
    (ha : s.streams.log.get i = some a) (hσ : σs[i]? = some σ) {phases : ω → StreamPhase} :
    Hosts { s with logs := Function.update s.logs a (some σ'), phases := phases }
      (σs.set i σ') := by
  have hi : i < s.numStreams := by
    rw [← h.length]
    exact (List.getElem?_eq_some_iff.mp hσ).1
  refine ⟨h.sound, h.promise, by rw [List.length_set]; exact h.length, fun j τ hτ => ?_, h.apart,
    fun v p start k idx hv => ?_, h.alone⟩
  · by_cases hij : i = j
    · subst hij
      rw [List.getElem?_set_self (List.getElem?_eq_some_iff.mp hσ).1] at hτ
      exact ⟨a, ha, (Function.update_self _ _ _).trans hτ⟩
    · rw [List.getElem?_set_ne hij] at hτ
      obtain ⟨b, hb, hlog⟩ := h.published j τ hτ
      have hj : j < s.numStreams := by
        rw [← h.length]
        exact (List.getElem?_eq_some_iff.mp hτ).1
      have hba : b ≠ a := by
        rintro rfl
        exact hij (h.apart i j b hi hj ha hb)
      exact ⟨b, hb, (Function.update_of_ne hba _ _).trans hlog⟩
  · obtain ⟨b, fn, hp, hlog, hnot⟩ := h.pushing v p start k idx hv
    have hba : b ≠ a := by
      rintro rfl
      exact hnot i hi ha
    exact ⟨b, fn, hp, (Function.update_of_ne hba _ _).trans hlog, hnot⟩

/-- A step of a call with the streams is one with the list. -/
theorem Hosts.next [DecidableEq ω] (h : s.Hosts σs) {w : ω} {r : Record} {id : Nat}
    {logs : UInt64 → Option Streamlog} {p : StreamPhase}
    (hfits : (s.phases w).Fits (σs.map Streamlog.fn) id r)
    (hnext : (s.phases w).nextAt id r s.streams.log s.logs = some (logs, p)) :
    ∃ σs', (s.phases w).next id r σs = some (σs', p) ∧
      Hosts { s with logs := logs, phases := Function.update s.phases w p } σs' := by
  -- The stream that the call is at is in the list.
  have hat : ∀ {num i : Nat} {a : UInt64} {σ : Streamlog}, num ≤ (σs.map Streamlog.fn).length →
      i < num → s.streams.log.get i = some a → s.logs a = some σ → σs[i]? = some σ := by
    intro num i a σ hnum hi ha hlog
    rw [List.length_map] at hnum
    have hget := List.getElem?_eq_getElem (Nat.lt_of_lt_of_le hi hnum)
    obtain ⟨b, hb, hlog'⟩ := h.published i _ hget
    obtain rfl := Option.some.inj (hb.symm.trans ha)
    rw [hget, ← hlog', hlog]
  cases hp : s.phases w with
  | before =>
    rw [hp] at hnext
    cases hnext
  | behind num =>
    rw [hp] at hnext
    cases hnext
  | checking num i =>
    rw [hp] at hnext hfits
    rw [StreamPhase.nextAt] at hnext
    rw [StreamPhase.next]
    split at hnext
    · next hi =>
      obtain ⟨a, ha, hnext⟩ := Option.bind_eq_some_iff.mp hnext
      obtain ⟨σ, hσ, heq⟩ := Option.map_eq_some_iff.mp hnext
      cases heq
      refine ⟨σs, by rw [if_pos hi, hat hfits.1 hi ha hσ, Option.map_some], ?_⟩
      exact ⟨h.sound, h.promise, h.length, h.published, h.apart, h.pushing, h.alone⟩
    · next hi =>
      cases hnext
      exact ⟨σs, by rw [if_neg hi], h.sound, h.promise, h.length, h.published, h.apart, h.pushing,
        h.alone⟩
  | pushing num i val =>
    rw [hp] at hnext hfits
    obtain ⟨a, ha, hnext⟩ := Option.bind_eq_some_iff.mp hnext
    obtain ⟨σ, hσ, heq⟩ := Option.map_eq_some_iff.mp hnext
    cases heq
    have hget := hat hfits.1 hfits.2.1 ha hσ
    exact ⟨_, by rw [StreamPhase.next, hget, Option.map_some], h.set ha hget⟩
  | storing num i val idx =>
    rw [hp] at hnext hfits
    obtain ⟨a, ha, hnext⟩ := Option.bind_eq_some_iff.mp hnext
    obtain ⟨σ, hσ, heq⟩ := Option.map_eq_some_iff.mp hnext
    cases heq
    have hget := hat hfits.1 hfits.2.1 ha hσ
    exact ⟨_, by rw [StreamPhase.next, hget, Option.map_some], h.set ha hget⟩

/-! ## Steps -/

variable [Datalog D]

def init (indexes : (k : Nat) → List (LogIndex k)) (roles : ω → Role) : Hosting D ω α :=
  ⟨{ LogStore.empty with indexes := indexes }, fun w => .ofRole (roles w), fun _ => none, .init,
    fun _ => .before, []⟩

theorem hosts_init (indexes : (k : Nat) → List (LogIndex k)) (roles : ω → Role) :
    Hosts (init indexes roles : Hosting D ω α) [] where
  sound := Monolog.Threads.sound_init
  promise := Monolog.Threads.promise_init
  length := rfl
  published _ _ h := by cases h
  apart _ _ _ h := absurd h (Nat.not_lt_zero _)
  pushing _ _ _ _ _ h := by cases h
  alone _ _ _ _ _ _ _ _ _ h := by cases h

variable [DecidableEq ω] [DecidableEq α]

/-- The steps of the callers; a thread that makes a `streamlog`, at an address that is not in use,
and takes its position; and the other steps of a `push_back`. -/
inductive Step : Hosting D ω α → Hosting D ω α → Prop where
  | token (s : Hosting D ω α) (w : ω) (x : Caller) (id : Nat) (t : Token) (x' : Caller)
      (st : LogStore D) (hw : s.callers w = x) (hx : x.nextToken = some (id, t, x'))
      (h : s.store.addEntry id t = .ok st) :
      Step s { s with store := st, callers := Function.update s.callers w x' }
  | log (s : Hosting D ω α) (w : ω) (x : Caller) (st : LogStore D) (x' : Caller)
      (hw : s.callers w = x) (hx : x.nextToken = none) (h : x.Step s.store st x')
      (hat : x.atStreams = true → ∃ num, s.phases w = .behind num)
      (hopen : x'.current = none → x.current = none) :
      Step s { s with store := st, callers := Function.update s.callers w x' }
  | finish (s : Hosting D ω α) (w : ω) (x : Caller) (st : LogStore D) (x' : Caller) (r : Record)
      (id num : Nat) (hw : s.callers w = x) (h : x.Step s.store st x')
      (hx : x.current = some (r, id)) (hx' : x'.current = none)
      (hphase : s.phases w = .behind num) :
      Step s
        { store := st
          callers := Function.update s.callers w x'
          logs := s.logs
          streams := s.streams
          phases := Function.update s.phases w .before
          done := s.done ++ [⟨r, id, num⟩] }
  | enter (s : Hosting D ω α) (w : ω) (hat : (s.callers w).atStreams = true)
      (hphase : s.phases w = .before) :
      Step s { s with phases := Function.update s.phases w (.checking s.numStreams 0) }
  | stream (s : Hosting D ω α) (w : ω) (r : Record) (id : Nat) (logs : UInt64 → Option Streamlog)
      (p : StreamPhase) (hx : (s.callers w).current = some (r, id))
      (hnext : (s.phases w).nextAt id r s.streams.log s.logs = some (logs, p)) :
      Step s { s with logs := logs, phases := Function.update s.phases w p }
  | addStream (s : Hosting D ω α) (v : α) (fn : FilterFunction) (a : UInt64)
      (ha : s.logs a = none) (hv : s.streams.pushers v = .idle) :
      Step s
        { s with
          logs := Function.update s.logs a (some (.new fn))
          streams := { s.streams with
            log := s.streams.log.fetchAdd 1
            pushers := Function.update s.streams.pushers v
              (.pushing (.pushBack a) s.streams.log.writeTail 0 s.streams.log.writeTail) } }
  | push (s : Hosting D ω α) (t : Threads UInt64 α) (h : Threads.Step s.streams t)
      (hnone : ∀ v, s.streams.pushers v = .idle → t.pushers v = .idle) :
      Step s { s with streams := t }

/-- A step that is not a compare-exchange of `add_stream` with another call's value. -/
def Careful (s s' : Hosting D ω α) : Prop := Step s s' ∧ ¬ Threads.Slips s.streams s'.streams

def Reached (indexes : (k : Nat) → List (LogIndex k)) (roles : ω → Role) (s : Hosting D ω α) :
    Prop :=
  Relation.ReflTransGen Careful (init indexes roles) s

variable {s s' : Hosting D ω α} {σs : List Streamlog}

omit [Datalog D] [DecidableEq ω] [DecidableEq α] in
/-- The streams do not see the other parts of the state. -/
theorem Hosts.congr (h : s.Hosts σs) (hlogs : s'.logs = s.logs) (hstreams : s'.streams = s.streams) :
    s'.Hosts σs := by
  obtain ⟨store, callers, logs, streams, phases, done⟩ := s'
  subst hlogs hstreams
  exact ⟨h.sound, h.promise, h.length, h.published, h.apart, h.pushing, h.alone⟩

omit [Datalog D] [DecidableEq ω] [DecidableEq α] in
/-- An address that is not in use is not in `streams_`. -/
theorem Hosts.not_published (h : s.Hosts σs) {a : UInt64} (ha : s.logs a = none) {j : Nat}
    (hj : j < s.numStreams) : s.streams.log.get j ≠ some a := by
  intro hget
  rw [← h.length] at hj
  obtain ⟨b, hb, hlogb⟩ := h.published j _ (List.getElem?_eq_getElem hj)
  obtain rfl := Option.some.inj (hb.symm.trans hget)
  rw [ha] at hlogb
  cases hlogb

omit [Datalog D] [DecidableEq ω] [DecidableEq α] in
/-- No thread is about to put it there. -/
theorem Hosts.not_pushed (h : s.Hosts σs) {a c : UInt64} (ha : s.logs a = none) {v : α}
    {start i idx : Nat} (hv : s.streams.pushers v = .pushing (.pushBack c) start i idx) : c ≠ a := by
  rintro rfl
  obtain ⟨b, fn, hp, hlogb, -⟩ := h.pushing v _ _ _ _ hv
  cases hp
  rw [ha] at hlogb
  cases hlogb

omit [Datalog D] [DecidableEq ω] in
/-- A thread in `add_stream` takes a position for a new stream. -/
theorem Hosts.addStream (h : s.Hosts σs) {v : α} {fn : FilterFunction} {a : UInt64}
    (ha : s.logs a = none) (hv : s.streams.pushers v = .idle) {streams : Threads UInt64 α}
    (hsound : streams.Sound) (hpromise : streams.Promise)
    (hlog : streams.log = s.streams.log.fetchAdd 1)
    (hpushers : streams.pushers = Function.update s.streams.pushers v
      (.pushing (.pushBack a) s.streams.log.writeTail 0 s.streams.log.writeTail)) :
    Hosts { s with logs := Function.update s.logs a (some (.new fn)), streams := streams } σs := by
  -- The address was not in use.
  have hold : ∀ {b : UInt64} {σ : Streamlog}, s.logs b = some σ →
      Function.update s.logs a (some (.new fn)) b = some σ := by
    intro b σ hb
    have hba : b ≠ a := by
      rintro rfl
      rw [ha] at hb
      cases hb
    rw [Function.update_of_ne hba, hb]
  have hothers : ∀ w p start i idx, w ≠ v → streams.pushers w = .pushing p start i idx →
      s.streams.pushers w = .pushing p start i idx := by
    intro w p start i idx hwv hw
    rwa [hpushers, Function.update_of_ne hwv] at hw
  have hmine : ∀ p start i idx, streams.pushers v = .pushing p start i idx → p = .pushBack a := by
    intro p start i idx hw
    rw [hpushers, Function.update_self] at hw
    cases hw
    rfl
  have hnum : streams.log.size = s.numStreams := by
    rw [hlog]
    rfl
  have hget : ∀ j, streams.log.get j = s.streams.log.get j := fun j => by
    rw [hlog, Monolog.get_fetchAdd]
  refine ⟨hsound, hpromise, h.length.trans hnum.symm, fun i σ hσ => ?_,
    fun i j b hi hj hib hjb => ?_, fun w p start i idx hw => ?_,
    fun w w' b start i idx start' i' idx' hw hw' => ?_⟩
  · obtain ⟨b, hb, hlogb⟩ := h.published i σ hσ
    exact ⟨b, (hget i).trans hb, hold hlogb⟩
  · exact h.apart i j b (Nat.lt_of_lt_of_eq hi hnum) (Nat.lt_of_lt_of_eq hj hnum)
      ((hget i).symm.trans hib) ((hget j).symm.trans hjb)
  · by_cases hwv : w = v
    · subst hwv
      refine ⟨a, fn, hmine p start i idx hw, Function.update_self _ _ _, fun j hj => ?_⟩
      rw [hget]
      exact h.not_published ha (Nat.lt_of_lt_of_eq hj hnum)
    · obtain ⟨b, fn', hp, hlogb, hnot⟩ := h.pushing w p start i idx (hothers w p start i idx hwv hw)
      refine ⟨b, fn', hp, hold hlogb, fun j hj => ?_⟩
      rw [hget]
      exact hnot j (Nat.lt_of_lt_of_eq hj hnum)
  · by_cases hwv : w = v
    · by_cases hwv' : w' = v
      · rw [hwv, hwv']
      · subst hwv
        cases hmine _ _ _ _ hw
        exact absurd rfl (h.not_pushed ha (hothers w' _ _ _ _ hwv' hw'))
    · by_cases hwv' : w' = v
      · subst hwv'
        cases hmine _ _ _ _ hw'
        exact absurd rfl (h.not_pushed ha (hothers w _ _ _ _ hwv hw))
      · exact h.alone w w' b _ _ _ _ _ _ (hothers w _ _ _ _ hwv hw) (hothers w' _ _ _ _ hwv' hw')

omit [Datalog D] [DecidableEq ω] [DecidableEq α] in
/-- A step of a `push_back` that publishes nothing. -/
theorem Hosts.keep (h : s.Hosts σs) {t : Threads UInt64 α} (hsound : t.Sound) (hpromise : t.Promise)
    (hsize : t.log.size = s.numStreams)
    (hget : ∀ j, j < s.numStreams → t.log.get j = s.streams.log.get j)
    (hpushers : ∀ v p start i idx, t.pushers v = .pushing p start i idx →
      ∃ i' idx', s.streams.pushers v = .pushing p start i' idx') :
    Hosts { s with streams := t } σs := by
  refine ⟨hsound, hpromise, h.length.trans hsize.symm, fun i σ hσ => ?_,
    fun i j b hi hj hib hjb => ?_, fun v p start i idx hv => ?_,
    fun v v' b start i idx start' i' idx' hv hv' => ?_⟩
  · obtain ⟨b, hb, hlog⟩ := h.published i σ hσ
    have hi : i < s.numStreams := by
      rw [← h.length]
      exact (List.getElem?_eq_some_iff.mp hσ).1
    exact ⟨b, (hget i hi).trans hb, hlog⟩
  · have hi' := Nat.lt_of_lt_of_eq hi hsize
    have hj' := Nat.lt_of_lt_of_eq hj hsize
    exact h.apart i j b hi' hj' ((hget i hi').symm.trans hib) ((hget j hj').symm.trans hjb)
  · obtain ⟨i', idx', hv⟩ := hpushers v p start i idx hv
    obtain ⟨a, fn, hp, hlog, hnot⟩ := h.pushing v p start i' idx' hv
    refine ⟨a, fn, hp, hlog, fun j hj => ?_⟩
    have hj' := Nat.lt_of_lt_of_eq hj hsize
    rw [hget j hj']
    exact hnot j hj'
  · obtain ⟨j, jdx, hv⟩ := hpushers v _ start i idx hv
    obtain ⟨j', jdx', hv'⟩ := hpushers v' _ start' i' idx' hv'
    exact h.alone v v' b start j jdx start' j' jdx' hv hv'

omit [Datalog D] [DecidableEq ω] in
/-- The compare-exchange with which a stream gets the next number. -/
theorem Hosts.publish (h : s.Hosts σs) {v : α} {p : Monolog.Push UInt64}
    (hv : s.streams.pushers v = .pushing p s.streams.log.readTail p.cnt s.streams.log.readTail)
    {t : Threads UInt64 α} (hsound : t.Sound) (hpromise : t.Promise)
    (hlog : t.log = s.streams.log.setTail (s.streams.log.readTail + p.cnt))
    (hpushers : t.pushers = Function.update s.streams.pushers v .idle) :
    ∃ fn, Hosts { s with streams := t } (σs ++ [.new fn]) := by
  obtain ⟨a, fn, rfl, hloga, hnot⟩ := h.pushing v _ _ _ _ hv
  have hstored : s.streams.log.get s.numStreams = some a :=
    (h.sound.progress v _ _ _ _ hv).2.2 0 Nat.zero_lt_one
  have hsize : t.log.size = s.numStreams + 1 := by
    rw [hlog]
    rfl
  have hget : ∀ j, t.log.get j = s.streams.log.get j := fun j => by
    rw [hlog, Monolog.get_setTail]
  have hothers : ∀ w q start i idx, t.pushers w = .pushing q start i idx →
      w ≠ v ∧ s.streams.pushers w = .pushing q start i idx := by
    intro w q start i idx hw
    have hwv : w ≠ v := by
      rintro rfl
      rw [hpushers, Function.update_self] at hw
      cases hw
    rw [hpushers, Function.update_of_ne hwv] at hw
    exact ⟨hwv, hw⟩
  refine ⟨fn, hsound, hpromise, ?_, fun i σ hσ => ?_, fun i j b hi hj hib hjb => ?_,
    fun w q start i idx hw => ?_, fun w w' b start i idx start' i' idx' hw hw' => ?_⟩
  · rw [List.length_append, h.length]
    exact hsize.symm
  · by_cases hi : i < σs.length
    · rw [List.getElem?_append_left hi] at hσ
      obtain ⟨b, hb, hlogb⟩ := h.published i σ hσ
      exact ⟨b, (hget i).trans hb, hlogb⟩
    · obtain ⟨hpos, heq⟩ := List.getElem?_eq_some_iff.mp hσ
      rw [List.length_append, List.length_singleton] at hpos
      obtain rfl : i = σs.length := by omega
      rw [List.getElem_concat_length rfl] at heq
      subst heq
      refine ⟨a, ?_, hloga⟩
      rw [h.length]
      exact (hget _).trans hstored
  · -- The new stream's address is not that of an older one.
    have hnew : ∀ {i : Nat}, i < s.numStreams → t.log.get i = some b →
        t.log.get s.numStreams ≠ some b := by
      intro i hi hib hb
      rw [hget, hstored] at hb
      obtain rfl := Option.some.inj hb
      exact hnot i hi ((hget i).symm.trans hib)
    have hi' := Nat.lt_of_lt_of_eq hi hsize
    have hj' := Nat.lt_of_lt_of_eq hj hsize
    rcases Nat.lt_or_eq_of_le (Nat.le_of_lt_succ hi') with hi' | rfl
    · rcases Nat.lt_or_eq_of_le (Nat.le_of_lt_succ hj') with hj' | rfl
      · exact h.apart i j b hi' hj' ((hget i).symm.trans hib) ((hget j).symm.trans hjb)
      · exact absurd hjb (hnew hi' hib)
    · rcases Nat.lt_or_eq_of_le (Nat.le_of_lt_succ hj') with hj' | rfl
      · exact absurd hib (hnew hj' hjb)
      · rfl
  · obtain ⟨hwv, hw⟩ := hothers w q start i idx hw
    obtain ⟨b, fn', rfl, hlogb, hnotb⟩ := h.pushing w q start i idx hw
    refine ⟨b, fn', rfl, hlogb, fun j hj => ?_⟩
    rw [hget]
    rcases Nat.lt_or_eq_of_le (Nat.le_of_lt_succ (Nat.lt_of_lt_of_eq hj hsize)) with hj | rfl
    · exact hnotb j hj
    · intro hb
      obtain rfl := Option.some.inj (hstored.symm.trans hb)
      exact hwv (h.alone w v a _ _ _ _ _ _ hw hv)
  · exact h.alone w w' b _ _ _ _ _ _ (hothers w _ _ _ _ hw).2 (hothers w' _ _ _ _ hw').2

omit [Datalog D] [DecidableEq ω] in
/-- A step of a `push_back` behind its `fetch_add`, by whether it publishes. -/
theorem Hosts.push (h : s.Hosts σs) {t : Threads UInt64 α} (hs : Threads.Step s.streams t)
    (hno : ¬ Threads.Slips s.streams t)
    (hnone : ∀ v, s.streams.pushers v = .idle → t.pushers v = .idle) :
    ∃ more, (more = [] ∨ ∃ fn, more = [.new fn]) ∧ Hosts { s with streams := t } (σs ++ more) := by
  obtain ⟨hsound, hpromise⟩ := Threads.promise_step h.sound h.promise hs hno
  have hsame : ∀ {v : α} {p : Monolog.Push UInt64} {start i idx j jdx : Nat},
      s.streams.pushers v = .pushing p start i idx → ∀ w q b k kdx,
      Function.update s.streams.pushers v (.pushing p start j jdx) w = .pushing q b k kdx →
      ∃ i' idx', s.streams.pushers w = .pushing q b i' idx' := by
    intro v p start i idx j jdx hv w q b k kdx hw
    by_cases hwv : w = v
    · subst hwv
      rw [Function.update_self] at hw
      cases hw
      exact ⟨i, idx, hv⟩
    · rw [Function.update_of_ne hwv] at hw
      exact ⟨k, kdx, hw⟩
  have hkeep : ∀ {t : Threads UInt64 α}, Hosts { s with streams := t } σs →
      Hosts { s with streams := t } (σs ++ []) := by
    intro t ht
    rwa [List.append_nil]
  cases hs with
  | reserve v p hv =>
    cases (Function.update_self _ _ _).symm.trans (hnone v hv)
  | store v p start i idx hv hi =>
    refine ⟨[], .inl rfl, hkeep (h.keep hsound hpromise rfl (fun j hj => ?_) (hsame hv))⟩
    obtain rfl := (h.sound.progress v p start i idx hv).2.1 hi
    have hread := (h.sound.own hv hi).1
    have hlt : j < s.streams.log.readTail := hj
    exact Monolog.get_set_other _ (by omega) _
  | fail v p start idx hv =>
    exact ⟨[], .inl rfl, hkeep (h.keep hsound hpromise rfl (fun _ _ => rfl) (hsame hv))⟩
  | succeed v p start idx hv hr =>
    -- Without a slip the position is the call's own.
    have hidx : idx = start := by
      by_contra hne
      exact hno ⟨v, p, start, idx, hv, hr, Function.update_self _ _ _, .inl hne⟩
    subst hidx
    subst hr
    obtain ⟨fn, hpub⟩ := h.publish hv hsound hpromise rfl rfl
    exact ⟨_, .inr ⟨fn, rfl⟩, hpub⟩

/-- A careful step is one with streams added in one step, or none. -/
theorem hosts_step (h : s.Hosts σs) (hst : (s.withStreams σs).Standing) (hs : Careful s s') :
    ∃ σs', Relation.ReflTransGen Streaming.Step (s.withStreams σs) (s'.withStreams σs') ∧
      s'.Hosts σs' := by
  obtain ⟨hstep, hno⟩ := hs
  cases hstep with
  | token w x id t x' st hw hx hst' =>
    exact ⟨σs, .single (.token _ w x id t x' st hw hx hst'), h.congr rfl rfl⟩
  | log w x st x' hw hx hlog hat hopen =>
    exact ⟨σs, .single (.log _ w x st x' hw hx hlog hat hopen), h.congr rfl rfl⟩
  | finish w x st x' r id num hw hx hcur hcur' hphase =>
    exact ⟨σs, .single (.finish _ w x st x' r id num hw hx hcur hcur' hphase), h.congr rfl rfl⟩
  | enter w hat hphase =>
    have henter := Streaming.Step.enter (s.withStreams σs) w hat hphase
    rw [show (s.withStreams σs).streams.length = s.numStreams from h.length] at henter
    exact ⟨σs, .single henter, h.congr rfl rfl⟩
  | stream w r id logs p hx hnext =>
    obtain ⟨σs', hnext', hσs'⟩ := h.next (hst.fits ⟨hx, rfl⟩) hnext
    exact ⟨σs', .single (.stream _ w r id σs' p hx hnext'), hσs'⟩
  | addStream v fn a ha hv =>
    have hreserve := Threads.Step.reserve s.streams v (.pushBack a) hv
    obtain ⟨hsound, hpromise⟩ := Threads.promise_step h.sound h.promise hreserve hno
    exact ⟨σs, .refl, h.addStream ha hv hsound hpromise rfl rfl⟩
  | push t ht hnone =>
    obtain ⟨more, rfl | ⟨fn, rfl⟩, hmore⟩ := h.push ht hno hnone
    · rw [List.append_nil] at hmore
      exact ⟨σs, .refl, hmore⟩
    · exact ⟨σs ++ [.new fn], .single (.addStream _ fn), hmore⟩

/-- A run of careful steps is one with streams added in one step. -/
theorem hosts_run {indexes : (k : Nat) → List (LogIndex k)} {roles : ω → Role} (h : s.Hosts σs)
    (hreach : Streaming.Reached indexes roles (s.withStreams σs))
    (hrun : Relation.ReflTransGen Careful s s') :
    ∃ σs', Relation.ReflTransGen Streaming.Step (s.withStreams σs) (s'.withStreams σs') ∧
      s'.Hosts σs' := by
  induction hrun with
  | refl => exact ⟨σs, .refl, h⟩
  | tail _ hs ih =>
    obtain ⟨τs, hτs, hhosts⟩ := ih
    obtain ⟨υs, hυs, hhosts'⟩ :=
      hosts_step hhosts (Streaming.standing_reached (hreach.trans hτs)) hs
    exact ⟨υs, hτs.trans hυs, hhosts'⟩

theorem hosts_reached {indexes : (k : Nat) → List (LogIndex k)} {roles : ω → Role}
    (h : Reached indexes roles s) :
    ∃ σs, Streaming.Reached indexes roles (s.withStreams σs) ∧ s.Hosts σs :=
  hosts_run (hosts_init indexes roles) .refl h

/-! ## What the streams hold -/

/-- Every stream that `size` counts is there. -/
theorem exists_stream {indexes : (k : Nat) → List (LogIndex k)} {roles : ω → Role}
    (h : Reached indexes roles s) {k : Nat} (hk : k < s.numStreams) : ∃ σ, s.stream k = some σ := by
  obtain ⟨σs, -, hosts⟩ := hosts_reached h
  have hget : (s.withStreams σs).streams[k]? = some _ :=
    List.getElem?_eq_getElem (Nat.lt_of_lt_of_eq hk hosts.length.symm)
  exact ⟨_, hosts.stream_of_get hget⟩

/-- In a run in which no compare-exchange of `add_stream` slips: when no call is in flight, each
stream holds the values of the calls that found it and whose records its filter function accepts,
each once. -/
theorem streams_perm {indexes : (k : Nat) → List (LogIndex k)} {roles : ω → Role}
    (hroles : ∀ w requestBatchSize dataBlockSize,
      roles w = .handle requestBatchSize dataBlockSize → 1 ≤ requestBatchSize)
    (h : Reached indexes roles s) (hquiet : ∀ w, (s.callers w).current = none) {k : Nat}
    (hk : k < s.numStreams) :
    ∃ σ, s.stream k = some σ ∧
      ((List.range σ.tail).map σ.slots).Perm
        ((s.done.filter (StreamDone.kept σ.fn k)).map (StreamDone.slot σ.fn)) := by
  obtain ⟨σs, hreach, hosts⟩ := hosts_reached h
  have hget : (s.withStreams σs).streams[k]? = some _ :=
    List.getElem?_eq_getElem (Nat.lt_of_lt_of_eq hk hosts.length.symm)
  exact ⟨_, hosts.stream_of_get hget, Streaming.stream_perm hroles hreach hquiet hget⟩

/-- In such a run, a call that has returned has a position in the list of each stream that it found
and that accepts its record: its value stays there, and is in front of that of any such call that
begins after its return. -/
theorem streams_ordered {indexes : (k : Nat) → List (LogIndex k)} {roles : ω → Role}
    (hroles : ∀ w requestBatchSize dataBlockSize,
      roles w = .handle requestBatchSize dataBlockSize → 1 ≤ requestBatchSize)
    (h : Reached indexes roles s) {k : Nat} {σ : Streamlog} (hk : k < s.numStreams)
    (hσ : s.stream k = some σ) {d : StreamDone} (hd : d ∈ s.done) (hdk : d.kept σ.fn k = true) :
    ∃ i, ∀ s', Relation.ReflTransGen Careful s s' → ∃ σ', s'.stream k = some σ' ∧ σ'.fn = σ.fn ∧
      i < σ'.tail ∧ σ'.slots i = d.slot σ.fn ∧
      ∀ e ∈ s'.done, e.kept σ.fn k = true → e ∉ s.done →
        (∀ w r, (s.callers w).current ≠ some (r, e.id)) →
        ∃ j, i < j ∧ j < σ'.tail ∧ σ'.slots j = e.slot σ.fn := by
  obtain ⟨σs, hreach, hosts⟩ := hosts_reached h
  obtain ⟨i, hi⟩ := Streaming.stream_ordered hroles hreach (hosts.stream_eq hσ hk) hd hdk
  refine ⟨i, fun s' hrun => ?_⟩
  obtain ⟨σs', hrun', hosts'⟩ := hosts_run hosts hreach hrun
  obtain ⟨σ', hσ', hrest⟩ := hi _ hrun'
  exact ⟨σ', hosts'.stream_of_get hσ', hrest⟩

/-! ## One `add_stream` at a time -/

/-- A step leaves `streams_` as it is, or is one of a `push_back`. -/
theorem Step.streams (hs : Step s s') : s'.streams = s.streams ∨
    Threads.Step s.streams s'.streams ∧ ∀ v p start i idx, s.streams.pushers v = .idle →
      s'.streams.pushers v = .pushing p start i idx → p.cnt = 1 := by
  cases hs with
  | token => exact .inl rfl
  | log => exact .inl rfl
  | finish => exact .inl rfl
  | enter => exact .inl rfl
  | stream => exact .inl rfl
  | addStream v fn a ha hv =>
    refine .inr ⟨.reserve s.streams v (.pushBack a) hv, fun w p start i idx hw hw' => ?_⟩
    by_cases hwv : w = v
    · subst hwv
      cases (Function.update_self _ _ _).symm.trans hw'
      rfl
    · cases hw.symm.trans ((Function.update_of_ne hwv _ _).symm.trans hw')
  | push t ht hnone =>
    exact .inr ⟨ht, fun w p start i idx hw hw' => by cases (hnone w hw).symm.trans hw'⟩

/-- At most one thread is in `add_stream`. -/
def OneAdder (s : Hosting D ω α) : Prop :=
  ∀ v v', s.streams.pushers v ≠ .idle → s.streams.pushers v' ≠ .idle → v = v'

/-- With one `add_stream` at a time every step is careful. -/
theorem reached_of_oneAdder {indexes : (k : Nat) → List (LogIndex k)} {roles : ω → Role}
    (h : Relation.ReflTransGen (fun t t' => Step t t' ∧ t'.OneAdder) (init indexes roles) s) :
    Reached indexes roles s := by
  suffices hall : Reached indexes roles s ∧ s.streams.OneCall from hall.1
  induction h with
  | refl => exact ⟨.refl, Threads.oneCall_init⟩
  | tail _ hs ih =>
    obtain ⟨hreach, hcall⟩ := ih
    obtain ⟨σs, -, hosts⟩ := hosts_reached hreach
    refine ⟨hreach.tail ⟨hs.1, hcall.not_slips hosts.sound⟩, ?_⟩
    rcases hs.1.streams with hsame | ⟨hstep, hcnt⟩
    · rw [hsame]
      exact hcall
    · exact hcall.step hosts.sound hstep hs.2 hcnt

/-! ## Threads that take turns -/

/-- A caller's turn, with the insertion if it begins one; a thread begins an `add_stream`, with the
address of the `streamlog`; or it goes on with it. -/
inductive Turn (ω α : Type) where
  | caller : ω → Option Insertable → Turn ω α
  | addStream : α → FilterFunction → UInt64 → Turn ω α
  | push : α → Turn ω α

/-- The state after a move of the caller. -/
def moved (s : Hosting D ω α) (w : ω) : CallerMove D → Option (Hosting D ω α)
  | .token st x => some { s with store := st, callers := Function.update s.callers w x }
  | .log st x => some { s with store := st, callers := Function.update s.callers w x }
  | .finish st x r id num => some
    { store := st
      callers := Function.update s.callers w x
      logs := s.logs
      streams := s.streams
      phases := Function.update s.phases w .before
      done := s.done ++ [⟨r, id, num⟩] }
  | .enter => some
    { s with phases := Function.update s.phases w (.checking s.numStreams 0) }
  | .stream r id => ((s.phases w).nextAt id r s.streams.log s.logs).map fun q =>
    { s with logs := q.1, phases := Function.update s.phases w q.2 }

def turn (s : Hosting D ω α) : Turn ω α → Option (Hosting D ω α)
  | .caller w call => ((s.callers w).move s.store (s.phases w) call).bind (s.moved w)
  | .addStream v fn a =>
    match s.logs a, s.streams.pushers v with
    | none, .idle => some
      { s with
        logs := Function.update s.logs a (some (.new fn))
        streams := { s.streams with
          log := s.streams.log.fetchAdd 1
          pushers := Function.update s.streams.pushers v
            (.pushing (.pushBack a) s.streams.log.writeTail 0 s.streams.log.writeTail) } }
    | _, _ => none
  | .push v => (s.streams.cleanTurn (v, none)).map fun t => { s with streams := t }

theorem step_of_moved {w : ω} {call : Option Insertable} {m : CallerMove D}
    (hm : (s.callers w).move s.store (s.phases w) call = some m) (h : s.moved w m = some s') :
    Careful s s' := by
  have hlegal := Caller.legal_of_move hm
  cases m with
  | token st x =>
    cases h
    obtain ⟨id, t, htoken, hst⟩ := hlegal
    exact ⟨.token s w _ id t x st rfl htoken hst, Threads.not_slips_self _⟩
  | log st x =>
    cases h
    obtain ⟨htoken, hstep, hat, hopen⟩ := hlegal
    exact ⟨.log s w _ st x rfl htoken hstep hat hopen, Threads.not_slips_self _⟩
  | finish st x r id num =>
    cases h
    obtain ⟨hstep, hcurrent, hnone, hphase⟩ := hlegal
    exact ⟨.finish s w _ st x r id num rfl hstep hcurrent hnone hphase, Threads.not_slips_self _⟩
  | enter =>
    cases h
    exact ⟨.enter s w hlegal.1 hlegal.2, Threads.not_slips_self _⟩
  | stream r id =>
    obtain ⟨q, hq, rfl⟩ := Option.map_eq_some_iff.mp h
    exact ⟨.stream s w r id q.1 q.2 hlegal hq, Threads.not_slips_self _⟩

theorem step_of_turn (s : Hosting D ω α) (t : Turn ω α) (s' : Hosting D ω α)
    (h : s.turn t = some s') : Careful s s' := by
  cases t with
  | caller w call =>
    obtain ⟨m, hm, hmoved⟩ := Option.bind_eq_some_iff.mp h
    exact step_of_moved hm hmoved
  | addStream v fn a =>
    rw [turn] at h
    split at h
    · next ha hv =>
      cases h
      refine ⟨.addStream s v fn a ha hv, ?_⟩
      rintro ⟨u, p, start, idx, hu, -, hidle, -⟩
      have huv : u ≠ v := by
        rintro rfl
        cases hv.symm.trans hu
      cases (hu.symm.trans (Function.update_of_ne huv _ _).symm).trans hidle
    · cases h
  | push v =>
    obtain ⟨t, ht, rfl⟩ := Option.map_eq_some_iff.mp h
    obtain ⟨hstep, hno⟩ := Threads.step_of_cleanTurn _ _ _ ht
    refine ⟨.push s t hstep fun u hu => ?_, hno⟩
    exact Threads.cleanTurn_idle ht hu

/-- A filter function that keeps every record, and one that keeps those of two bytes or more. -/
def everyRecord : FilterFunction := fun id _ => (true, id)

def longRecords : FilterFunction := fun id r => (decide (2 ≤ r.len), id)

def twoBytes : Record := ⟨[8, 9], [], by decide⟩

/-- Two threads add a stream each; the second one stores first, and its attempt fails twice. A
store's call finds one stream, a handle's call both. The store's call is the first one with the
stream, and waits for the handle's. -/
def racingAdders : List (Turn Bool Bool) :=
  [.addStream false everyRecord 64, .addStream true longRecords 128, .push true, .push true,
    .push false, .push false,
    .caller false (some (.record .oneByte)), .caller true (some (.record twoBytes))] ++
  List.replicate 5 (.caller false none) ++ [.push true, .push true] ++
  List.replicate 4 (.caller false none) ++
  List.replicate 13 (.caller true none) ++ [.caller false none]

/-- The handle inserts again. -/
def onceMore : List (Turn Bool Bool) :=
  .caller true (some (.record twoBytes)) :: List.replicate 13 (.caller true none)

theorem racingAdders_run : ∃ s s' : Hosting FlatLog Bool Bool,
    Reached (fun _ => []) Streaming.storeAndHandle s ∧ Relation.ReflTransGen Careful s s' ∧
      s.numStreams = 2 ∧ s.done = [⟨twoBytes, 0, 2⟩, ⟨.oneByte, 1, 1⟩] ∧
      (∀ w, (s.callers w).current = none) ∧
      s'.done = [⟨twoBytes, 0, 2⟩, ⟨.oneByte, 1, 1⟩, ⟨twoBytes, 2, 2⟩] ∧
      (∀ σ, s.stream 0 = some σ → σ.fn 0 twoBytes = (true, 0) ∧ σ.fn 1 .oneByte = (true, 1) ∧
        σ.fn 2 twoBytes = (true, 2)) ∧
      ∀ σ, s.stream 1 = some σ → σ.fn 0 twoBytes = (true, 0) := by
  obtain ⟨s, hs, hsee⟩ := Schedule.exists_run step_of_turn racingAdders
    (by decide +kernel : (Schedule.after turn
      (init (fun _ => []) Streaming.storeAndHandle : Hosting FlatLog Bool Bool) racingAdders).map
        (fun s => decide (s.numStreams = 2 ∧ s.done = [⟨twoBytes, 0, 2⟩, ⟨.oneByte, 1, 1⟩] ∧
          (s.callers false).current = none ∧ (s.callers true).current = none ∧
          (s.stream 0).map (fun σ => (σ.fn 0 twoBytes, σ.fn 1 .oneByte, σ.fn 2 twoBytes)) =
            some ((true, 0), (true, 1), (true, 2)) ∧
          (s.stream 1).map (fun σ => σ.fn 0 twoBytes) = some (true, 0) ∧
          (Schedule.after turn s onceMore).map Hosting.done =
            some [⟨twoBytes, 0, 2⟩, ⟨.oneByte, 1, 1⟩, ⟨twoBytes, 2, 2⟩])) = some true)
  obtain ⟨hnum, hdone, hfalse, htrue, hfirst, hsecond, hmore⟩ := of_decide_eq_true hsee
  obtain ⟨s', hrun, hdone'⟩ := Schedule.exists_run step_of_turn onceMore hmore
  refine ⟨s, s', hs, hrun, hnum, hdone, fun w => by cases w <;> assumption, hdone',
    fun σ hσ => ?_, fun σ hσ => ?_⟩
  · rw [hσ] at hfirst
    simpa using hfirst
  · rw [hσ] at hsecond
    exact Option.some.inj hsecond

theorem streams_perm_racingAdders : ∃ (s : Hosting FlatLog Bool Bool) (σ τ : Streamlog),
    s.stream 0 = some σ ∧ ((List.range σ.tail).map σ.slots).Perm [.stored 0, .stored 1] ∧
      s.stream 1 = some τ ∧ ((List.range τ.tail).map τ.slots).Perm [.stored 0] := by
  obtain ⟨s, -, hs, -, hnum, hdone, hquiet, -, hfirst, hsecond⟩ := racingAdders_run
  obtain ⟨σ, hσ, hσs⟩ :=
    streams_perm Streaming.storeAndHandle_batch hs hquiet (k := 0) (by rw [hnum]; decide)
  obtain ⟨τ, hτ, hτs⟩ :=
    streams_perm Streaming.storeAndHandle_batch hs hquiet (k := 1) (by rw [hnum]; decide)
  obtain ⟨h0, h1, -⟩ := hfirst σ hσ
  have h0' := hsecond τ hτ
  rw [hdone] at hσs hτs
  exact ⟨s, σ, τ, hσ, by simpa [StreamDone.kept, StreamDone.slot, h0, h1] using hσs, hτ,
    by simpa [StreamDone.kept, StreamDone.slot, h0'] using hτs⟩

/-- The store's record is in front of the handle's second one. -/
theorem streams_ordered_racingAdders : ∃ (s s' : Hosting FlatLog Bool Bool) (σ : Streamlog)
    (i j : Nat), Relation.ReflTransGen Careful s s' ∧ s'.stream 0 = some σ ∧ i < j ∧ j < σ.tail ∧
      σ.slots i = .stored 1 ∧ σ.slots j = .stored 2 := by
  obtain ⟨s, s', hs, hrun, hnum, hdone, hquiet, hdone', hfirst, -⟩ := racingAdders_run
  have hk : 0 < s.numStreams := by
    rw [hnum]
    decide
  obtain ⟨σ, hσ⟩ := exists_stream hs hk
  obtain ⟨-, h1, h2⟩ := hfirst σ hσ
  obtain ⟨i, hi⟩ := streams_ordered Streaming.storeAndHandle_batch hs hk hσ
    (d := ⟨.oneByte, 1, 1⟩) (by rw [hdone]; simp) (by rw [StreamDone.kept, h1]; rfl)
  obtain ⟨σ', hσ', -, -, hival, hlater⟩ := hi s' hrun
  obtain ⟨j, hij, hj, hjval⟩ := hlater ⟨twoBytes, 2, 2⟩ (by rw [hdone']; simp)
    (by rw [StreamDone.kept, h2]; rfl) (by rw [hdone]; simp [twoBytes])
    (fun w r hw => by rw [hquiet w] at hw; cases hw)
  rw [StreamDone.slot, h1] at hival
  rw [StreamDone.slot, h2] at hjval
  exact ⟨s, s', σ', i, j, hrun, hσ', hij, hj, hival, hjval⟩

end Hosting

end Netplay
