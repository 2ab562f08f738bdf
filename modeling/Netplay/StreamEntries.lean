import Mathlib.Data.List.Nodup
import Netplay.Streams

/-!
# The entries of the streams

A call is past a stream when its filter function has rejected the record or the id has a position
in its list. The positions of a list belong to the calls past the stream whose record the function
accepts, one to each; a position is without its value as long as its call has not stored it. A call
holds its id until it returns, so that no two calls are at one stream with one id.
-/

namespace Netplay

open BlockTail

namespace StreamPhase

/-- A call in this phase is past stream `k`. -/
def Past (k : Nat) : StreamPhase → Prop
  | .before => False
  | .checking _ i => k < i
  | .pushing _ i _ => k < i
  | .storing _ i _ _ => k ≤ i
  | .behind num => k < num

/-- What a call in this phase knows of the streams. -/
def Fits (fns : List FilterFunction) (id : Nat) (r : Record) : StreamPhase → Prop
  | .before => True
  | .checking num i => num ≤ fns.length ∧ i ≤ num
  | .pushing num i val =>
    num ≤ fns.length ∧ i < num ∧ ∃ fn, fns[i]? = some fn ∧ fn id r = (true, val)
  | .storing num i val _ =>
    num ≤ fns.length ∧ i < num ∧ ∃ fn, fns[i]? = some fn ∧ fn id r = (true, val)
  | .behind num => num ≤ fns.length

theorem Fits.append {fns : List FilterFunction} {id : Nat} {r : Record} {p : StreamPhase}
    (h : p.Fits fns id r) (more : List FilterFunction) : p.Fits (fns ++ more) id r := by
  have hle : fns.length ≤ (fns ++ more).length := by
    rw [List.length_append]
    exact Nat.le_add_right _ _
  have hget : ∀ {i : Nat} {fn : FilterFunction}, fns[i]? = some fn → (fns ++ more)[i]? = some fn := by
    intro i fn hfn
    rw [List.getElem?_append_left (List.getElem?_eq_some_iff.mp hfn).1]
    exact hfn
  cases p with
  | before => trivial
  | checking num i => exact ⟨Nat.le_trans h.1 hle, h.2⟩
  | pushing num i val =>
    obtain ⟨hnum, hi, fn, hfn, hval⟩ := h
    exact ⟨Nat.le_trans hnum hle, hi, fn, hget hfn, hval⟩
  | storing num i val idx =>
    obtain ⟨hnum, hi, fn, hfn, hval⟩ := h
    exact ⟨Nat.le_trans hnum hle, hi, fn, hget hfn, hval⟩
  | behind num => exact Nat.le_trans h hle

/-- Only the streams that the call has found lie behind it. -/
theorem Fits.past_lt {fns : List FilterFunction} {id k : Nat} {r : Record} {p : StreamPhase}
    (h : p.Fits fns id r) (hk : p.Past k) : k < fns.length := by
  cases p with
  | before => cases hk
  | checking num i => exact Nat.lt_of_lt_of_le hk (Nat.le_trans h.2 h.1)
  | pushing num i val => exact Nat.lt_trans hk (Nat.lt_of_lt_of_le h.2.1 h.1)
  | storing num i val idx => exact Nat.lt_of_le_of_lt hk (Nat.lt_of_lt_of_le h.2.1 h.1)
  | behind num => exact Nat.lt_of_lt_of_le hk h

/-- A step asks the filter function, finds no further stream, takes a position, or stores. -/
theorem next_cases {id : Nat} {r : Record} {streams σs : List Streamlog} {p p' : StreamPhase}
    (h : p.next id r streams = some (σs, p')) :
    (∃ num i σ, p = .checking num i ∧ i < num ∧ streams[i]? = some σ ∧ σs = streams ∧
      ((σ.fn id r).1 = true ∧ p' = .pushing num i (σ.fn id r).2 ∨
        (σ.fn id r).1 = false ∧ p' = .checking num (i + 1))) ∨
    (∃ num i, p = .checking num i ∧ num ≤ i ∧ σs = streams ∧ p' = .behind num) ∨
    (∃ num i val σ, p = .pushing num i val ∧ streams[i]? = some σ ∧
      σs = streams.set i (σ.fetchAdd id val) ∧ p' = .storing num i val σ.tail) ∨
    (∃ num i val idx σ, p = .storing num i val idx ∧ streams[i]? = some σ ∧
      σs = streams.set i (σ.store idx val) ∧ p' = .checking num (i + 1)) := by
  cases p with
  | before => cases h
  | behind num => cases h
  | checking num i =>
    by_cases hi : i < num
    · rw [next, if_pos hi, Option.map_eq_some_iff] at h
      obtain ⟨σ, hσ, heq⟩ := h
      cases heq
      refine .inl ⟨num, i, σ, rfl, hi, hσ, rfl, ?_⟩
      cases hfn : (σ.fn id r).1 with
      | true => exact .inl ⟨rfl, rfl⟩
      | false => exact .inr ⟨rfl, rfl⟩
    · rw [next, if_neg hi] at h
      cases h
      exact .inr (.inl ⟨num, i, rfl, Nat.le_of_not_lt hi, rfl, rfl⟩)
  | pushing num i val =>
    rw [next, Option.map_eq_some_iff] at h
    obtain ⟨σ, hσ, heq⟩ := h
    cases heq
    exact .inr (.inr (.inl ⟨num, i, val, σ, rfl, hσ, rfl, rfl⟩))
  | storing num i val idx =>
    rw [next, Option.map_eq_some_iff] at h
    obtain ⟨σ, hσ, heq⟩ := h
    cases heq
    exact .inr (.inr (.inr ⟨num, i, val, idx, σ, rfl, hσ, rfl, rfl⟩))

end StreamPhase

/-- Replacing an element by one with the same image. -/
theorem Streamlog.map_fn_set {streams : List Streamlog} {i : Nat} {σ σ' : Streamlog}
    (hσ : streams[i]? = some σ) (hfn : σ'.fn = σ.fn) :
    (streams.set i σ').map Streamlog.fn = streams.map Streamlog.fn := by
  obtain ⟨hi, rfl⟩ := List.getElem?_eq_some_iff.mp hσ
  rw [List.map_set, hfn, ← List.getElem_map Streamlog.fn (h := by simpa using hi), List.set_getElem_self]

/-- Ended ids are below the read counter, which does not go back. -/
theorem Caller.step_readId_le {D : Type} [Datalog D] {st st' : LogStore D} {x x' : Caller}
    (h : x.Step st st' x') : st.olog.readId ≤ st'.olog.readId := by
  cases h with
  | store x st' x' ret h =>
    cases h with
    | locate r _ hst =>
      obtain ⟨-, rfl⟩ := LogStore.requestBytes_eq hst
      exact Nat.le_refl _
    | start r offset => exact Nat.le_refl _
    | run r offset id op todo _ hst => exact Nat.le_of_eq (LogStore.runOp_counters hst).1.symm
    | finish r offset id _ hst =>
      obtain ⟨rfl, rfl⟩ := LogStore.endBlock_eq hst
      exact Nat.le_add_right _ _
  | handle x st' x' h =>
    cases h with
    | number h r p hp =>
      rcases LogStore.takeIds_cases hp with ⟨-, -, rfl⟩ | ⟨-, rfl⟩
      · exact Nat.le_refl _
      · exact Nat.le_refl _
    | place h r p hp =>
      rcases LogStore.takeBytes_cases hp with ⟨-, -, rfl⟩ | ⟨-, rfl⟩
      · exact Nat.le_refl _
      · exact Nat.le_refl _
    | run h r op todo _ hst => exact Nat.le_of_eq (LogStore.runOp_counters hst).1.symm
    | finish h r _ hst =>
      obtain ⟨heq, rfl⟩ := LogStore.endBlock_eq hst
      rw [heq]
      exact Nat.le_add_right _ _
  | burst x st' x' h =>
    cases h with
    | reserve b olog hst =>
      obtain ⟨-, rfl⟩ := OffsetLog.requestIdBlock_eq hst
      exact Nat.le_refl _
    | place b start _ hst =>
      obtain ⟨-, rfl⟩ := LogStore.requestBytes_eq hst
      exact Nat.le_refl _
    | run b start op todo _ hst => exact Nat.le_of_eq (LogStore.runOp_counters hst).1.symm
    | finish b start _ hst =>
      obtain ⟨rfl, rfl⟩ := LogStore.endBlock_eq hst
      exact Nat.le_add_right _ _

namespace Streaming

variable {D ω : Type} [Datalog D]

def fns (s : Streaming D ω) : List FilterFunction := s.streams.map Streamlog.fn

/-- Call `w` is at work on a record, in phase `p`. -/
def At (s : Streaming D ω) (w : ω) (r : Record) (id : Nat) (p : StreamPhase) : Prop :=
  (s.callers w).current = some (r, id) ∧ s.phases w = p

/-- A call for the record has returned or is in flight, and is past stream `k`. -/
def Passed (s : Streaming D ω) (k : Nat) (r : Record) (id : Nat) : Prop :=
  (∃ d ∈ s.done, d.record = r ∧ d.id = id ∧ k < d.num) ∨ ∃ w p, s.At w r id p ∧ p.Past k

/-! ## Where the calls stand -/

/-- A call is with the streams only at `update_streams` or behind it, and the calls that have
returned have passed streams that are there. -/
structure Standing (s : Streaming D ω) : Prop where
  calls : ∀ w, s.phases w = .before ∨ ∃ r id, (s.callers w).current = some (r, id) ∧
    (s.phases w).Fits s.fns id r ∧
    ((s.callers w).atStreams = true ∨ ∃ num, s.phases w = .behind num)
  returned : ∀ d ∈ s.done, d.num ≤ s.fns.length ∧ d.id < s.store.olog.readId
  distinct : (s.done.map StreamDone.id).Nodup

theorem standing_init (indexes : (k : Nat) → List (LogIndex k)) (roles : ω → Role) :
    Standing (init indexes roles : Streaming D ω) :=
  ⟨fun _ => .inl rfl, fun _ hd => absurd hd List.not_mem_nil, List.nodup_nil⟩

omit [Datalog D] in
theorem Standing.fits {s : Streaming D ω} (h : s.Standing) {w : ω} {r : Record} {id : Nat}
    {p : StreamPhase} (hw : s.At w r id p) : p.Fits s.fns id r := by
  obtain ⟨hcur, rfl⟩ := hw
  rcases h.calls w with hp | ⟨r', id', hcur', hfits, -⟩
  · rw [hp]
    trivial
  · rw [hcur] at hcur'
    cases hcur'
    exact hfits

variable [DecidableEq ω]

omit [Datalog D] [DecidableEq ω] in
/-- A step of `update_streams` leaves the functions as they are and fits them. -/
theorem stream_fits {s : Streaming D ω} {id : Nat} {r : Record} {σs : List Streamlog}
    {p p' : StreamPhase} (hp : p.Fits s.fns id r) (h : p.next id r s.streams = some (σs, p')) :
    σs.map Streamlog.fn = s.fns ∧ p'.Fits s.fns id r := by
  rcases StreamPhase.next_cases h with
    ⟨num, i, σ, rfl, hi, hσ, rfl, ⟨hfn, rfl⟩ | ⟨-, rfl⟩⟩ | ⟨num, i, rfl, -, rfl, rfl⟩ |
    ⟨num, i, val, σ, rfl, hσ, rfl, rfl⟩ | ⟨num, i, val, idx, σ, rfl, hσ, rfl, rfl⟩
  · refine ⟨rfl, hp.1, hi, σ.fn, ?_, Prod.ext hfn rfl⟩
    rw [fns, List.getElem?_map, hσ]
    rfl
  · exact ⟨rfl, hp.1, hi⟩
  · exact ⟨rfl, hp.1⟩
  · exact ⟨Streamlog.map_fn_set hσ rfl, hp⟩
  · exact ⟨Streamlog.map_fn_set hσ rfl, hp.1, hp.2.1⟩

omit [Datalog D] in
/-- A step of a call that stays at work on its record. -/
theorem Standing.call {s : Streaming D ω} (h : s.Standing) {w : ω} {x x' : Caller} {st : LogStore D}
    (hw : s.callers w = x) (hcur : ∀ p, x.current = some p → x'.current = some p)
    (hat : (x.atStreams = true ∨ ∃ num, s.phases w = .behind num) →
      x'.atStreams = true ∨ ∃ num, s.phases w = .behind num)
    (hread : s.store.olog.readId ≤ st.olog.readId) :
    Standing { s with store := st, callers := Function.update s.callers w x' } := by
  refine ⟨fun v => ?_, fun d hd => ?_, h.distinct⟩
  · by_cases hv : v = w
    · subst hv
      rcases h.calls v with hp | ⟨r, id, hold, hfits, hwhere⟩
      · exact .inl hp
      · rw [hw] at hold hwhere
        exact .inr ⟨r, id, by simpa using hcur _ hold, hfits, by simpa using hat hwhere⟩
    · simpa [hv, fns] using h.calls v
  · obtain ⟨hnum, hlt⟩ := h.returned d hd
    exact ⟨hnum, Nat.lt_of_lt_of_le hlt hread⟩

theorem standing_step {s s' : Streaming D ω} (h : Standing s) (hs : Step s s') : Standing s' := by
  cases hs with
  | token w x id t x' st hw hx hst =>
    obtain ⟨-, hcur, hat, -, -⟩ := Caller.nextToken_same hx
    refine h.call hw (fun p hp => hcur.trans hp) (fun hwhere => hat ▸ hwhere) ?_
    rw [LogStore.addEntry_frame hst]
  | log w x st x' hw _ hx hat hopen =>
    refine h.call hw (Caller.step_keeps hx hopen) (fun hwhere => .inr ?_) (Caller.step_readId_le hx)
    exact hwhere.elim hat fun hbehind => hbehind
  | finish w x st x' r id num hw hx hcur hcur' hphase =>
    obtain ⟨hread, hread'⟩ := Caller.step_returns hx hcur hcur'
    refine ⟨fun v => ?_, fun d hd => ?_, ?_⟩
    · by_cases hv : v = w
      · subst hv
        exact .inl (Function.update_self _ _ _)
      · simpa [hv, fns] using h.calls v
    · rcases List.mem_append.mp hd with hd | hd
      · obtain ⟨hnum, hlt⟩ := h.returned d hd
        exact ⟨hnum, by rw [hread']; omega⟩
      · obtain rfl := List.mem_singleton.mp hd
        exact ⟨h.fits ⟨by rw [hw]; exact hcur, hphase⟩, by rw [hread']; exact Nat.lt_succ_self _⟩
    · rw [List.map_append, List.map_singleton]
      refine h.distinct.append (List.nodup_singleton _) (List.disjoint_singleton.mpr fun hmem => ?_)
      obtain ⟨d, hd, heq⟩ := List.mem_map.mp hmem
      have hlt := (h.returned d hd).2
      rw [hread, heq] at hlt
      exact Nat.lt_irrefl _ hlt
  | enter w hat hphase =>
    refine ⟨fun v => ?_, h.returned, h.distinct⟩
    by_cases hv : v = w
    · subst hv
      obtain ⟨⟨r, id⟩, hcur⟩ := Caller.current_of_atStreams hat
      refine .inr ⟨r, id, hcur, ?_, .inl hat⟩
      simp [StreamPhase.Fits, fns]
    · simpa [hv, fns] using h.calls v
  | stream w r id σs p hx hnext =>
    obtain ⟨hfns, hfits⟩ := stream_fits (h.fits ⟨hx, rfl⟩) hnext
    refine ⟨fun v => ?_, fun d hd => ?_, h.distinct⟩
    · by_cases hv : v = w
      · subst hv
        refine .inr ⟨r, id, hx, ?_, ?_⟩
        · simpa [fns, hfns] using hfits
        · rcases h.calls v with hp | ⟨-, -, -, -, hat | ⟨num, hp⟩⟩
          · rw [hp] at hnext
            cases hnext
          · exact .inl hat
          · rw [hp] at hnext
            cases hnext
      · have hother := h.calls v
        simpa [hv, fns, hfns] using hother
    · rw [fns, hfns]
      exact h.returned d hd
  | addStream fn =>
    have hfns : fns { s with streams := s.streams ++ [.new fn] } = s.fns ++ [fn] := by
      simp [fns, Streamlog.new]
    refine ⟨fun v => ?_, fun d hd => ?_, h.distinct⟩
    · rcases h.calls v with hp | ⟨r, id, hcur, hfits, hwhere⟩
      · exact .inl hp
      · rw [hfns]
        exact .inr ⟨r, id, hcur, hfits.append [fn], hwhere⟩
    · obtain ⟨hnum, hlt⟩ := h.returned d hd
      rw [hfns, List.length_append]
      exact ⟨Nat.le_trans hnum (Nat.le_add_right _ _), hlt⟩

theorem standing_reached {indexes : (k : Nat) → List (LogIndex k)} {roles : ω → Role}
    {s : Streaming D ω} (h : Reached indexes roles s) : Standing s := by
  induction h with
  | refl => exact standing_init indexes roles
  | tail _ hs ih => exact standing_step ih hs

/-! ## The ids of the calls -/

/-- The ids that the calls are at work on: not ended yet, and those of one call alone. -/
structure Apart (s : Streaming D ω) : Prop where
  live : ∀ w r id, (s.callers w).current = some (r, id) → s.store.olog.readId ≤ id
  unique : ∀ w w' r r' id, (s.callers w).current = some (r, id) →
    (s.callers w').current = some (r', id) → w = w'

theorem apart_reached {indexes : (k : Nat) → List (LogIndex k)} {roles : ω → Role}
    {s : Streaming D ω} (hroles : ∀ w requestBatchSize dataBlockSize,
      roles w = .handle requestBatchSize dataBlockSize → 1 ≤ requestBatchSize)
    (h : Reached indexes roles s) : Apart s := by
  have hheld := idsHeld_reached hroles h
  have hholds : ∀ w r id, (s.callers w).current = some (r, id) →
      Holds s.toCallers.pending w id := by
    intro w r id hcur
    obtain ⟨b, hb, hid⟩ := Caller.block_of_current (hheld.ready w) hcur
    exact ⟨b, hb, hid⟩
  refine ⟨fun w r id hcur => ?_, fun w w' r r' id hcur hcur' => ?_⟩
  · exact (hheld.tiles.inside (hholds w r id hcur)).1
  · exact hheld.tiles.unique w w' id (hholds w r id hcur) (hholds w' r' id hcur')

omit [Datalog D] [DecidableEq ω] in
/-- One record goes with an id. -/
theorem record_unique {s : Streaming D ω} (hst : s.Standing) (ha : s.Apart) {k : Nat}
    {r r' : Record} {id : Nat} (h : s.Passed k r id) (h' : s.Passed k r' id) : r = r' := by
  have hbelow : ∀ d ∈ s.done, ∀ w p r, s.At w r d.id p → False := by
    intro d hd w p r hw
    have hlt := (hst.returned d hd).2
    have hle := ha.live w r d.id hw.1
    omega
  rcases h with ⟨d, hd, rfl, rfl, -⟩ | ⟨w, p, hw, -⟩
  · rcases h' with ⟨d', hd', rfl, heq, -⟩ | ⟨w', p', hw', -⟩
    · rw [List.inj_on_of_nodup_map hst.distinct hd hd' heq.symm]
    · exact (hbelow d hd w' p' r' hw').elim
  · rcases h' with ⟨d', hd', rfl, rfl, -⟩ | ⟨w', p', hw', -⟩
    · exact (hbelow d' hd' w p r hw).elim
    · obtain rfl := ha.unique w w' r r' id hw.1 hw'.1
      have hcur := hw.1
      rw [hw'.1] at hcur
      cases hcur
      rfl

/-! ## One list -/

/-- The list of stream `k`: its positions are those of the calls past it whose records the filter
function accepts, and have their values but for calls that are at the store. -/
structure Entries (s : Streaming D ω) (k : Nat) (σ : Streamlog) : Prop where
  length : σ.owners.length = σ.tail
  nodup : σ.owners.Nodup
  mem_iff : ∀ id, id ∈ σ.owners ↔ ∃ r, s.Passed k r id ∧ (σ.fn id r).1 = true
  stored : ∀ idx id, σ.owners[idx]? = some id →
    (∃ w r num val, s.At w r id (.storing num k val idx)) ∨
      ∃ r, s.Passed k r id ∧ (σ.fn id r).1 = true ∧ σ.slots idx = .stored (σ.fn id r).2
  storing : ∀ w r id num val idx, s.At w r id (.storing num k val idx) →
    σ.owners[idx]? = some id ∧ σ.slots idx = .reserved val
  free : ∀ idx, σ.tail ≤ idx → σ.slots idx = .free

omit [Datalog D] [DecidableEq ω] in
/-- What the list says of a state depends on the calls past the stream and those at the store. -/
theorem Entries.congr {s s' : Streaming D ω} {k : Nat} {σ : Streamlog} (h : s.Entries k σ)
    (hpassed : ∀ r id, (σ.fn id r).1 = true → (s'.Passed k r id ↔ s.Passed k r id))
    (hat : ∀ w r id num val idx,
      s'.At w r id (.storing num k val idx) ↔ s.At w r id (.storing num k val idx)) :
    s'.Entries k σ := by
  refine ⟨h.length, h.nodup, fun id => ?_, fun idx id hidx => ?_, fun w r id num val idx hw => ?_,
    h.free⟩
  · rw [h.mem_iff id]
    constructor
    · rintro ⟨r, hp, hfn⟩
      exact ⟨r, (hpassed r id hfn).mpr hp, hfn⟩
    · rintro ⟨r, hp, hfn⟩
      exact ⟨r, (hpassed r id hfn).mp hp, hfn⟩
  · rcases h.stored idx id hidx with ⟨w, r, num, val, hw⟩ | ⟨r, hp, hfn, hval⟩
    · exact .inl ⟨w, r, num, val, (hat w r id num val idx).mpr hw⟩
    · exact .inr ⟨r, (hpassed r id hfn).mpr hp, hfn, hval⟩
  · exact h.storing w r id num val idx ((hat w r id num val idx).mp hw)

omit [Datalog D] in
/-- A step of `w` alone from phase `p` to phase `p'`. -/
theorem at_phase {s : Streaming D ω} {w : ω} {σs : List Streamlog} {p' q : StreamPhase} {v : ω}
    {r : Record} {id : Nat} :
    At { s with streams := σs, phases := Function.update s.phases w p' } v r id q ↔
      (v = w ∧ (s.callers w).current = some (r, id) ∧ q = p') ∨ (v ≠ w ∧ s.At v r id q) := by
  by_cases hv : v = w
  · subst hv
    simp [At, eq_comm]
  · simp [At, hv]

omit [Datalog D] [DecidableEq ω] in
/-- The calls that are past the stream, but for `w`. -/
theorem passed_split {s : Streaming D ω} {k : Nat} {r : Record} {id : Nat} (w : ω)
    {p : StreamPhase} (hw : s.phases w = p) :
    s.Passed k r id ↔ ((∃ d ∈ s.done, d.record = r ∧ d.id = id ∧ k < d.num) ∨
      ∃ v q, v ≠ w ∧ s.At v r id q ∧ q.Past k) ∨
        (s.callers w).current = some (r, id) ∧ p.Past k := by
  constructor
  · rintro (hd | ⟨v, q, hv, hq⟩)
    · exact .inl (.inl hd)
    · by_cases hvw : v = w
      · subst hvw
        rw [← hv.2, hw] at hq
        exact .inr ⟨hv.1, hq⟩
      · exact .inl (.inr ⟨v, q, hvw, hv, hq⟩)
  · rintro ((hd | ⟨v, q, -, hv, hq⟩) | ⟨hcur, hp⟩)
    · exact .inl hd
    · exact .inr ⟨v, q, hv, hq⟩
    · exact .inr ⟨w, p, ⟨hcur, hw⟩, hp⟩

omit [Datalog D] in
theorem passed_phase {s : Streaming D ω} {w : ω} {σs : List Streamlog} {p p' : StreamPhase}
    (hw : s.phases w = p) {k : Nat} {r : Record} {id : Nat}
    (hpast : (s.callers w).current = some (r, id) → (p'.Past k ↔ p.Past k)) :
    Passed { s with streams := σs, phases := Function.update s.phases w p' } k r id ↔
      s.Passed k r id := by
  rw [passed_split w hw, passed_split w (p := p') (Function.update_self _ _ _)]
  refine or_congr (or_congr Iff.rfl ?_) (and_congr_right hpast)
  constructor
  · rintro ⟨v, q, hv, hat, hq⟩
    exact ⟨v, q, hv, (at_phase.mp hat).resolve_left (fun hc => hv hc.1) |>.2, hq⟩
  · rintro ⟨v, q, hv, hat, hq⟩
    exact ⟨v, q, hv, at_phase.mpr (.inr ⟨hv, hat⟩), hq⟩

omit [Datalog D] in
/-- A step of `w` that concerns another stream, or a record that the function rejects. -/
theorem Entries.phase {s : Streaming D ω} {k : Nat} {σ : Streamlog} (h : s.Entries k σ) {w : ω}
    {σs : List Streamlog} {p p' : StreamPhase} (hw : s.phases w = p)
    (hpast : ∀ r id, (s.callers w).current = some (r, id) → (σ.fn id r).1 = true →
      (p'.Past k ↔ p.Past k))
    (hp : ∀ num val idx, p ≠ .storing num k val idx)
    (hp' : ∀ num val idx, p' ≠ .storing num k val idx) :
    Entries { s with streams := σs, phases := Function.update s.phases w p' } k σ := by
  refine h.congr (fun r id hfn => passed_phase hw fun hcur => hpast r id hcur hfn)
    (fun v r id num val idx => ?_)
  rw [at_phase]
  constructor
  · rintro (⟨-, -, heq⟩ | ⟨-, hat⟩)
    · exact absurd heq.symm (hp' num val idx)
    · exact hat
  · intro hat
    refine .inr ⟨fun hv => ?_, hat⟩
    subst hv
    exact hp num val idx (hw.symm.trans hat.2)

omit [Datalog D] in
/-- The `fetch_add` of `w`: its id is new to the list. -/
theorem Entries.fetchAdd {s : Streaming D ω} {k : Nat} {σ : Streamlog} (h : s.Entries k σ)
    (hst : s.Standing) (ha : s.Apart) {w : ω} {r : Record} {id num val : Nat}
    {σs : List Streamlog} (hw : s.At w r id (.pushing num k val)) (hfn : σ.fn id r = (true, val)) :
    Entries
      { s with streams := σs, phases := Function.update s.phases w (.storing num k val σ.tail) }
      k (σ.fetchAdd id val) := by
  obtain ⟨hcur, hphase⟩ := hw
  have hpassed : ∀ r' id', Passed
      { s with streams := σs, phases := Function.update s.phases w (.storing num k val σ.tail) }
      k r' id' ↔ s.Passed k r' id' ∨ (r' = r ∧ id' = id) := by
    intro r' id'
    by_cases hnew : (s.callers w).current = some (r', id')
    · have heq := hcur.symm.trans hnew
      cases heq
      have hat : s.Passed k r id ∨ r = r ∧ id = id := .inr ⟨rfl, rfl⟩
      exact iff_of_true (.inr ⟨w, _, ⟨hcur, Function.update_self _ _ _⟩, Nat.le_refl k⟩) hat
    · rw [passed_phase hphase fun hc => absurd hc hnew]
      refine ⟨.inl, fun hc => hc.resolve_right ?_⟩
      rintro ⟨rfl, rfl⟩
      exact hnew hcur
  have hfresh : id ∉ σ.owners := by
    intro hmem
    obtain ⟨r', hp, -⟩ := (h.mem_iff id).mp hmem
    rcases hp with ⟨d, hd, -, rfl, -⟩ | ⟨v, p, hv, hpast⟩
    · have hlt := (hst.returned d hd).2
      have hle := ha.live w r d.id hcur
      omega
    · obtain rfl := ha.unique v w r' r id hv.1 hcur
      rw [← hv.2, hphase] at hpast
      exact Nat.lt_irrefl k hpast
  have hslot : ∀ idx, idx ≠ σ.tail → (σ.fetchAdd id val).slots idx = σ.slots idx :=
    fun idx hne => Function.update_of_ne hne _ _
  have hother : ∀ v r' id' num' val' idx, v ≠ w → At
      { s with streams := σs, phases := Function.update s.phases w (.storing num k val σ.tail) }
      v r' id' (.storing num' k val' idx) →
      σ.owners[idx]? = some id' ∧ σ.slots idx = .reserved val' := by
    intro v r' id' num' val' idx hv hat
    rw [at_phase] at hat
    exact h.storing v r' id' num' val' idx (hat.resolve_left fun hc => hv hc.1).2
  refine ⟨?_, ?_, fun i => ?_, fun idx i hidx => ?_, fun v r' i num' val' idx hv => ?_,
    fun idx hidx => ?_⟩
  · simp [Streamlog.fetchAdd, h.length]
  · exact h.nodup.append (List.nodup_singleton _) (List.disjoint_singleton.mpr hfresh)
  · simp only [Streamlog.fetchAdd, List.mem_append, List.mem_singleton, h.mem_iff i, hpassed]
    constructor
    · rintro (⟨r', hp, hacc⟩ | rfl)
      · exact ⟨r', .inl hp, hacc⟩
      · exact ⟨r, .inr ⟨rfl, rfl⟩, by rw [hfn]⟩
    · rintro ⟨r', hp | ⟨-, rfl⟩, hacc⟩
      · exact .inl ⟨r', hp, hacc⟩
      · exact .inr rfl
  · by_cases hlt : idx < σ.owners.length
    · have hne : idx ≠ σ.tail := by rw [← h.length]; exact Nat.ne_of_lt hlt
      rw [Streamlog.fetchAdd, List.getElem?_append_left hlt] at hidx
      rcases h.stored idx i hidx with ⟨v, r', num', val', hv⟩ | ⟨r', hp, hacc, hval⟩
      · refine .inl ⟨v, r', num', val', at_phase.mpr (.inr ⟨fun hvw => ?_, hv⟩)⟩
        have hbad := hv.2
        rw [hvw, hphase] at hbad
        cases hbad
      · exact .inr ⟨r', (hpassed r' i).mpr (.inl hp), hacc, (hslot idx hne).trans hval⟩
    · have hlast : idx = σ.tail ∧ i = id := by
        rw [Streamlog.fetchAdd, List.getElem?_append_right (Nat.le_of_not_lt hlt)] at hidx
        obtain ⟨hpos, heq⟩ := List.getElem?_eq_some_iff.mp hidx
        rw [List.length_singleton] at hpos
        rw [List.getElem_singleton] at heq
        exact ⟨by have := h.length; omega, heq.symm⟩
      obtain ⟨rfl, rfl⟩ := hlast
      exact .inl ⟨w, r, num, val, at_phase.mpr (.inl ⟨rfl, hcur, rfl⟩)⟩
  · by_cases hvw : v = w
    · subst hvw
      obtain ⟨-, hcur', heq⟩ := (at_phase.mp hv).resolve_right fun hc => hc.1 rfl
      rw [hcur] at hcur'
      cases hcur'
      cases heq
      refine ⟨?_, Function.update_self _ _ _⟩
      rw [Streamlog.fetchAdd, ← h.length, List.getElem?_append_right (Nat.le_refl _), Nat.sub_self]
      rfl
    · obtain ⟨hown, hres⟩ := hother v r' i num' val' idx hvw hv
      have hlt := (List.getElem?_eq_some_iff.mp hown).1
      refine ⟨?_, (hslot idx (by rw [← h.length]; exact Nat.ne_of_lt hlt)).trans hres⟩
      rw [Streamlog.fetchAdd, List.getElem?_append_left hlt]
      exact hown
  · have hle : σ.tail + 1 ≤ idx := hidx
    rw [hslot idx (by omega)]
    exact h.free idx (by omega)

omit [Datalog D] in
/-- The store of `w`, at its own position. -/
theorem Entries.store {s : Streaming D ω} {k : Nat} {σ : Streamlog} (h : s.Entries k σ)
    (ha : s.Apart) {w : ω} {r : Record} {id num val idx : Nat} {σs : List Streamlog}
    (hw : s.At w r id (.storing num k val idx)) (hfn : σ.fn id r = (true, val)) :
    Entries
      { s with streams := σs, phases := Function.update s.phases w (.checking num (k + 1)) }
      k (σ.store idx val) := by
  obtain ⟨hown, -⟩ := h.storing w r id num val idx hw
  have hpassed : ∀ r' id', Passed
      { s with streams := σs, phases := Function.update s.phases w (.checking num (k + 1)) }
      k r' id' ↔ s.Passed k r' id' := fun r' id' =>
    passed_phase hw.2 fun _ => Nat.lt_succ_iff
  have hslot : ∀ j, j ≠ idx → (σ.store idx val).slots j = σ.slots j :=
    fun j hne => Function.update_of_ne hne _ _
  have hsame : ∀ j i, σ.owners[j]? = some i → (j = idx ↔ i = id) := by
    intro j i hj
    constructor
    · rintro rfl
      exact Option.some.inj (hj.symm.trans hown)
    · rintro rfl
      exact (List.getElem?_inj (List.getElem?_eq_some_iff.mp hj).1 h.nodup).mp (hj.trans hown.symm)
  refine ⟨h.length, h.nodup, fun i => ?_, fun j i hj => ?_, fun v r' i num' val' j hv => ?_,
    fun j hj => ?_⟩
  · simp only [hpassed]
    exact h.mem_iff i
  · by_cases hji : j = idx
    · subst hji
      obtain rfl := (hsame j i hj).mp rfl
      refine .inr ⟨r, (hpassed r i).mpr (.inr ⟨w, _, hw, Nat.le_refl k⟩), ?_, ?_⟩
      · rw [Streamlog.store, hfn]
      · rw [Streamlog.store, hfn]
        exact Function.update_self _ _ _
    · rcases h.stored j i hj with ⟨v, r', num', val', hv⟩ | ⟨r', hp, hacc, hval⟩
      · refine .inl ⟨v, r', num', val', at_phase.mpr (.inr ⟨fun hvw => ?_, hv⟩)⟩
        have hphase := hv.2
        rw [hvw, hw.2] at hphase
        cases hphase
        exact hji rfl
      · exact .inr ⟨r', (hpassed r' i).mpr hp, hacc, (hslot j hji).trans hval⟩
  · rcases at_phase.mp hv with ⟨-, -, heq⟩ | ⟨hvw, hat⟩
    · cases heq
    · obtain ⟨hj, hres⟩ := h.storing v r' i num' val' j hat
      refine ⟨hj, (hslot j fun hji => hvw ?_).trans hres⟩
      have hcur := hat.1
      rw [(hsame j i hj).mp hji] at hcur
      exact ha.unique v w r' r id hcur hw.1
  · have hlt := (List.getElem?_eq_some_iff.mp hown).1
    have hle : σ.tail ≤ j := hj
    have hlen := h.length
    exact (hslot j (by omega)).trans (h.free j hj)

/-- The lists of all streams. -/
def Listed (s : Streaming D ω) : Prop := ∀ k σ, s.streams[k]? = some σ → s.Entries k σ

omit [Datalog D] in
/-- A step outside `update_streams` neither begins nor ends one. -/
theorem at_call {s : Streaming D ω} (hst : s.Standing) {w : ω} {x x' : Caller} {st : LogStore D}
    (hw : s.callers w = x) (hcur : ∀ p, x.current = some p → x'.current = some p) {v : ω}
    {r : Record} {id : Nat} {p : StreamPhase} (hp : p ≠ .before) :
    At { s with store := st, callers := Function.update s.callers w x' } v r id p ↔
      s.At v r id p := by
  by_cases hv : v = w
  · subst hv
    simp only [At, Function.update_self]
    refine and_congr_left fun hphase => ?_
    rcases hst.calls v with hbefore | ⟨r', id', hold, -⟩
    · exact absurd (hphase.symm.trans hbefore) hp
    · rw [hw] at hold
      rw [hcur _ hold, hw, hold]
  · simp [At, hv]

omit [Datalog D] in
theorem listed_call {s : Streaming D ω} (hst : s.Standing) (h : s.Listed) {w : ω} {x x' : Caller}
    {st : LogStore D} (hw : s.callers w = x)
    (hcur : ∀ p, x.current = some p → x'.current = some p) :
    Listed { s with store := st, callers := Function.update s.callers w x' } := by
  intro k σ hσ
  refine (h k σ hσ).congr (fun r id _ => ?_) fun v r id num val idx => at_call hst hw hcur (by simp)
  refine or_congr Iff.rfl ⟨?_, ?_⟩
  · rintro ⟨v, p, hv, hp⟩
    exact ⟨v, p, (at_call hst hw hcur (by rintro rfl; exact hp)).mp hv, hp⟩
  · rintro ⟨v, p, hv, hp⟩
    exact ⟨v, p, (at_call hst hw hcur (by rintro rfl; exact hp)).mpr hv, hp⟩

omit [Datalog D] in
/-- A call that returns leaves what it has passed to the calls that have returned. -/
theorem Entries.finish {s : Streaming D ω} {k : Nat} {σ : Streamlog} (h : s.Entries k σ) {w : ω}
    {x' : Caller} {st : LogStore D} {r : Record} {id num : Nat}
    (hcur : (s.callers w).current = some (r, id)) (hphase : s.phases w = .behind num) :
    Entries
      { store := st
        callers := Function.update s.callers w x'
        streams := s.streams
        phases := Function.update s.phases w .before
        done := s.done ++ [⟨r, id, num⟩] } k σ := by
  have hat : ∀ v r' id' p, p ≠ .before → (At
      { store := st
        callers := Function.update s.callers w x'
        streams := s.streams
        phases := Function.update s.phases w .before
        done := s.done ++ [⟨r, id, num⟩] } v r' id' p ↔ v ≠ w ∧ s.At v r' id' p) := by
    intro v r' id' p hp
    by_cases hv : v = w
    · subst hv
      refine iff_of_false (fun hc => hp ?_) fun hc => hc.1 rfl
      rw [← hc.2]
      exact Function.update_self _ _ _
    · simp [At, hv]
  refine h.congr (fun r' id' _ => ?_) fun v r' id' num' val' idx => ?_
  · rw [passed_split w hphase]
    constructor
    · rintro (⟨d, hd, hr, hid, hk⟩ | ⟨v, p, hv, hp⟩)
      · rcases List.mem_append.mp hd with hd | hd
        · exact .inl (.inl ⟨d, hd, hr, hid, hk⟩)
        · obtain rfl := List.mem_singleton.mp hd
          exact .inr ⟨by rw [hcur, ← hr, ← hid], hk⟩
      · obtain ⟨hne, hv⟩ := (hat v r' id' p (by rintro rfl; exact hp)).mp hv
        exact .inl (.inr ⟨v, p, hne, hv, hp⟩)
    · rintro ((⟨d, hd, hr, hid, hk⟩ | ⟨v, p, hne, hv, hp⟩) | ⟨hsame, hk⟩)
      · exact .inl ⟨d, List.mem_append_left _ hd, hr, hid, hk⟩
      · exact .inr ⟨v, p, (hat v r' id' p (by rintro rfl; exact hp)).mpr ⟨hne, hv⟩, hp⟩
      · rw [hcur] at hsame
        cases hsame
        exact .inl ⟨_, List.mem_append_right _ (List.mem_singleton_self _), rfl, rfl, hk⟩
  · rw [hat v r' id' _ (by simp)]
    refine ⟨fun hc => hc.2, fun hc => ⟨?_, hc⟩⟩
    rintro rfl
    have hbad := hc.2
    rw [hphase] at hbad
    cases hbad

omit [Datalog D] in
/-- A step of `update_streams`, by whether it is at stream `k`. -/
theorem listed_stream {s : Streaming D ω} (hst : s.Standing) (ha : s.Apart) (h : s.Listed) {w : ω}
    {r : Record} {id : Nat} {σs : List Streamlog} {p' : StreamPhase}
    (hx : (s.callers w).current = some (r, id))
    (hnext : (s.phases w).next id r s.streams = some (σs, p')) :
    Listed { s with streams := σs, phases := Function.update s.phases w p' } := by
  intro k σ hσ
  have hfits := hst.fits ⟨hx, rfl⟩
  have hfn : ∀ {i num val : Nat} {σ : Streamlog}, s.streams[i]? = some σ →
      (num ≤ s.fns.length ∧ i < num ∧ ∃ fn, s.fns[i]? = some fn ∧ fn id r = (true, val)) →
      σ.fn id r = (true, val) := by
    rintro i num val σ hσ ⟨-, -, fn, hfn, hval⟩
    rw [fns, List.getElem?_map, hσ] at hfn
    rw [Option.some.inj hfn]
    exact hval
  rcases StreamPhase.next_cases hnext with
    ⟨num, i, τ, hp, hi, hτ, rfl, ⟨hacc, rfl⟩ | ⟨hacc, rfl⟩⟩ | ⟨num, i, hp, hi, rfl, rfl⟩ |
    ⟨num, i, val, τ, hp, hτ, rfl, rfl⟩ | ⟨num, i, val, idx, τ, hp, hτ, rfl, rfl⟩
  · exact (h k σ hσ).phase hp (fun r id _ _ => Iff.rfl) (by simp) (by simp)
  · refine (h k σ hσ).phase hp (fun r' id' hcur hacc' => ?_) (by simp) (by simp)
    -- The record is past the stream that has rejected it.
    rw [hx] at hcur
    cases hcur
    have hne : k ≠ i := by
      rintro rfl
      have heq := Option.some.inj (hσ.symm.trans hτ)
      rw [heq, hacc] at hacc'
      cases hacc'
    simp only [StreamPhase.Past]
    omega
  · refine (h k σ hσ).phase hp (fun r' id' _ _ => ?_) (by simp) (by simp)
    rw [hp] at hfits
    have hle := hfits.2
    simp only [StreamPhase.Past]
    omega
  · rw [hp] at hfits
    by_cases hk : k = i
    · subst hk
      have hset : (s.streams.set k (τ.fetchAdd id val))[k]? = some (τ.fetchAdd id val) :=
        List.getElem?_set_self (List.getElem?_eq_some_iff.mp hτ).1
      obtain rfl := Option.some.inj (hset.symm.trans hσ)
      exact (h k τ hτ).fetchAdd hst ha ⟨hx, hp⟩ (hfn hτ hfits)
    · have hset : s.streams[k]? = some σ := by
        rw [← hσ]
        exact (List.getElem?_set_ne (fun hc => hk hc.symm)).symm
      refine (h k σ hset).phase hp (fun r' id' _ _ => ?_) (by simp) fun num' val' idx heq => ?_
      · simp only [StreamPhase.Past]
        omega
      · cases heq
        exact hk rfl
  · rw [hp] at hfits
    by_cases hk : k = i
    · subst hk
      have hset : (s.streams.set k (τ.store idx val))[k]? = some (τ.store idx val) :=
        List.getElem?_set_self (List.getElem?_eq_some_iff.mp hτ).1
      obtain rfl := Option.some.inj (hset.symm.trans hσ)
      exact (h k τ hτ).store ha ⟨hx, hp⟩ (hfn hτ hfits)
    · have hset : s.streams[k]? = some σ := by
        rw [← hσ]
        exact (List.getElem?_set_ne (fun hc => hk hc.symm)).symm
      refine (h k σ hset).phase hp (fun r' id' _ _ => ?_) (fun num' val' idx' heq => ?_) (by simp)
      · simp only [StreamPhase.Past]
        omega
      · cases heq
        exact hk rfl

omit [Datalog D] [DecidableEq ω] in
/-- No call is past a stream that is not there. -/
theorem passed_lt {s : Streaming D ω} (hst : s.Standing) {k : Nat} {r : Record} {id : Nat}
    (h : s.Passed k r id) : k < s.fns.length := by
  rcases h with ⟨d, hd, -, -, hk⟩ | ⟨w, p, hw, hp⟩
  · exact Nat.lt_of_lt_of_le hk (hst.returned d hd).1
  · exact (hst.fits hw).past_lt hp

theorem listed_step {s s' : Streaming D ω} (hst : s.Standing) (ha : s.Apart) (h : s.Listed)
    (hs : Step s s') : s'.Listed := by
  cases hs with
  | token w x id t x' st hw hx _ =>
    obtain ⟨-, hcur, -⟩ := Caller.nextToken_same hx
    exact listed_call hst h hw fun p hp => hcur.trans hp
  | log w x st x' hw _ hx _ hopen => exact listed_call hst h hw (Caller.step_keeps hx hopen)
  | finish w x st x' r id num hw hx hcur hcur' hphase =>
    intro k σ hσ
    exact (h k σ hσ).finish (by rw [hw]; exact hcur) hphase
  | enter w hat hphase =>
    intro k σ hσ
    refine (h k σ hσ).phase hphase (fun r id _ _ => ?_) (by simp) (by simp)
    exact iff_of_false (Nat.not_lt_zero k) (fun hf => hf)
  | stream w r id σs p hx hnext => exact listed_stream hst ha h hx hnext
  | addStream fn =>
    intro k σ hσ
    by_cases hk : k < s.streams.length
    · rw [List.getElem?_append_left hk] at hσ
      exact (h k σ hσ).congr (fun _ _ _ => Iff.rfl) fun _ _ _ _ _ _ => Iff.rfl
    · have hlast : k = s.streams.length ∧ σ = .new fn := by
        rw [List.getElem?_append_right (Nat.le_of_not_lt hk)] at hσ
        obtain ⟨hpos, heq⟩ := List.getElem?_eq_some_iff.mp hσ
        rw [List.length_singleton] at hpos
        rw [List.getElem_singleton] at heq
        exact ⟨by omega, heq.symm⟩
      obtain ⟨rfl, rfl⟩ := hlast
      have hnone : ∀ r id, ¬ s.Passed s.streams.length r id := fun r id hp => by
        have hlt := passed_lt hst hp
        rw [fns, List.length_map] at hlt
        exact Nat.lt_irrefl _ hlt
      refine ⟨rfl, List.nodup_nil, fun id => iff_of_false List.not_mem_nil ?_, fun idx id hidx => ?_,
        fun w r id num val idx hw => ?_, fun _ _ => rfl⟩
      · rintro ⟨r, hp, -⟩
        exact hnone r id hp
      · cases hidx
      · exact (hnone r id (.inr ⟨w, _, hw, Nat.le_refl _⟩)).elim

theorem listed_reached {indexes : (k : Nat) → List (LogIndex k)} {roles : ω → Role}
    {s : Streaming D ω} (hroles : ∀ w requestBatchSize dataBlockSize,
      roles w = .handle requestBatchSize dataBlockSize → 1 ≤ requestBatchSize)
    (h : Reached indexes roles s) : Listed s := by
  induction h with
  | refl =>
    intro k σ hσ
    cases hσ
  | tail hr hs ih => exact listed_step (standing_reached hr) (apart_reached hroles hr) ih hs

/-! ## What a stream holds -/

omit [Datalog D] [DecidableEq ω] in
/-- Without calls in flight, the calls past a stream have returned. -/
theorem passed_quiet {s : Streaming D ω} (hquiet : ∀ w, (s.callers w).current = none) {k : Nat}
    {r : Record} {id : Nat} :
    s.Passed k r id ↔ ∃ d ∈ s.done, d.record = r ∧ d.id = id ∧ k < d.num := by
  refine ⟨fun h => h.resolve_right ?_, .inl⟩
  rintro ⟨w, p, hw, -⟩
  rw [At, hquiet w] at hw
  cases hw.1

omit [Datalog D] [DecidableEq ω] in
/-- A call that has returned has its value in the list, at its position. -/
theorem Entries.returned {s : Streaming D ω} {k : Nat} {σ : Streamlog} (h : s.Entries k σ)
    (hst : s.Standing) (ha : s.Apart) {d : StreamDone} (hd : d ∈ s.done) (hk : k < d.num)
    (hacc : (σ.fn d.id d.record).1 = true) :
    ∃ i, σ.owners[i]? = some d.id ∧ i < σ.tail ∧ σ.slots i = d.slot σ.fn := by
  have hp : s.Passed k d.record d.id := .inl ⟨d, hd, rfl, rfl, hk⟩
  obtain ⟨i, hi, hget⟩ := List.getElem_of_mem ((h.mem_iff d.id).mpr ⟨d.record, hp, hacc⟩)
  have hget' : σ.owners[i]? = some d.id := by rw [List.getElem?_eq_getElem hi, hget]
  refine ⟨i, hget', by rw [← h.length]; exact hi, ?_⟩
  rcases h.stored i _ hget' with ⟨w, r, num, val, hw⟩ | ⟨r, hp', -, hval⟩
  · have hlt := (hst.returned d hd).2
    have hle := ha.live w r d.id hw.1
    omega
  · obtain rfl := record_unique hst ha hp hp'
    exact hval

omit [Datalog D] [DecidableEq ω] in
/-- Without calls in flight, the slots are those of the calls that have returned. -/
theorem Entries.perm {s : Streaming D ω} {k : Nat} {σ : Streamlog} (hents : s.Entries k σ)
    (hst : s.Standing) (ha : s.Apart) (hquiet : ∀ w, (s.callers w).current = none) :
    ((List.range σ.tail).map σ.slots).Perm
      ((s.done.filter (StreamDone.kept σ.fn k)).map (StreamDone.slot σ.fn)) := by
  -- The positions with their owners, and the calls with their ids: no id twice on either side.
  have hpairs : ((List.range σ.tail).map fun i => (σ.owners[i]?, σ.slots i)).Perm
      ((s.done.filter (StreamDone.kept σ.fn k)).map fun d => (some d.id, d.slot σ.fn)) := by
    have hleft : ((List.range σ.tail).map fun i => (σ.owners[i]?, σ.slots i)).Nodup := by
      refine List.Nodup.map_on (fun i hi j hj heq => ?_) List.nodup_range
      rw [List.mem_range, ← hents.length] at hi
      exact (List.getElem?_inj hi hents.nodup).mp (Prod.ext_iff.mp heq).1
    have hright : ((s.done.filter (StreamDone.kept σ.fn k)).map
        fun d => (some d.id, d.slot σ.fn)).Nodup := by
      refine List.Nodup.map_on (fun d hd e he heq => ?_) (List.Nodup.filter _ hst.distinct.of_map)
      exact List.inj_on_of_nodup_map hst.distinct (List.mem_of_mem_filter hd)
        (List.mem_of_mem_filter he) (Option.some.inj (Prod.ext_iff.mp heq).1)
    refine (List.perm_ext_iff_of_nodup hleft hright).mpr fun p => ?_
    simp only [List.mem_map, List.mem_range, List.mem_filter, StreamDone.kept, Bool.and_eq_true,
      decide_eq_true_eq]
    constructor
    · rintro ⟨i, hi, rfl⟩
      rw [← hents.length] at hi
      have hget := List.getElem?_eq_getElem hi
      rcases hents.stored i _ hget with ⟨w, r, num, val, hw⟩ | ⟨r, hp, hacc, hval⟩
      · rw [At, hquiet w] at hw
        cases hw.1
      · obtain ⟨d, hd, rfl, hid, hk⟩ := (passed_quiet hquiet).mp hp
        rw [← hid] at hacc hval hget
        exact ⟨d, ⟨hd, hk, hacc⟩, by rw [hget, hval, StreamDone.slot]⟩
    · rintro ⟨d, ⟨hd, hk, hacc⟩, rfl⟩
      obtain ⟨i, hget, hi, hval⟩ := hents.returned hst ha hd hk hacc
      exact ⟨i, hi, by rw [hget, hval]⟩
  have hsnd := hpairs.map Prod.snd
  rw [List.map_map, List.map_map] at hsnd
  exact hsnd

/-- In a state of any run in which no call is in flight, the list of a stream holds the values of
the calls that found the stream and whose records its filter function accepts, each once. -/
theorem stream_perm {indexes : (k : Nat) → List (LogIndex k)} {roles : ω → Role}
    {s : Streaming D ω} (hroles : ∀ w requestBatchSize dataBlockSize,
      roles w = .handle requestBatchSize dataBlockSize → 1 ≤ requestBatchSize)
    (h : Reached indexes roles s) (hquiet : ∀ w, (s.callers w).current = none) {k : Nat}
    {σ : Streamlog} (hσ : s.streams[k]? = some σ) :
    ((List.range σ.tail).map σ.slots).Perm
      ((s.done.filter (StreamDone.kept σ.fn k)).map (StreamDone.slot σ.fn)) :=
  (listed_reached hroles h k σ hσ).perm (standing_reached h) (apart_reached hroles h) hquiet

/-! ## Streams grow -/

end Streaming

/-- The positions that are taken stay those of their calls, and the values that are stored stay. -/
structure Streamlog.Grows (σ σ' : Streamlog) : Prop where
  fn : σ'.fn = σ.fn
  owners : σ.owners <+: σ'.owners
  stored : ∀ i v, σ.slots i = .stored v → σ'.slots i = .stored v

namespace Streamlog.Grows

theorem refl (σ : Streamlog) : σ.Grows σ := ⟨rfl, List.prefix_rfl, fun _ _ h => h⟩

theorem trans {σ τ υ : Streamlog} (h : σ.Grows τ) (h' : τ.Grows υ) : σ.Grows υ :=
  ⟨h'.fn.trans h.fn, h.owners.trans h'.owners, fun i v hv => h'.stored i v (h.stored i v hv)⟩

end Streamlog.Grows

namespace Streaming

variable {D ω : Type} [Datalog D] [DecidableEq ω]

omit [Datalog D] [DecidableEq ω] in
theorem next_grows {s : Streaming D ω} (h : s.Listed) {w : ω} {r : Record} {id : Nat}
    {σs : List Streamlog} {p : StreamPhase} (hx : (s.callers w).current = some (r, id))
    (hnext : (s.phases w).next id r s.streams = some (σs, p)) {k : Nat} {σ : Streamlog}
    (hσ : s.streams[k]? = some σ) : ∃ σ', σs[k]? = some σ' ∧ σ.Grows σ' := by
  have hset : ∀ {i : Nat} {τ τ' : Streamlog}, s.streams[i]? = some τ → τ.Grows τ' →
      ∃ σ', (s.streams.set i τ')[k]? = some σ' ∧ σ.Grows σ' := by
    intro i τ τ' hτ hgrows
    by_cases hk : i = k
    · subst hk
      obtain rfl := Option.some.inj (hσ.symm.trans hτ)
      exact ⟨τ', List.getElem?_set_self (List.getElem?_eq_some_iff.mp hτ).1, hgrows⟩
    · exact ⟨σ, (List.getElem?_set_ne hk).trans hσ, .refl σ⟩
  rcases StreamPhase.next_cases hnext with
    ⟨num, i, τ, hp, hi, hτ, rfl, -⟩ | ⟨num, i, hp, hi, rfl, -⟩ |
    ⟨num, i, val, τ, hp, hτ, rfl, -⟩ | ⟨num, i, val, idx, τ, hp, hτ, rfl, -⟩
  · exact ⟨σ, hσ, .refl σ⟩
  · exact ⟨σ, hσ, .refl σ⟩
  · refine hset hτ ⟨rfl, List.prefix_append _ _, fun j v hv => ?_⟩
    rw [Streamlog.fetchAdd]
    by_cases hj : j = τ.tail
    · have hfree := (h i τ hτ).free j (Nat.le_of_eq hj.symm)
      rw [hv] at hfree
      cases hfree
    · exact (Function.update_of_ne hj _ _).trans hv
  · refine hset hτ ⟨rfl, List.prefix_rfl, fun j v hv => ?_⟩
    rw [Streamlog.store]
    by_cases hj : j = idx
    · have hres := ((h i τ hτ).storing w r id num val idx ⟨hx, hp⟩).2
      rw [← hj, hv] at hres
      cases hres
    · exact (Function.update_of_ne hj _ _).trans hv

theorem step_grows {s s' : Streaming D ω} (h : s.Listed) (hs : Step s s') :
    (∀ (k : Nat) (σ : Streamlog), s.streams[k]? = some σ →
      ∃ σ', s'.streams[k]? = some σ' ∧ σ.Grows σ') ∧
      s.done <+: s'.done := by
  cases hs with
  | token => exact ⟨fun k σ hσ => ⟨σ, hσ, .refl σ⟩, List.prefix_rfl⟩
  | log => exact ⟨fun k σ hσ => ⟨σ, hσ, .refl σ⟩, List.prefix_rfl⟩
  | finish => exact ⟨fun k σ hσ => ⟨σ, hσ, .refl σ⟩, List.prefix_append _ _⟩
  | enter => exact ⟨fun k σ hσ => ⟨σ, hσ, .refl σ⟩, List.prefix_rfl⟩
  | stream w r id σs p hx hnext => exact ⟨fun k σ hσ => next_grows h hx hnext hσ, List.prefix_rfl⟩
  | addStream fn =>
    refine ⟨fun k σ hσ => ⟨σ, ?_, .refl σ⟩, List.prefix_rfl⟩
    rw [List.getElem?_append_left (List.getElem?_eq_some_iff.mp hσ).1]
    exact hσ

theorem run_grows {indexes : (k : Nat) → List (LogIndex k)} {roles : ω → Role}
    {s s' : Streaming D ω} (hroles : ∀ w requestBatchSize dataBlockSize,
      roles w = .handle requestBatchSize dataBlockSize → 1 ≤ requestBatchSize)
    (h : Reached indexes roles s) (hrun : Relation.ReflTransGen Step s s') :
    (∀ (k : Nat) (σ : Streamlog), s.streams[k]? = some σ →
      ∃ σ', s'.streams[k]? = some σ' ∧ σ.Grows σ') ∧
      s.done <+: s'.done := by
  induction hrun with
  | refl => exact ⟨fun k σ hσ => ⟨σ, hσ, .refl σ⟩, List.prefix_rfl⟩
  | tail hrun hs ih =>
    obtain ⟨hgrows, hdone⟩ := step_grows (listed_reached hroles (h.trans hrun)) hs
    refine ⟨fun k σ hσ => ?_, ih.2.trans hdone⟩
    obtain ⟨τ, hτ, hστ⟩ := ih.1 k σ hσ
    obtain ⟨υ, hυ, hτυ⟩ := hgrows k τ hτ
    exact ⟨υ, hυ, hστ.trans hτυ⟩

/-- A call that has returned has a position in the list of each stream that it found and that
accepts its record: its value stays there, and is in front of that of any such call that begins
after its return. -/
theorem stream_ordered {indexes : (k : Nat) → List (LogIndex k)} {roles : ω → Role}
    {s : Streaming D ω} (hroles : ∀ w requestBatchSize dataBlockSize,
      roles w = .handle requestBatchSize dataBlockSize → 1 ≤ requestBatchSize)
    (h : Reached indexes roles s) {k : Nat} {σ : Streamlog} (hσ : s.streams[k]? = some σ)
    {d : StreamDone} (hd : d ∈ s.done) (hdk : d.kept σ.fn k = true) :
    ∃ i, ∀ s', Relation.ReflTransGen Step s s' → ∃ σ', s'.streams[k]? = some σ' ∧ σ'.fn = σ.fn ∧
      i < σ'.tail ∧ σ'.slots i = d.slot σ.fn ∧
      ∀ e ∈ s'.done, e.kept σ.fn k = true → e ∉ s.done →
        (∀ w r, (s.callers w).current ≠ some (r, e.id)) →
        ∃ j, i < j ∧ j < σ'.tail ∧ σ'.slots j = e.slot σ.fn := by
  simp only [StreamDone.kept, Bool.and_eq_true, decide_eq_true_eq] at hdk
  have hst := standing_reached h
  obtain ⟨i, hi, -, hival⟩ :=
    (listed_reached hroles h k σ hσ).returned hst (apart_reached hroles h) hd hdk.1 hdk.2
  have hilt := (List.getElem?_eq_some_iff.mp hi).1
  refine ⟨i, fun s' hrun => ?_⟩
  have hreach' := h.trans hrun
  have hst' := standing_reached hreach'
  obtain ⟨hgrows, hdone⟩ := run_grows hroles h hrun
  obtain ⟨τ, hτ, hgrow⟩ := hgrows k σ hσ
  have hents' := listed_reached hroles hreach' k τ hτ
  refine ⟨τ, hτ, hgrow.fn, ?_, hgrow.stored i _ hival, fun e he hek hnew hidle => ?_⟩
  · rw [← hents'.length]
    exact Nat.lt_of_lt_of_le hilt hgrow.owners.length_le
  · simp only [StreamDone.kept, Bool.and_eq_true, decide_eq_true_eq] at hek
    obtain ⟨j, hj, hjt, hjval⟩ := hents'.returned hst' (apart_reached hroles hreach') he hek.1
      (by rw [hgrow.fn]; exact hek.2)
    rw [hgrow.fn] at hjval
    refine ⟨j, ?_, hjt, hjval⟩
    by_contra hle
    have hlt : j < σ.owners.length := Nat.lt_of_le_of_lt (Nat.le_of_not_lt hle) hilt
    have hown : e.id ∈ σ.owners := by
      obtain ⟨more, hmore⟩ := hgrow.owners
      rw [← hmore, List.getElem?_append_left hlt] at hj
      exact List.mem_of_getElem? hj
    obtain ⟨r, hp, -⟩ := ((listed_reached hroles h k σ hσ).mem_iff e.id).mp hown
    rcases hp with ⟨d', hd', -, hid, -⟩ | ⟨w, p, hw, -⟩
    · have heq := List.inj_on_of_nodup_map hst'.distinct (hdone.subset hd') he hid
      exact hnew (heq ▸ hd')
    · exact hidle w r hw.1

end Streaming

/-! ## Callers that take turns -/

/-- What the next step of a caller is. -/
inductive CallerMove (D : Type) where
  | token : LogStore D → Caller → CallerMove D
  | log : LogStore D → Caller → CallerMove D
  | finish : LogStore D → Caller → Record → (id num : Nat) → CallerMove D
  | enter : CallerMove D
  | stream : Record → (id : Nat) → CallerMove D

namespace Caller

variable {D : Type} [Datalog D]

/-- The caller begins an insertion of its kind, or goes on with its call by one step. -/
def move (st : LogStore D) (x : Caller) (p : StreamPhase) (call : Option Insertable) :
    Option (CallerMove D) :=
  match x.nextToken, x.current, p with
  | some (id, t, x'), _, _ => (st.addEntry id t).toOption.map fun st' => .token st' x'
  | none, some (r, id), .behind num => (x.turn st call).map fun q =>
    if q.2.current.isNone then .finish q.1 q.2 r id num else .log q.1 q.2
  | none, some (r, id), p =>
    if x.atStreams then some (if p = .before then .enter else .stream r id)
    else (x.turn st call).bind fun q => if q.2.current.isNone then none else some (.log q.1 q.2)
  | none, none, _ => (x.turn st call).map fun q => .log q.1 q.2

/-- What a move needs. -/
def Legal (st : LogStore D) (x : Caller) (p : StreamPhase) : CallerMove D → Prop
  | .token st' x' => ∃ id t, x.nextToken = some (id, t, x') ∧ st.addEntry id t = .ok st'
  | .log st' x' => x.nextToken = none ∧ x.Step st st' x' ∧
    (x.atStreams = true → ∃ num, p = .behind num) ∧ (x'.current = none → x.current = none)
  | .finish st' x' r id num =>
    x.Step st st' x' ∧ x.current = some (r, id) ∧ x'.current = none ∧ p = .behind num
  | .enter => x.atStreams = true ∧ p = .before
  | .stream r id => x.current = some (r, id)

theorem legal_of_move {st : LogStore D} {x : Caller} {p : StreamPhase} {call : Option Insertable}
    {m : CallerMove D} (h : x.move st p call = some m) : x.Legal st p m := by
  unfold move at h
  split at h
  · next id t x' htoken =>
    obtain ⟨st', hst, rfl⟩ := Option.map_eq_some_iff.mp h
    exact ⟨id, t, htoken, ok_of_toOption hst⟩
  · next r id num htoken hcurrent =>
    obtain ⟨q, hq, rfl⟩ := Option.map_eq_some_iff.mp h
    split
    · next hnone => exact ⟨step_of_turn hq, hcurrent, Option.isNone_iff_eq_none.mp hnone, rfl⟩
    · next hsome =>
      exact ⟨htoken, step_of_turn hq, fun _ => ⟨num, rfl⟩,
        fun hnone => absurd (Option.isNone_iff_eq_none.mpr hnone) hsome⟩
  · next r id htoken hcurrent _ =>
    split at h
    · next hat =>
      cases h
      split
      · next hbefore => exact ⟨hat, hbefore⟩
      · exact hcurrent
    · next hat =>
      obtain ⟨q, hq, hm⟩ := Option.bind_eq_some_iff.mp h
      split at hm
      · cases hm
      · next hsome =>
        cases hm
        exact ⟨htoken, step_of_turn hq, fun hat' => absurd hat' hat,
          fun hnone => absurd (Option.isNone_iff_eq_none.mpr hnone) hsome⟩
  · next htoken hcurrent =>
    obtain ⟨q, hq, rfl⟩ := Option.map_eq_some_iff.mp h
    refine ⟨htoken, step_of_turn hq, fun hat => ?_, fun _ => hcurrent⟩
    obtain ⟨r, hr⟩ := current_of_atStreams hat
    rw [hcurrent] at hr
    cases hr

end Caller

namespace Streaming

variable {D ω : Type} [Datalog D] [DecidableEq ω]

/-- A caller's turn, with the insertion if it begins one; or a stream is added. -/
inductive Turn (ω : Type) where
  | caller : ω → Option Insertable → Turn ω
  | addStream : FilterFunction → Turn ω

/-- The state after a move of the caller. -/
def moved (s : Streaming D ω) (w : ω) : CallerMove D → Option (Streaming D ω)
  | .token st x => some { s with store := st, callers := Function.update s.callers w x }
  | .log st x => some { s with store := st, callers := Function.update s.callers w x }
  | .finish st x r id num => some
    { store := st
      callers := Function.update s.callers w x
      streams := s.streams
      phases := Function.update s.phases w .before
      done := s.done ++ [⟨r, id, num⟩] }
  | .enter => some
    { s with phases := Function.update s.phases w (.checking s.streams.length 0) }
  | .stream r id => ((s.phases w).next id r s.streams).map fun q =>
    { s with streams := q.1, phases := Function.update s.phases w q.2 }

def turn (s : Streaming D ω) : Turn ω → Option (Streaming D ω)
  | .addStream fn => some { s with streams := s.streams ++ [.new fn] }
  | .caller w call => ((s.callers w).move s.store (s.phases w) call).bind (s.moved w)

theorem step_of_turn (s : Streaming D ω) (t : Turn ω) (s' : Streaming D ω)
    (h : s.turn t = some s') : Step s s' := by
  cases t with
  | addStream fn =>
    cases h
    exact .addStream s fn
  | caller w call =>
    obtain ⟨m, hm, hmoved⟩ := Option.bind_eq_some_iff.mp h
    have hlegal := Caller.legal_of_move hm
    cases m with
    | token st x =>
      cases hmoved
      obtain ⟨id, t, htoken, hst⟩ := hlegal
      exact .token s w _ id t x st rfl htoken hst
    | log st x =>
      cases hmoved
      obtain ⟨htoken, hstep, hat, hopen⟩ := hlegal
      exact .log s w _ st x rfl htoken hstep hat hopen
    | finish st x r id num =>
      cases hmoved
      obtain ⟨hstep, hcurrent, hnone, hphase⟩ := hlegal
      exact .finish s w _ st x r id num rfl hstep hcurrent hnone hphase
    | enter =>
      cases hmoved
      exact .enter s w hlegal.1 hlegal.2
    | stream r id =>
      obtain ⟨q, hq, rfl⟩ := Option.map_eq_some_iff.mp hmoved
      exact .stream s w r id q.1 q.2 hlegal hq

/-- A thread in `log_store::insert` and a handle. -/
def storeAndHandle (w : Bool) : Role := if w then .handle 1 64 else .store

theorem storeAndHandle_batch (w : Bool) (requestBatchSize dataBlockSize : Nat)
    (h : storeAndHandle w = .handle requestBatchSize dataBlockSize) : 1 ≤ requestBatchSize := by
  cases w with
  | false => cases h
  | true =>
    cases h
    decide

end Streaming

end Netplay
