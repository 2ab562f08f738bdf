import Netplay.InvertedIndex
import Netplay.ListGrowth
import Netplay.ScanCoverage

/-!
# A query among writers

One query reads the lists while any number of writers append to them. Where no
slot that is not stored is taken for an id, and the first position holds a
published one, the query returns the ids below its `max_rid` that match, all
of them, and no other.
-/

namespace Netplay

open Packet NetplayUtils BlockTail

/-- A query before it loads `max_rid`, and with it. -/
inductive Phase where
  | waiting : Phase
  | scanning : (maxRid : Nat) → Pc → (results : List Nat) → Phase
  deriving DecidableEq

/-- A step of a writer or of the query; the reads of the scan are among those allowed. -/
inductive QueryStep {ω : Type} [DecidableEq ω] (q : Scan)
    (allowed : Store → Nat → Nat → Pc → Prop) : System ω × Phase → System ω × Phase → Prop where
  | writer (s s' : System ω) (x : Phase) (h : System.Step s s') : QueryStep q allowed (s, x) (s', x)
  | load (s : System ω) : QueryStep q allowed (s, .waiting) (s, .scanning s.store.readId .construct [])
  | scan (s : System ω) (maxRid junk : Nat) (pc pc' : Pc) (res out : List Nat)
      (ha : allowed s.store maxRid junk pc)
      (h : q.step s.store maxRid junk pc = some (pc', out)) :
      QueryStep q allowed (s, .scanning maxRid pc res) (s, .scanning maxRid pc' (res ++ out))

namespace Scan

/-- The packet, captured in second `now`, has the queried token in the range; or the
character accepts it and the second is in the range. -/
def Selects (q : Scan) (filters : Nat → List PacketFilter) (numChars : Nat) (m : Mbuf)
    (now : UInt32) : Prop :=
  match q.target with
  | .index a => (a.isPort → HasPorts m.data) ∧ q.tokMin ≤ a.value m.data now ∧
      a.value m.data now ≤ q.tokMax
  | .character c => c < numChars ∧ (filters c).any (·.applyPkt m.data) = true ∧
      q.tokMin ≤ now.toNat ∧ now.toNat ≤ q.tokMax

theorem character_mem_packetLists {filters : Nat → List PacketFilter} {now numChars ts c : Nat}
    {m : Mbuf} : .character ts c ∈ packetLists filters now numChars m ↔
      ts = now ∧ c < numChars ∧ (filters c).any (·.applyPkt m.data) = true := by
  simp only [packetLists, pktLists, List.mem_cons, reduceCtorEq, false_or, List.mem_append,
    List.mem_map, List.mem_filter, List.mem_range, ListKey.character.injEq]
  constructor
  · rintro (⟨k, -, hk⟩ | ⟨c', ⟨h1, h2⟩, h3, h4⟩)
    · exact hk.elim
    · subst h3
      subst h4
      exact ⟨rfl, h1, h2⟩
  · rintro ⟨rfl, h1, h2⟩
    exact .inr ⟨c, ⟨h1, h2⟩, rfl, rfl⟩

/-- A packet is in a list of the range exactly if the query selects it. -/
theorem selects_iff (q : Scan) {filters : Nat → List PacketFilter} {numChars : Nat} {m : Mbuf}
    {now : UInt32} : (∃ tok, q.tokMin ≤ tok ∧ tok ≤ q.tokMax ∧
      q.target.key tok ∈ packetLists filters now.toNat numChars m) ↔
        q.Selects filters numChars m now := by
  cases ht : q.target with
  | index a =>
    simp only [Selects, ht, Target.key, index_mem_packetLists, mem_listedKeys]
    constructor
    · rintro ⟨tok, h1, h2, a', hidx, hp, rfl⟩
      obtain rfl := Attribute.index_injective hidx
      exact ⟨hp, h1, h2⟩
    · rintro ⟨hp, h1, h2⟩
      exact ⟨_, h1, h2, a, rfl, hp, rfl⟩
  | character c =>
    simp only [Selects, ht, Target.key, character_mem_packetLists]
    constructor
    · rintro ⟨tok, h1, h2, rfl, h3, h4⟩
      exact ⟨h3, h4, h1, h2⟩
    · rintro ⟨h3, h4, h1, h2⟩
      exact ⟨_, h1, h2, rfl, h3, h4⟩

end Scan

namespace System

variable {ω : Type}

/-- The packet of the id matches the query. -/
def Matches (s : System ω) (q : Scan) (v : Nat) : Prop :=
  ∃ e ∈ s.ended, ∃ m, e.Gave v m ∧ q.Selects s.store.filters e.numChars m e.burst.now

variable [DecidableEq ω] {numFilters : Nat} {filters : Nat → List PacketFilter} {s s' : System ω}
  {q : Scan}

/-- Of the published ids those listed in the range are those that match. -/
theorem listed_iff (h : Reached numFilters filters s) {v : Nat} (hv : v < s.store.readId) :
    q.Listed s.store v ↔ s.Matches q v := by
  have hkey : ∀ {e : Ended} {m : Mbuf}, e ∈ s.ended → e.Gave v m →
      (q.Listed s.store v ↔ q.Selects s.store.filters e.numChars m e.burst.now) := by
    intro e m he hm
    rw [← q.selects_iff]
    constructor
    · rintro ⟨tok, j, h1, h2, hj⟩
      exact ⟨tok, h1, h2, (stored_iff h he hm _).mp ⟨j, hj⟩⟩
    · rintro ⟨tok, h1, h2, hin⟩
      obtain ⟨j, hj⟩ := (stored_iff h he hm _).mpr hin
      exact ⟨tok, j, h1, h2, hj⟩
  constructor
  · intro hl
    obtain ⟨e, m, off, hp⟩ := exists_packetAt h hv
    exact ⟨e, hp.mem, m, hp.gave, (hkey hp.mem hp.gave).mp hl⟩
  · rintro ⟨e, he, m, hm, hsel⟩
    exact (hkey he hm).mpr hsel

theorem ended_subset (hs : Step s s') {e : Ended} (he : e ∈ s.ended) : e ∈ s'.ended := by
  cases hs with
  | request w b hw => exact he
  | run w st x hw => exact he
  | publish w b start offset n hw hr => exact List.mem_append_left _ he

theorem filters_of_step (hs : Step s s') : s'.store.filters = s.store.filters := by
  cases hs with
  | request w b hw => rfl
  | run w st x hw => exact (Writer.step_ids hw).1.filters
  | publish w b start offset n hw hr => rfl

/-- A slot that holds a published id after a step held it before. -/
theorem stored_before (h : Reached numFilters filters s) (hs : Step s s') {k : ListKey} {j v : Nat}
    (hv : v < s.store.readId) (hj : (s'.store.lists k).slots j = .stored v) :
    (s.store.lists k).slots j = .stored v := by
  have h' : Reached numFilters filters s' := h.tail hs
  obtain ⟨e, m, off, hp⟩ := exists_packetAt h hv
  have hin := (stored_iff h' (ended_subset hs hp.mem) hp.gave k).mp ⟨j, hj⟩
  rw [filters_of_step hs] at hin
  obtain ⟨j', hj'⟩ := (stored_iff h hp.mem hp.gave k).mpr hin
  have hkeep := stored_of_step (inOrder_reached h) (slotsOwed_reached h) hs hj'
  obtain rfl := (slotsPlaced_reached h').unique k j j' v (by rw [hj]; rfl) (by rw [hkeep]; rfl)
  exact hj'

/-- In every reachable store a scan without packet filter reads sensible lists. -/
theorem sensible (h : Reached numFilters filters s) (hq : q.pktFilter = none) (maxRid : Nat) :
    q.Sensible s.store maxRid fun _ => True where
  null tok j hc := by
    refine ((slotsOwed_reached h).free_iff _ j).mpr ?_
    rw [(listsCreated_reached h).tail _ hc]
    exact Nat.zero_le j
  free tok j hj := ((slotsOwed_reached h).free_iff _ j).mpr hj
  unfiltered _ _ := trivial
  filtered f hf := by
    rw [hq] at hf
    cases hf

/-- What holds of a query while writers run. -/
def QueryOk (s : System ω) (q : Scan) : Phase → Prop
  | .waiting => True
  | .scanning maxRid pc res => maxRid ≤ s.store.readId ∧
      q.Correct s.store maxRid (fun _ => True) pc res ∧ q.Near s.store pc

/-- Steps of the writers leave a query as it is. -/
theorem queryOk_writer (h : Reached numFilters filters s) {x : Phase} (hx : s.QueryOk q x)
    (hs : Step s s') : s'.QueryOk q x := by
  cases x with
  | waiting => trivial
  | scanning maxRid pc res =>
    obtain ⟨hle, hc, hn⟩ := hx
    refine ⟨Nat.le_trans hle (readId_le_of_step hs), hc.stable (fun tok j v hj => ?_)
      (fun tok j v hj hv => ?_), hn.stable fun tok => lists_grow hs _⟩
    · exact stored_of_step (inOrder_reached h) (slotsOwed_reached h) hs hj
    · exact stored_before h hs (Nat.lt_of_lt_of_le hv hle) hj

theorem queryOk_step (hpf : q.pktFilter = none) (hrange : q.tokMin ≤ q.tokMax) {x x' : Phase}
    (h : Reached numFilters filters s) (hx : s.QueryOk q x)
    (hs : QueryStep q q.Safe (s, x) (s', x')) :
    Reached numFilters filters s' ∧ s'.QueryOk q x' := by
  cases hs with
  | writer _ _ _ hs => exact ⟨h.tail hs, queryOk_writer h hx hs⟩
  | load _ => exact ⟨h, Nat.le_refl _, Scan.correct_start _ _ _, trivial⟩
  | scan _ maxRid junk pc pc' res out ha hstep =>
    obtain ⟨hle, hc, hn⟩ := hx
    exact ⟨h, hle, Scan.correct_step hrange (sensible h hpf maxRid) hc ha hstep,
      Scan.near_step hc.stands hn ha hstep⟩

theorem queryOk_run (hpf : q.pktFilter = none) (hrange : q.tokMin ≤ q.tokMax)
    {c : System ω × Phase}
    (h : Relation.ReflTransGen (QueryStep q q.Safe) (init numFilters filters, .waiting) c) :
    Reached numFilters filters c.1 ∧ c.1.QueryOk q c.2 := by
  induction h with
  | refl => exact ⟨.refl, trivial⟩
  | tail _ hs ih => exact queryOk_step hpf hrange ih.1 ih.2 hs

/-- In every run in which the first position of the query holds a published id, no
other slot is taken for an id before it is stored, and the query stands in no
empty list: all results are below `max_rid` and match; at its end the query has
all of them; and it comes to its end once the writers pause where no list of the
range is empty. -/
theorem query_atomic (q : Scan) (hpf : q.pktFilter = none) (hrange : q.tokMin ≤ q.tokMax)
    (hkeys : q.tokMax + 1 < q.target.keys) {maxRid : Nat} {pc : Pc} {res : List Nat}
    (h : Relation.ReflTransGen (QueryStep q q.Safe) (init numFilters filters, .waiting)
      (s, .scanning maxRid pc res)) :
    (∀ v ∈ res, v < maxRid ∧ s.Matches q v) ∧
      (pc = .finished → ∀ v, v < maxRid → s.Matches q v → v ∈ res) ∧
      ((∀ tok, q.tokMin ≤ tok → tok ≤ q.tokMax → (q.list s.store tok).created = true →
        0 < (q.list s.store tok).tail) →
        ∀ junk, ∃ n out, q.drain s.store maxRid n junk pc res = some out) := by
  obtain ⟨hr, hle, hc, hn⟩ := queryOk_run hpf hrange h
  refine ⟨fun v hv => ?_, fun hfin v hv hm => ?_, fun hne junk => ?_⟩
  · obtain ⟨hlt, hl⟩ := hc.sound v hv
    exact ⟨hlt, (listed_iff hr (Nat.lt_of_lt_of_le hlt hle)).mp hl⟩
  · subst hfin
    exact hc.finished hv ((listed_iff hr (Nat.lt_of_lt_of_le hv hle)).mpr hm) trivial
  · have hfinite : q.Finite s.store := ⟨hrange, hkeys, hne, fun f hf => by rw [hpf] at hf; cases hf⟩
    exact Scan.drain_finishes hfinite maxRid junk pc (hn.fits hc.stands hfinite hpf) res

end System

/-! ## Queries that take turns with writers -/

namespace Scan

/-- Whether a read is safe can be computed. -/
instance (q : Scan) (st : Store) (maxRid junk : Nat) : (pc : Pc) →
    Decidable (q.Safe st maxRid junk pc)
  | .visit true it => match h : q.slot st it with
    | .stored v => decidable_of_iff (v < maxRid) (by simp [Safe, h])
    | .free => .isFalse (by simp [Safe, h])
    | .reserved _ => .isFalse (by simp [Safe, h])
  | .check it => match h : q.slot st it with
    | .stored _ => .isTrue (by simp [Safe, h])
    | .free => decidable_of_iff (maxRid ≤ junk) (by simp [Safe, h])
    | .reserved _ => decidable_of_iff (maxRid ≤ junk) (by simp [Safe, h])
  | .advance _ it =>
    inferInstanceAs (Decidable (it.list = true → it.idx + 1 ≤ (q.list st it.tok).tail))
  | .visit false _ => .isTrue trivial
  | .construct => .isTrue trivial
  | .next _ _ => .isTrue trivial
  | .apply _ => .isTrue trivial
  | .finished => .isTrue trivial

end Scan

namespace System

variable {ω : Type} [DecidableEq ω] (q : Scan) (allowed : Store → Nat → Nat → Pc → Prop)
  [∀ st maxRid junk pc, Decidable (allowed st maxRid junk pc)]

/-- The turn of a writer, or of the query with what it reads where nothing is stored. -/
inductive QueryTurn (ω : Type) where
  | writer : Turn ω → QueryTurn ω
  | load : QueryTurn ω
  | read : (junk : Nat) → QueryTurn ω

def queryTurn : System ω × Phase → QueryTurn ω → Option (System ω × Phase)
  | (s, x), .writer t => (s.turn t).map fun s' => (s', x)
  | (s, .waiting), .load => some (s, .scanning s.store.readId .construct [])
  | (s, .scanning maxRid pc res), .read junk =>
    if allowed s.store maxRid junk pc then
      (q.step s.store maxRid junk pc).map fun p => (s, .scanning maxRid p.1 (res ++ p.2))
    else none
  | _, _ => none

theorem step_of_queryTurn (c : System ω × Phase) (t : QueryTurn ω) (c' : System ω × Phase)
    (h : queryTurn q allowed c t = some c') : QueryStep q allowed c c' := by
  obtain ⟨s, x⟩ := c
  cases t with
  | writer t =>
    obtain ⟨s', hs, rfl⟩ := Option.map_eq_some_iff.mp h
    exact .writer s s' x (step_of_turn s t s' hs)
  | load =>
    cases x with
    | waiting =>
      cases h
      exact .load s
    | scanning maxRid pc res => cases h
  | read junk =>
    cases x with
    | waiting => cases h
    | scanning maxRid pc res =>
      simp only [queryTurn] at h
      split at h
      · next ha =>
        obtain ⟨p, hp, rfl⟩ := Option.map_eq_some_iff.mp h
        exact .scan s maxRid junk pc p.1 res p.2 ha hp
      · cases h

end System

/-- The query for source address 0. -/
def zeroQuery : Scan := ⟨.index .srcIp, 0, 0, none⟩

namespace System

/-- Writer `false` ends its call while writer `true` has the second position of the list and has
stored nothing there. The query begins, writer `true` stores its id, and the query goes on. -/
def queryBetween : List (QueryTurn Bool) :=
  (.call false (tcpBurst 7) :: .call true (tcpBurst 7) ::
    (byTurns false true 10 ++ List.replicate 20 (.goOn false))).map .writer ++
  [.load, .read 0, .read 0, .read 0, .writer (.goOn true), .read 0, .read 5,
    .writer (.goOn true), .read 0, .read 0]

/-- The query has the published packet and not the one that is stored behind it. -/
theorem query_atomic_between : ∃ s : System Bool,
    (∀ v ∈ [0], v < 1 ∧ s.Matches zeroQuery v) ∧
    ∀ v, v < 1 → s.Matches zeroQuery v → v ∈ [0] := by
  obtain ⟨⟨s, x⟩, hrun, rfl⟩ :=
    Schedule.exists_run (step_of_queryTurn zeroQuery zeroQuery.Safe) queryBetween
      (by decide +kernel : (Schedule.after (queryTurn zeroQuery zeroQuery.Safe)
        (init 0 fun _ => [], .waiting) queryBetween).map Prod.snd =
          some (.scanning 1 .finished [0]))
  obtain ⟨hsound, hcomplete, -⟩ := query_atomic zeroQuery rfl (Nat.le_refl 0) (by decide) hrun
  exact ⟨s, hsound, hcomplete rfl⟩

/-- A writer stores all its entries; the query reads them before the writer is at its `end`. -/
def queryBefore : List (QueryTurn Bool) :=
  (.call false (tcpBurst 7) :: List.replicate 29 (.goOn false)).map .writer ++
    .load :: List.replicate 5 (.read 0)

/-- A query before the `end` of the burst finds its packet, too: an id that is not
below its `max_rid`. -/
theorem query_not_atomic : ∃ (s : System Bool) (res : List Nat),
    Relation.ReflTransGen (QueryStep zeroQuery fun _ _ _ _ => True)
      (init 0 fun _ => [], .waiting) (s, .scanning 0 .finished res) ∧
    ¬ ∀ v ∈ res, v < 0 ∧ s.Matches zeroQuery v := by
  obtain ⟨⟨s, x⟩, hrun, rfl⟩ :=
    Schedule.exists_run (step_of_queryTurn zeroQuery fun _ _ _ _ => True) queryBefore
      (by decide +kernel : (Schedule.after (queryTurn zeroQuery fun _ _ _ _ => True)
        (init 0 fun _ => [], .waiting) queryBefore).map Prod.snd =
          some (.scanning 0 .finished [0]))
  exact ⟨s, [0], hrun, fun h => Nat.not_lt_zero 0 (h 0 (by simp)).1⟩

end System

end Netplay
