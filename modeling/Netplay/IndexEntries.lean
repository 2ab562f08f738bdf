import Mathlib.Data.Fintype.EquivFin
import Mathlib.Data.List.Nodup
import Mathlib.Data.List.Pairwise
import Netplay.IndexPointers
import Netplay.Schedule

/-!
# The entries of an index under concurrent additions

A `fetch_add` on the tail of a list gives a position to one call. The value is stored in the
bucket that the list had from its allocation on, and no other call stores there.
-/

namespace Netplay

namespace ConcurrentIndex

open BucketedLog

/-- The list and the position that the thread has taken. -/
def Adder.slot : Adder → Option (Nat × Nat)
  | .fetching _ node (.bucket idx) _ => some (node, idx)
  | .storing _ list idx _ => some (list, idx)
  | _ => none

def Added.slot (d : Added) : Nat × Nat := (d.list, d.idx)

/-- The call's list is that of its key, and its value is in the position. -/
structure Added.Stored (sizes : List Nat) (h : Heap) (d : Added) : Prop where
  key : d.call.key < span sizes
  list : h.tree.walk root (Tier.path sizes d.call.key) = some d.list
  entry : ∃ p bucket, locate d.idx = some p ∧
    h.tree.walk root (Tier.path sizes d.call.key ++ [p.1]) = some bucket ∧
    h.slots bucket p.2 = some d.call.val

theorem Added.Stored.quiet {sizes : List Nat} {h h' : Heap} {d : Added} (hd : d.Stored sizes h)
    (hs : h.tree.Sound root) (hq : h.Quiet h') : d.Stored sizes h' := by
  obtain ⟨p, bucket, hp, hbucket, hval⟩ := hd.entry
  refine ⟨hd.key, hq.paths _ _ hd.list, p, bucket, hp, hq.paths _ _ hbucket, ?_⟩
  rw [hq.slots bucket (hs.path_live hbucket), hval]

namespace Adding

variable {ω : Type}

/-- A call has returned with the position, or a thread has taken it. -/
def Taken (s : Adding ω) (slot : Nat × Nat) : Prop :=
  (∃ d ∈ s.done, d.slot = slot) ∨ ∃ w, (s.adders w).slot = some slot

/-- The positions below the tails are taken once each, and the values of the calls that have
returned are stored. -/
structure Entries (sizes : List Nat) (s : Adding ω) : Prop where
  taken_iff : ∀ list ∈ s.heap.tree.live, ∀ j, s.Taken (list, j) ↔ j < s.heap.tail list
  capacity : ∀ list ∈ s.heap.tree.live, s.heap.tail list ≤ listCapacity
  distinct : s.done.Pairwise fun d d' => d.slot ≠ d'.slot
  returned : ∀ d ∈ s.done, ∀ w, (s.adders w).slot ≠ some d.slot
  apart : ∀ w w' slot, (s.adders w).slot = some slot → (s.adders w').slot = some slot → w = w'
  stored : ∀ d ∈ s.done, d.Stored sizes s.heap

theorem entries_init (sizes : List Nat) : Entries sizes (init : Adding ω) where
  taken_iff list _ j := by
    constructor
    · rintro (⟨d, hd, -⟩ | ⟨w, hw⟩)
      · cases hd
      · cases hw
    · exact fun h => absurd h (Nat.not_lt_zero j)
  capacity _ _ := Nat.zero_le _
  distinct := List.Pairwise.nil
  returned _ hd := by cases hd
  apart _ _ _ h := by cases h
  stored _ hd := by cases hd

/-- The list of a position that is taken is in the index. -/
theorem live_of_taken {sizes : List Nat} {s : Adding ω} (hp : Pointers sizes s)
    (he : ∀ d ∈ s.done, d.Stored sizes s.heap) {list j : Nat} (h : s.Taken (list, j)) :
    list ∈ s.heap.tree.live := by
  rcases h with ⟨d, hd, hslot⟩ | ⟨w, hw⟩
  · obtain ⟨rfl, rfl⟩ := Prod.mk.inj hslot
    exact hp.sound.path_live (he d hd).list
  · have hplaced := hp.placed w
    cases hx : s.adders w with
    | idle =>
      rw [hx] at hw
      cases hw
    | fetching call node goal f =>
      rw [hx] at hw hplaced
      cases goal with
      | level size below rest => cases hw
      | bucket idx =>
        cases hw
        obtain ⟨-, path, -, hnode, -⟩ := hplaced
        exact hp.sound.path_live hnode
    | pushing call list =>
      rw [hx] at hw
      cases hw
    | storing call list idx bucket =>
      rw [hx] at hw hplaced
      cases hw
      obtain ⟨-, -, hlist, -⟩ := hplaced
      exact hp.sound.path_live hlist

variable [DecidableEq ω] {size : Nat} {below : List Nat} {s s' : Adding ω}

/-- What the threads have taken, when one of them moves without giving a position or taking one. -/
theorem slot_update {x : Adder} {w : ω} (hx : x.slot = (s.adders w).slot) (v : ω) :
    (Function.update s.adders w x v).slot = (s.adders v).slot := by
  by_cases hvw : v = w
  · subst hvw
    rw [Function.update_self, hx]
  · rw [Function.update_of_ne hvw]

/-- A step of one thread that changes no entry and takes no position. -/
theorem Entries.quiet {sizes : List Nat} (h : Entries sizes s) (hp : Pointers sizes s) {heap : Heap}
    {w : ω} {x : Adder} {cs : List Call} (hq : s.heap.Quiet heap) (hx : x.slot = (s.adders w).slot) :
    Entries sizes ⟨heap, Function.update s.adders w x, s.done, cs⟩ := by
  have hslot := slot_update hx
  have htaken : ∀ slot, Taken ⟨heap, Function.update s.adders w x, s.done, cs⟩ slot ↔ s.Taken slot := by
    intro slot
    simp only [Taken, hslot]
  refine ⟨fun list hlist j => ?_, fun list hlist => ?_, h.distinct, fun d hd v => ?_,
    fun v v' slot hv hv' => ?_, fun d hd => (h.stored d hd).quiet hp.sound hq⟩
  · rw [htaken]
    rcases hq.tail list hlist with ⟨hlive, htail⟩ | ⟨hlive, hzero⟩
    · rw [h.taken_iff list hlive, ← htail]
    · -- nobody has taken a position of a list that was not allocated
      dsimp only
      rw [hzero]
      exact iff_of_false (fun ht => hlive (live_of_taken hp h.stored ht)) (Nat.not_lt_zero j)
  · rcases hq.tail list hlist with ⟨hlive, htail⟩ | ⟨hlive, hzero⟩
    · exact htail ▸ h.capacity list hlive
    · exact hzero ▸ Nat.zero_le _
  · dsimp only
    rw [hslot]
    exact h.returned d hd v
  · dsimp only at hv hv'
    rw [hslot] at hv hv'
    exact h.apart v v' slot hv hv'

/-- A position that is taken after one thread moved is its own or that of another thread. -/
theorem slot_cases {x : Adder} {w v : ω} {slot : Nat × Nat}
    (h : (Function.update s.adders w x v).slot = some slot) :
    (v = w ∧ x.slot = some slot) ∨ (v ≠ w ∧ (s.adders v).slot = some slot) := by
  by_cases hvw : v = w
  · subst hvw
    rw [Function.update_self] at h
    exact .inl ⟨rfl, h⟩
  · rw [Function.update_of_ne hvw] at h
    exact .inr ⟨hvw, h⟩

/-- The positions taken after a thread without one took one. -/
theorem taken_add {heap : Heap} {x : Adder} {w : ω} {slot : Nat × Nat} {cs : List Call}
    (hw : (s.adders w).slot = none) (hx : x.slot = some slot) (slot' : Nat × Nat) :
    Taken ⟨heap, Function.update s.adders w x, s.done, cs⟩ slot' ↔ s.Taken slot' ∨ slot' = slot := by
  constructor
  · rintro (hd | ⟨v, hv⟩)
    · exact .inl (.inl hd)
    · rcases slot_cases hv with ⟨-, heq⟩ | ⟨-, hv⟩
      · exact .inr (Option.some.inj (heq.symm.trans hx))
      · exact .inl (.inr ⟨v, hv⟩)
  · rintro ((hd | ⟨v, hv⟩) | rfl)
    · exact .inl hd
    · have hvw : v ≠ w := by
        rintro rfl
        rw [hw] at hv
        cases hv
      refine .inr ⟨v, ?_⟩
      dsimp only
      rwa [Function.update_of_ne hvw]
    · refine .inr ⟨w, ?_⟩
      dsimp only
      rwa [Function.update_self]

/-- A thread that returns with its position leaves the positions taken as they were. -/
theorem taken_return {heap : Heap} {x : Adder} {w : ω} {d : Added} {cs : List Call}
    (hw : (s.adders w).slot = some d.slot) (hx : x.slot = none) (slot : Nat × Nat) :
    Taken ⟨heap, Function.update s.adders w x, s.done ++ [d], cs⟩ slot ↔ s.Taken slot := by
  constructor
  · rintro (⟨d', hd', heq⟩ | ⟨v, hv⟩)
    · rcases List.mem_append.mp hd' with hd' | hd'
      · exact .inl ⟨d', hd', heq⟩
      · obtain rfl := List.mem_singleton.mp hd'
        exact .inr ⟨w, hw.trans (congrArg some heq)⟩
    · rcases slot_cases hv with ⟨-, hv⟩ | ⟨-, hv⟩
      · cases hx.symm.trans hv
      · exact .inr ⟨v, hv⟩
  · rintro (⟨d', hd', heq⟩ | ⟨v, hv⟩)
    · exact .inl ⟨d', List.mem_append_left _ hd', heq⟩
    · by_cases hvw : v = w
      · subst hvw
        exact .inl ⟨d, List.mem_append_right _ (List.mem_singleton_self _),
          Option.some.inj (hw.symm.trans hv)⟩
      · refine .inr ⟨v, ?_⟩
        dsimp only
        rwa [Function.update_of_ne hvw]

/-- A `fetch_add` takes the position at the tail. -/
theorem Entries.push {sizes : List Nat} (h : Entries sizes s) {w : ω} {call : Call} {list : Nat}
    (hw : s.adders w = .pushing call list) (hlive : list ∈ s.heap.tree.live)
    (hcap : s.heap.tail list < listCapacity) : Entries sizes ⟨s.heap.fetchAdd list,
      Function.update s.adders w (.fetching call list (.bucket (s.heap.tail list)) .check),
      s.done, s.begun⟩ := by
  have hslot : (s.adders w).slot = none := by rw [hw]; rfl
  have hfree : ¬ s.Taken (list, s.heap.tail list) := fun ht =>
    Nat.lt_irrefl _ ((h.taken_iff list hlive _).mp ht)
  refine ⟨fun list' hlist' j => ?_, fun list' hlist' => ?_, h.distinct, fun d hd v hv => ?_,
    fun v v' slot hv hv' => ?_, fun d hd => ?_⟩
  · rw [taken_add hslot rfl, h.taken_iff list' hlist', Prod.mk.injEq, Heap.fetchAdd]
    dsimp only
    by_cases hl : list' = list
    · subst hl
      rw [Function.update_self]
      omega
    · rw [Function.update_of_ne hl]
      simp only [hl, false_and, or_false]
  · rw [Heap.fetchAdd]
    dsimp only
    by_cases hl : list' = list
    · subst hl
      rw [Function.update_self]
      exact hcap
    · rw [Function.update_of_ne hl]
      exact h.capacity list' hlist'
  · rcases slot_cases hv with ⟨-, heq⟩ | ⟨-, hv⟩
    · exact hfree (.inl ⟨d, hd, (Option.some.inj heq).symm⟩)
    · exact h.returned d hd v hv
  · rcases slot_cases hv with ⟨rfl, heq⟩ | ⟨-, hv1⟩
    · rcases slot_cases hv' with ⟨rfl, -⟩ | ⟨-, hv1'⟩
      · rfl
      · cases heq
        exact absurd (.inr ⟨v', hv1'⟩) hfree
    · rcases slot_cases hv' with ⟨rfl, heq⟩ | ⟨-, hv1'⟩
      · cases heq
        exact absurd (.inr ⟨v, hv1⟩) hfree
      · exact h.apart v v' slot hv1 hv1'
  · have hd := h.stored d hd
    exact ⟨hd.key, hd.list, hd.entry⟩

omit [DecidableEq ω] in
/-- The value of a call that has returned is not written over. -/
theorem Entries.store_other {sizes : List Nat} (h : Entries sizes s) (hp : Pointers sizes s) {w : ω}
    {call : Call} {list idx bucket : Nat} {p : Nat × Nat}
    (hw : s.adders w = .storing call list idx bucket) (hloc : locate idx = some p) {d : Added}
    (hd : d ∈ s.done) : d.Stored sizes (s.heap.store bucket p.2 call.val) := by
  have hstored := h.stored d hd
  obtain ⟨p', bucket', hp', hbucket', hval⟩ := hstored.entry
  refine ⟨hstored.key, hstored.list, p', bucket', hp', hbucket', ?_⟩
  rw [Heap.store_slots_other, hval]
  rintro ⟨rfl, hoff⟩
  -- one bucket is in one list, and one place in it belongs to one position
  have hplaced := hp.placed w
  rw [hw] at hplaced
  obtain ⟨-, hidx, hlist, q, hq, hbucket⟩ := hplaced
  obtain rfl : p = q := Option.some.inj (hloc.symm.trans hq)
  have hpaths := hp.sound.walk_injective _ hbucket' hbucket
  obtain ⟨hkeys, hcell⟩ := List.append_inj' hpaths rfl
  have hp_eq : p' = p := Prod.ext (List.cons.inj hcell).1 hoff
  have hlist_eq : d.list = list := by
    have := hstored.list
    rw [hkeys, hlist] at this
    exact (Option.some.inj this).symm
  have hdidx : d.idx < listCapacity := by
    have hlive := hp.sound.path_live hstored.list
    have hlt := (h.taken_iff d.list hlive d.idx).mp (.inl ⟨d, hd, rfl⟩)
    exact Nat.lt_of_lt_of_le hlt (h.capacity d.list hlive)
  have hcap : listCapacity < 2 ^ 36 := by decide
  have hidx_eq : d.idx = idx := locate_injective (Nat.lt_trans hdidx hcap) (Nat.lt_trans hidx hcap)
    hp' (hp_eq ▸ hloc)
  refine h.returned d hd w ?_
  rw [hw, Added.slot, hlist_eq, hidx_eq]
  rfl

/-- A store ends its call. -/
theorem Entries.store {sizes : List Nat} (h : Entries sizes s) (hp : Pointers sizes s) {w : ω}
    {call : Call} {list idx bucket : Nat} {p : Nat × Nat}
    (hw : s.adders w = .storing call list idx bucket) (hloc : locate idx = some p) :
    Entries sizes ⟨s.heap.store bucket p.2 call.val, Function.update s.adders w .idle,
      s.done ++ [⟨call, list, idx⟩], s.begun⟩ := by
  have hslot : (s.adders w).slot = some (list, idx) := by rw [hw]; rfl
  -- the thread that returns has no position any more
  have hothers : ∀ v slot, (Function.update s.adders w .idle v).slot = some slot →
      v ≠ w ∧ (s.adders v).slot = some slot := by
    intro v slot hv
    rcases slot_cases hv with ⟨-, hv⟩ | hv
    · cases hv
    · exact hv
  refine ⟨fun list' hlist' j => (taken_return hslot rfl _).trans (h.taken_iff list' hlist' j),
    h.capacity, ?_, fun d hd v hv => ?_, fun v v' slot hv hv' => h.apart v v' slot
      (hothers v slot hv).2 (hothers v' slot hv').2, fun d hd => ?_⟩
  · rw [List.pairwise_append]
    refine ⟨h.distinct, List.pairwise_singleton _ _, fun d hd d' hd' heq => ?_⟩
    obtain rfl := List.mem_singleton.mp hd'
    exact h.returned d hd w (hslot.trans (congrArg some heq.symm))
  · obtain ⟨hvw, hv⟩ := hothers v _ hv
    rcases List.mem_append.mp hd with hd | hd
    · exact h.returned d hd v hv
    · obtain rfl := List.mem_singleton.mp hd
      exact hvw (h.apart v w _ hv hslot)
  · rcases List.mem_append.mp hd with hd | hd
    · exact h.store_other hp hw hloc hd
    · obtain rfl := List.mem_singleton.mp hd
      have hplaced := hp.placed w
      rw [hw] at hplaced
      obtain ⟨hkey, -, hlist, q, hq, hbucket⟩ := hplaced
      obtain rfl : p = q := Option.some.inj (hloc.symm.trans hq)
      exact ⟨hkey, hlist, p, bucket, hloc, hbucket, Heap.store_slots _ _ _ _⟩

/-- What was not taken by a level is not taken by the one below. -/
theorem slot_reached (call : Call) (node x : Nat) (goal : Goal) :
    (goal.reached call node x).slot = (Adder.fetching call node goal .reload).slot := by
  cases goal with
  | level size below rest => cases below <;> rfl
  | bucket idx => rfl

theorem slot_fetching (call : Call) (node : Nat) (goal : Goal) (f f' : Fetch) :
    (Adder.fetching call node goal f).slot = (Adder.fetching call node goal f').slot := by
  cases goal <;> rfl

theorem entries_step (hp : Pointers (size :: below) s) (h : Entries (size :: below) s)
    (hs : Step size below s s') : Entries (size :: below) s' := by
  cases hs with
  | call w call hw hkey => exact h.quiet hp (Heap.Quiet.refl _) (by rw [hw]; rfl)
  | run w a b heap x ret hx =>
    rcases Adder.next_cases hx with ⟨call, node, goal, f, f', c, hw, hc, hf, rfl, rfl⟩ |
      ⟨call, node, goal, c, y, hw, hc, hy, rfl, rfl, rfl⟩ |
      ⟨call, list, hw, hlive, hcap, rfl, rfl, rfl⟩ |
      ⟨call, list, idx, bucket, p, hw, hloc, hlive, hoff, rfl, rfl, rfl⟩
    · rw [Option.toList_none, List.append_nil]
      refine h.quiet hp (fetched_of_pointers hp hw hf).quiet ?_
      rw [hw]
      exact slot_fetching call node goal f' f
    · rw [Option.toList_none, List.append_nil]
      refine h.quiet hp (Heap.Quiet.refl _) ?_
      rw [hw]
      exact slot_reached call node y goal
    · rw [Option.toList_none, List.append_nil]
      exact h.push hw hlive hcap
    · exact h.store hp hw hloc

theorem entries_reached (hsel : Tier.Selectable (size :: below)) (h : Reached size below s) :
    Entries (size :: below) s := by
  induction h with
  | refl => exact entries_init _
  | tail hr hs ih => exact entries_step (pointers_reached hsel hr) ih hs

end Adding

/-! ## The calls that were begun -/

/-- The call that the thread is in. -/
def Adder.call : Adder → Option Call
  | .idle => none
  | .fetching call _ _ _ => some call
  | .pushing call _ => some call
  | .storing call _ _ _ => some call

theorem Adder.call_reached (call : Call) (node x : Nat) (goal : Goal) :
    (goal.reached call node x).call = some call := by
  cases goal with
  | level size below rest => cases below <;> rfl
  | bucket idx => rfl

/-- A step goes on with the call, or returns from it. -/
theorem Adder.next_call {h h' : Heap} {a b : Nat} {x x' : Adder} {ret : Option Added}
    (hx : x.next h a b = some (h', x', ret)) :
    (ret = none ∧ x'.call = x.call) ∨ ∃ d, ret = some d ∧ x' = .idle ∧ x.call = some d.call := by
  rcases Adder.next_cases hx with ⟨call, node, goal, f, f', c, rfl, -, -, rfl, rfl⟩ |
    ⟨call, node, goal, c, y, rfl, -, -, -, rfl, rfl⟩ | ⟨call, list, rfl, -, -, -, rfl, rfl⟩ |
    ⟨call, list, idx, bucket, p, rfl, -, -, -, -, rfl, rfl⟩
  · exact .inl ⟨rfl, rfl⟩
  · exact .inl ⟨rfl, Adder.call_reached call node y goal⟩
  · exact .inl ⟨rfl, rfl⟩
  · exact .inr ⟨_, rfl, rfl, rfl⟩

namespace Adding

variable {ω : Type}

def Quiescent (s : Adding ω) : Prop := ∀ w, s.adders w = .idle

/-- The calls that were begun are those that have returned and those that threads are in. -/
def CallsKept (s : Adding ω) : Prop :=
  ∃ running : List (ω × Call), running.Nodup ∧
    (∀ w call, (w, call) ∈ running ↔ (s.adders w).call = some call) ∧
    s.begun.Perm (s.done.map Added.call ++ running.map Prod.snd)

theorem callsKept_init : (init : Adding ω).CallsKept :=
  ⟨[], List.nodup_nil, fun w call => iff_of_false List.not_mem_nil (by rintro ⟨⟩), List.Perm.refl _⟩

theorem CallsKept.quiescent {s : Adding ω} (h : s.CallsKept) (hq : s.Quiescent) :
    s.begun.Perm (s.done.map Added.call) := by
  obtain ⟨running, -, hmem, hperm⟩ := h
  have hnone : running = [] := by
    rw [List.eq_nil_iff_forall_not_mem]
    rintro ⟨w, call⟩ hin
    have := (hmem w call).mp hin
    rw [hq w] at this
    cases this
  rwa [hnone, List.map_nil, List.append_nil] at hperm

variable [DecidableEq ω] {size : Nat} {below : List Nat} {s s' : Adding ω}

theorem callsKept_step (h : s.CallsKept) (hs : Step size below s s') : s'.CallsKept := by
  obtain ⟨running, hnodup, hmem, hperm⟩ := h
  cases hs with
  | call w call hw hkey =>
    have hnone : ∀ call', (w, call') ∉ running := by
      intro call' hin
      have := (hmem w call').mp hin
      rw [hw] at this
      cases this
    refine ⟨(w, call) :: running, List.nodup_cons.mpr ⟨hnone call, hnodup⟩, fun v call' => ?_, ?_⟩
    · rw [List.mem_cons, Prod.mk.injEq]
      by_cases hvw : v = w
      · subst hvw
        simp [hnone, Adder.call, eq_comm]
      · simp [hvw, hmem]
    · rw [List.map_cons]
      refine (hperm.append_right [call]).trans ?_
      rw [List.append_assoc]
      exact (List.perm_append_singleton _ _).append_left _
  | run w a b heap x ret hx =>
    rcases Adder.next_call hx with ⟨rfl, hcall⟩ | ⟨d, rfl, rfl, hcall⟩
    · refine ⟨running, hnodup, fun v call => ?_, ?_⟩
      · rw [hmem]
        dsimp only
        by_cases hvw : v = w
        · subst hvw
          rw [Function.update_self, hcall]
        · rw [Function.update_of_ne hvw]
      · rwa [Option.toList_none, List.append_nil]
    · refine ⟨running.erase (w, d.call), hnodup.erase _, fun v call => ?_, ?_⟩
      · rw [hnodup.mem_erase_iff, hmem, ne_eq, Prod.mk.injEq]
        dsimp only
        by_cases hvw : v = w
        · subst hvw
          rw [Function.update_self, hcall]
          simp [Adder.call, eq_comm]
        · simp [hvw]
      · have hin : (w, d.call) ∈ running := (hmem w d.call).mpr hcall
        refine hperm.trans ?_
        rw [Option.toList_some, List.map_append, List.append_assoc]
        exact ((List.perm_cons_erase hin).map Prod.snd).append_left _

theorem callsKept_reached (h : Reached size below s) : s.CallsKept := by
  induction h with
  | refl => exact callsKept_init
  | tail _ hs ih => exact callsKept_step ih hs

end Adding

/-! ## What the index holds -/

/-- `at`. -/
def Heap.atKey (h : Heap) (sizes : List Nat) (key : Nat) : Option Nat :=
  h.tree.walk root (Tier.path sizes key)

/-- `get` of a list. -/
def Heap.entry (h : Heap) (list idx : Nat) : Option Nat :=
  (locate idx).bind fun p =>
    if p.1 < listBuckets ∧ p.2 < bucketElems p.1 then
      (h.tree.cells list p.1).bind fun bucket => h.slots bucket p.2
    else none

/-- The entries under a key, up to the size of its list. -/
def Heap.entries (h : Heap) (sizes : List Nat) (key : Nat) : List (Option Nat) :=
  ((h.atKey sizes key).map fun list => (List.range (h.tail list)).map (h.entry list)).getD []

/-- The key of a call and the list that it obtained. -/
def Adder.list : Adder → Option (Nat × Nat)
  | .fetching call node (.bucket _) _ => some (call.key, node)
  | .pushing call list => some (call.key, list)
  | .storing call list _ _ => some (call.key, list)
  | _ => none

/-- The object that the thread is at: it loads or exchanges a cell of it, adds to its tail or
stores in it. -/
def Adder.node : Adder → Option Nat
  | .idle => none
  | .fetching _ node _ _ => some node
  | .pushing _ list => some list
  | .storing _ _ _ bucket => some bucket

theorem Adder.Placed.list {sizes : List Nat} {t : LazyTree Nat Nat} {x : Adder} {key list : Nat}
    (h : x.Placed sizes t) (hx : x.list = some (key, list)) :
    key < span sizes ∧ t.walk root (Tier.path sizes key) = some list := by
  cases x with
  | idle => cases hx
  | fetching call node goal f =>
    cases goal with
    | level size below rest => cases hx
    | bucket idx =>
      cases hx
      obtain ⟨hkey, path, ⟨rfl, -⟩, hnode, -⟩ := h
      exact ⟨hkey, hnode⟩
  | pushing call list =>
    cases hx
    exact h
  | storing call list idx bucket =>
    cases hx
    exact ⟨h.1, h.2.2.1⟩

theorem Adder.Placed.node {sizes : List Nat} {t : LazyTree Nat Nat} {x : Adder} {p : Nat}
    (h : x.Placed sizes t) (hx : x.node = some p) : ∃ path, t.walk root path = some p := by
  cases x with
  | idle => cases hx
  | fetching call node goal f =>
    cases hx
    obtain ⟨-, path, -, hnode, -⟩ := h
    exact ⟨path, hnode⟩
  | pushing call list =>
    cases hx
    exact ⟨_, h.2⟩
  | storing call list idx bucket =>
    cases hx
    obtain ⟨-, -, -, q, -, hbucket⟩ := h
    exact ⟨_, hbucket⟩

/-- `get` returns the value of a call that has returned. -/
theorem Added.Stored.entry_eq {sizes : List Nat} {h : Heap} {d : Added} (hd : d.Stored sizes h)
    (hidx : d.idx < listCapacity) : h.entry d.list d.idx = some d.call.val := by
  obtain ⟨p, bucket, hp, hbucket, hval⟩ := hd.entry
  obtain ⟨q, hq, hin⟩ := locate_capacity hidx
  obtain rfl : p = q := Option.some.inj (hp.symm.trans hq)
  rw [LazyTree.walk_concat_eq_some hd.list] at hbucket
  rw [Heap.entry, hp, Option.bind_some, if_pos hin, hbucket, Option.bind_some, hval]

/-- There are addresses that are not in use. -/
theorem Heap.exists_new (h : Heap) (kind : Kind) : ∃ a b h', h.new kind a b = some h' := by
  obtain ⟨a, ha⟩ := Infinite.exists_notMem_finset h.tree.live
  obtain ⟨b, hb⟩ := Infinite.exists_notMem_finset (h.alloc a).tree.live
  by_cases hkind : kind = .list
  · exact ⟨a, b, _, by rw [Heap.new, if_pos hkind, if_pos ⟨ha, hb⟩]⟩
  · exact ⟨a, b, _, by rw [Heap.new, if_neg hkind, if_pos ha]⟩

theorem Heap.fetch_defined (h : Heap) (kind : Kind) {p : Nat} (c : Nat) {f : Fetch}
    (hp : p ∈ h.tree.live) (hf : f ≠ .reload) : ∃ a b r, h.fetch kind a b p c f = some r := by
  cases f with
  | check => exact ⟨0, 0, _, if_pos hp⟩
  | create =>
    obtain ⟨a, b, h', hnew⟩ := h.exists_new kind
    exact ⟨a, b, _, by rw [fetch, hnew, Option.map_some]⟩
  | exchange item => exact ⟨0, 0, _, if_pos hp⟩
  | reload => exact absurd rfl hf

/-- A thread at an object of the index has a step, unless it is to add to a full list. -/
theorem Adder.Placed.next {sizes : List Nat} {h : Heap} {x : Adder} (hx : x.Placed sizes h.tree)
    (hs : h.tree.Sound root) (hrun : x ≠ .idle) : (∃ a b r, x.next h a b = some r) ∨
      ∃ call list, x = .pushing call list ∧ listCapacity ≤ h.tail list := by
  cases x with
  | idle => exact absurd rfl hrun
  | fetching call node goal f =>
    obtain ⟨-, path, hat, hnode, hreload⟩ := hx
    obtain ⟨c, hc⟩ := hat.cell
    have hlive := hs.path_live hnode
    left
    by_cases hf : f = .reload
    · obtain ⟨c', y, hc', hy⟩ := hreload hf
      obtain rfl : c' = c := Option.some.inj (hc'.symm.trans hc)
      rw [LazyTree.walk_concat_eq_some hnode] at hy
      subst hf
      exact ⟨0, 0, _, by rw [Adder.next, hc, Option.bind_some, if_pos hlive, hy, Option.map_some]⟩
    · obtain ⟨a, b, r, hr⟩ := h.fetch_defined goal.kind c hlive hf
      exact ⟨a, b, _, by rw [Adder.next_fetching hf, hc, Option.bind_some, hr, Option.map_some]⟩
  | pushing call list =>
    by_cases hcap : h.tail list < listCapacity
    · exact .inl ⟨0, 0, _, by rw [Adder.next, if_pos ⟨hs.path_live hx.2, hcap⟩]⟩
    · exact .inr ⟨call, list, rfl, Nat.le_of_not_lt hcap⟩
  | storing call list idx bucket =>
    obtain ⟨-, hidx, -, p, hp, hbucket⟩ := hx
    obtain ⟨q, hq, -, hoff⟩ := locate_capacity hidx
    obtain rfl : p = q := Option.some.inj (hp.symm.trans hq)
    exact .inl ⟨0, 0, _, by rw [Adder.next, hp, Option.bind_some, if_pos ⟨hs.path_live hbucket, hoff⟩]⟩

namespace Adding

variable {ω : Type}

/-- A call with the key has obtained the list. -/
def Obtained (s : Adding ω) (key list : Nat) : Prop :=
  (∃ d ∈ s.done, d.call.key = key ∧ d.list = list) ∨ ∃ w, (s.adders w).list = some (key, list)

/-- The values of the calls with the key that were begun. -/
def valuesUnder (s : Adding ω) (key : Nat) : List Nat :=
  (s.begun.filter fun call => call.key = key).map Call.val

/-- The values of the calls with the key that have returned. -/
def returnedUnder (s : Adding ω) (key : Nat) : List Nat :=
  (s.done.filter fun d => d.call.key = key).map fun d => d.call.val

theorem list_of_obtained {sizes : List Nat} {s : Adding ω} (hp : Pointers sizes s)
    (he : Entries sizes s) {key list : Nat} (h : s.Obtained key list) :
    key < span sizes ∧ s.heap.atKey sizes key = some list := by
  rcases h with ⟨d, hd, rfl, rfl⟩ | ⟨w, hw⟩
  · exact ⟨(he.stored d hd).key, (he.stored d hd).list⟩
  · exact (hp.placed w).list hw

/-- Calls obtain the same list if and only if their keys are the same. -/
theorem obtained_iff {sizes : List Nat} {s : Adding ω} (hsel : Tier.Selectable sizes)
    (hp : Pointers sizes s) (he : Entries sizes s) {key list key' list' : Nat}
    (h : s.Obtained key list) (h' : s.Obtained key' list') : key = key' ↔ list = list' := by
  obtain ⟨hkey, hlist⟩ := list_of_obtained hp he h
  obtain ⟨hkey', hlist'⟩ := list_of_obtained hp he h'
  constructor
  · rintro rfl
    exact Option.some.inj (hlist.symm.trans hlist')
  · rintro rfl
    exact Tier.path_injective hsel hkey hkey' (hp.sound.walk_injective _ hlist hlist')

theorem idx_lt {sizes : List Nat} {s : Adding ω} (hp : Pointers sizes s) (he : Entries sizes s)
    {d : Added} (hd : d ∈ s.done) : d.idx < s.heap.tail d.list ∧ d.idx < listCapacity := by
  have hlive := hp.sound.path_live (he.stored d hd).list
  have hlt := (he.taken_iff d.list hlive d.idx).mp (.inl ⟨d, hd, rfl⟩)
  exact ⟨hlt, Nat.lt_of_lt_of_le hlt (he.capacity d.list hlive)⟩

/-- When all calls have returned, the positions of a key's list are those of its calls. -/
theorem positions_perm {sizes : List Nat} {s : Adding ω} (hsel : Tier.Selectable sizes)
    (hp : Pointers sizes s) (he : Entries sizes s) (hq : s.Quiescent) {key list : Nat}
    (hkey : key < span sizes) (hlist : s.heap.atKey sizes key = some list) :
    (List.range (s.heap.tail list)).Perm
      ((s.done.filter fun d => d.call.key = key).map Added.idx) := by
  have hmem : ∀ d, d ∈ (s.done.filter fun d => d.call.key = key) ↔ d ∈ s.done ∧ d.list = list := by
    intro d
    rw [List.mem_filter, decide_eq_true_iff]
    refine and_congr_right fun hd => ?_
    have hstored := he.stored d hd
    constructor
    · rintro rfl
      exact Option.some.inj (hstored.list.symm.trans hlist)
    · rintro rfl
      exact Tier.path_injective hsel hstored.key hkey
        (hp.sound.walk_injective _ hstored.list hlist)
  refine (List.perm_ext_iff_of_nodup List.nodup_range ?_).mpr fun j => ?_
  · refine List.Nodup.map_on (fun d hd d' hd' heq => ?_) ?_
    · by_contra hne
      have : Std.Symm fun d d' : Added => d.slot ≠ d'.slot := ⟨fun _ _ h => h.symm⟩
      obtain ⟨hd, hdl⟩ := (hmem d).mp hd
      obtain ⟨hd', hdl'⟩ := (hmem d').mp hd'
      exact he.distinct.forall hd hd' hne (by rw [Added.slot, Added.slot, hdl, hdl', heq])
    · refine List.Nodup.filter _ (he.distinct.imp fun hne heq => hne (by rw [heq]))
  · rw [List.mem_range, ← he.taken_iff list (hp.sound.path_live hlist), List.mem_map]
    constructor
    · rintro (⟨d, hd, hslot⟩ | ⟨w, hw⟩)
      · obtain ⟨hdl, hdj⟩ := Prod.mk.inj hslot
        exact ⟨d, (hmem d).mpr ⟨hd, hdl⟩, hdj⟩
      · rw [hq w] at hw
        cases hw
    · rintro ⟨d, hd, rfl⟩
      obtain ⟨hd, rfl⟩ := (hmem d).mp hd
      exact .inl ⟨d, hd, rfl⟩

/-- When all calls have returned, the index holds under every key the values they returned with. -/
theorem entries_perm_returned {sizes : List Nat} {s : Adding ω} (hsel : Tier.Selectable sizes)
    (hp : Pointers sizes s) (he : Entries sizes s) (hq : s.Quiescent) {key : Nat}
    (hkey : key < span sizes) : (s.heap.entries sizes key).Perm ((s.returnedUnder key).map some) := by
  cases hlist : s.heap.atKey sizes key with
  | none =>
    have hnil : (s.done.filter fun d => d.call.key = key) = [] := by
      rw [List.filter_eq_nil_iff]
      intro d hd hdkey
      have hstored := (he.stored d hd).list
      rw [of_decide_eq_true hdkey, ← Heap.atKey, hlist] at hstored
      cases hstored
    rw [Heap.entries, hlist, returnedUnder, hnil]
    exact List.Perm.refl []
  | some list =>
    have hvalues : ((s.done.filter fun d => d.call.key = key).map Added.idx).map
        (s.heap.entry list) = (s.returnedUnder key).map some := by
      rw [returnedUnder, List.map_map, List.map_map]
      refine List.map_congr_left fun d hd => ?_
      obtain ⟨hd, hdkey⟩ := List.mem_filter.mp hd
      have hstored := he.stored d hd
      obtain rfl : d.list = list := by
        have := hstored.list
        rw [of_decide_eq_true hdkey] at this
        exact Option.some.inj (this.symm.trans hlist)
      exact hstored.entry_eq (idx_lt hp he hd).2
    rw [Heap.entries, hlist, Option.map_some, Option.getD_some, ← hvalues]
    exact (positions_perm hsel hp he hq hkey hlist).map _

/-- When all calls have returned, they are those that were begun. -/
theorem valuesUnder_perm {s : Adding ω} (h : s.CallsKept) (hq : s.Quiescent) (key : Nat) :
    (s.valuesUnder key).Perm (s.returnedUnder key) := by
  have hperm := h.quiescent hq
  rw [valuesUnder, returnedUnder]
  refine ((hperm.filter _).map _).trans ?_
  rw [List.filter_map, List.map_map]
  exact List.Perm.refl _

/-- When all calls have returned, the index holds under every key the values added. -/
theorem entries_perm {sizes : List Nat} {s : Adding ω} (hsel : Tier.Selectable sizes)
    (hp : Pointers sizes s) (he : Entries sizes s) (hc : s.CallsKept) (hq : s.Quiescent) {key : Nat}
    (hkey : key < span sizes) : (s.heap.entries sizes key).Perm ((s.valuesUnder key).map some) :=
  (entries_perm_returned hsel hp he hq hkey).trans ((valuesUnder_perm hc hq key).symm.map some)

/-- The calls one after the other on the index as one value. -/
def inTurn (sizes : List Nat) (calls : List Call) (t : Tier (List Nat) sizes) :
    Tier (List Nat) sizes :=
  calls.foldl (fun t call => Tier.modify (fun list => list ++ [call.val]) sizes t call.key) t

theorem atKey_inTurn {sizes : List Nat} (hsel : Tier.Selectable sizes) {key : Nat}
    (hkey : key < span sizes) (calls : List Call) : (∀ call ∈ calls, call.key < span sizes) →
    ∀ t : Tier (List Nat) sizes, (Tier.atKey sizes (inTurn sizes calls t) key).getD [] =
      (Tier.atKey sizes t key).getD [] ++ (calls.filter fun c => c.key = key).map Call.val := by
  induction calls with
  | nil => exact fun _ t => (List.append_nil _).symm
  | cons call calls ih =>
    intro hcalls t
    rw [inTurn, List.foldl_cons, ← inTurn, ih fun c hc => hcalls c (List.mem_cons_of_mem _ hc)]
    by_cases hc : call.key = key
    · subst hc
      rw [Tier.atKey_modify_self, List.filter_cons_of_pos (by simp), List.map_cons,
        Option.getD_some, List.append_assoc]
      rfl
    · rw [Tier.atKey_modify_other _ hsel _ (hcalls call List.mem_cons_self) hkey (Ne.symm hc),
        List.filter_cons_of_neg (by simpa using hc)]

/-- When all calls have returned, the index holds under every key what they would have put
there one after the other, in another order perhaps. -/
theorem entries_perm_inTurn {sizes : List Nat} {s : Adding ω} (hsel : Tier.Selectable sizes)
    (hp : Pointers sizes s) (he : Entries sizes s) (hc : s.CallsKept) (hq : s.Quiescent) {key : Nat}
    (hkey : key < span sizes) : (s.heap.entries sizes key).Perm
      (((Tier.atKey sizes (inTurn sizes s.begun (Tier.fresh sizes)) key).getD []).map some) := by
  have hkeys : ∀ call ∈ s.begun, call.key < span sizes := by
    intro call hcall
    obtain ⟨d, hd, rfl⟩ := List.mem_map.mp ((hc.quiescent hq).mem_iff.mp hcall)
    exact (he.stored d hd).key
  have hfresh : (Tier.atKey sizes (Tier.fresh sizes : Tier (List Nat) sizes) key).getD [] = [] :=
    Tier.atKey_fresh_getD sizes key
  rw [atKey_inTurn hsel hkey _ hkeys, hfresh, List.nil_append]
  exact entries_perm hsel hp he hc hq hkey

variable [DecidableEq ω] {size : Nat} {below : List Nat} {s s' : Adding ω}

/-- What is in the index stays in its place. -/
theorem extends_step (hp : Pointers (size :: below) s) (hs : Step size below s s') :
    s.heap.tree.Extends s'.heap.tree root := by
  cases hs with
  | call w call hw hkey => exact LazyTree.Extends.refl _ _
  | run w a b heap x ret hx =>
    rcases Adder.next_cases hx with ⟨call, node, goal, f, f', c, hw, hc, hf, -⟩ |
      ⟨call, node, goal, c, y, -, -, -, rfl, -⟩ | ⟨call, list, -, -, -, rfl, -⟩ |
      ⟨call, list, idx, bucket, p, -, -, -, -, rfl, -⟩
    · exact (fetched_of_pointers hp hw hf).quiet.paths
    · exact LazyTree.Extends.refl _ _
    · exact LazyTree.Extends.refl _ _
    · exact LazyTree.Extends.refl _ _

theorem extends_run (hsel : Tier.Selectable (size :: below)) (hr : Reached size below s)
    (h : Relation.ReflTransGen (Step size below) s s') :
    s.heap.tree.Extends s'.heap.tree root := by
  induction h with
  | refl => exact LazyTree.Extends.refl _ _
  | tail hs hstep ih => exact ih.trans (extends_step (pointers_reached hsel (hr.trans hs)) hstep)

/-- No update of the index is lost. -/
structure NothingLost (size : Nat) (below : List Nat) (s : Adding ω) : Prop where
  /-- Calls obtain the same list for the same key, and different lists for different keys. -/
  lists : ∀ key list key' list', s.Obtained key list → s.Obtained key' list' →
    (key = key' ↔ list = list')
  /-- The threads are at objects of the index. -/
  inIndex : ∀ w p, (s.adders w).node = some p → ∃ path, s.heap.tree.walk root path = some p
  /-- An object of the index is never freed, nor does another take its place. -/
  kept : ∀ path p, s.heap.tree.walk root path = some p →
    ∀ s', Relation.ReflTransGen (Step size below) s s' →
      p ∈ s'.heap.tree.live ∧ s'.heap.tree.walk root path = some p
  /-- A thread in a call goes on, unless its list is full. -/
  goesOn : ∀ w, s.adders w ≠ .idle → (∃ a b r, (s.adders w).next s.heap a b = some r) ∨
    ∃ call list, s.adders w = .pushing call list ∧ listCapacity ≤ s.heap.tail list
  /-- When all calls have returned, the entries under a key are the values added. -/
  complete : s.Quiescent → ∀ key, key < span (size :: below) →
    (s.heap.entries (size :: below) key).Perm ((s.valuesUnder key).map some)

/-- For levels of any sizes that a `uint32_t` can select from, any number of threads and any
interleaving of their steps. -/
theorem nothingLost_reached (hsel : Tier.Selectable (size :: below)) (h : Reached size below s) :
    s.NothingLost size below := by
  have hp := pointers_reached hsel h
  have he := entries_reached hsel h
  refine ⟨fun key list key' list' => obtained_iff hsel hp he, fun w p => (hp.placed w).node,
    fun path p hpath s' hs' => ?_, fun w => (hp.placed w).next hp.sound,
    fun hq key => entries_perm hsel hp he (callsKept_reached h) hq⟩
  have hpath' := extends_run hsel h hs' path p hpath
  exact ⟨(pointers_reached hsel (h.trans hs')).sound.path_live hpath', hpath'⟩

/-- What a thread does in its turn: it begins a call, or goes on with its call by one step, with
the addresses for what it allocates. -/
inductive Turn (ω : Type) where
  | call : ω → Call → Turn ω
  | goOn : ω → (a b : Nat) → Turn ω

def turn (size : Nat) (below : List Nat) (s : Adding ω) : Turn ω → Option (Adding ω)
  | .call w call =>
    if s.adders w = .idle ∧ call.key < span (size :: below) then
      some { s with
        adders := Function.update s.adders w
          (.fetching call root (.level size below call.key) .check)
        begun := s.begun ++ [call] }
    else none
  | .goOn w a b => ((s.adders w).next s.heap a b).map fun p =>
    ⟨p.1, Function.update s.adders w p.2.1, s.done ++ p.2.2.toList, s.begun⟩

theorem step_of_turn (s : Adding ω) (t : Turn ω) (s' : Adding ω)
    (h : s.turn size below t = some s') : Step size below s s' := by
  cases t with
  | call w call =>
    simp only [turn] at h
    split at h
    · next hin =>
      cases h
      exact .call s w call hin.1 hin.2
    · cases h
  | goOn w a b =>
    obtain ⟨p, hp, rfl⟩ := Option.map_eq_some_iff.mp h
    exact .run s w a b _ _ _ hp

/-- Two threads add 42 and 43 under key 7. Both find no list and allocate one; the one that is
second at the compare-exchange frees its list again. -/
def twoAdders : List (Turn Bool) :=
  [.call false ⟨7, 42⟩, .call true ⟨7, 43⟩, .goOn false 0 0, .goOn true 0 0, .goOn false 1 2,
    .goOn true 3 4, .goOn true 0 0, .goOn false 0 0] ++
  (List.replicate 5 [.goOn false 0 0, .goOn true 0 0]).flatten

theorem twoAdders_run : ∃ s : Adding Bool, Reached 256 [] s ∧ s.Quiescent ∧
    s.valuesUnder 7 = [42, 43] := by
  obtain ⟨s, hs, hsee⟩ := Schedule.exists_run step_of_turn twoAdders
    (by decide +kernel : (Schedule.after (turn 256 []) (init : Adding Bool) twoAdders).map
      (fun s => (s.adders false, s.adders true, s.valuesUnder 7)) = some (.idle, .idle, [42, 43]))
  obtain ⟨hfalse, htrue, hvalues⟩ : s.adders false = .idle ∧ s.adders true = .idle ∧
      s.valuesUnder 7 = [42, 43] := by simpa using hsee
  exact ⟨s, hs, fun w => by cases w <;> assumption, hvalues⟩

theorem nothingLost_twoAdders : ∃ s : Adding Bool, s.NothingLost 256 [] ∧
    (s.heap.entries [256] 7).Perm [some 42, some 43] := by
  obtain ⟨s, hs, hq, hvalues⟩ := twoAdders_run
  have hsel : Tier.Selectable [256] := by
    intro size hsize
    rw [List.mem_singleton.mp hsize]
    decide
  have hkept := nothingLost_reached hsel hs
  have hperm := hkept.complete hq 7 (by decide)
  rw [hvalues] at hperm
  exact ⟨s, hkept, hperm⟩

end Adding

end ConcurrentIndex

end Netplay
