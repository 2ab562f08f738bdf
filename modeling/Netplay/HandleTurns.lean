import Netplay.HandleCalls
import Netplay.IndexedRecords

/-!
# The ids of the handles

A handle takes its ids in batches, and ids are ended in their order. So the ids
that a handle has taken and not yet used stop every call that does not go through
this handle: one call after the other, a call returns exactly if every other
handle is at the end of a batch.
-/

namespace Netplay

/-! ## Where a call spins -/

/-- The computation returns, or it is undefined. -/
def NoSpin {α : Type} (x : Except Halt α) : Prop := x ≠ .error .spins

theorem NoSpin.ok {α : Type} (a : α) : NoSpin (.ok a) := by
  intro h
  cases h

theorem NoSpin.undefined {α : Type} : NoSpin (.error .undefined : Except Halt α) := by
  intro h
  cases h

theorem NoSpin.bind {α β : Type} {x : Except Halt α} {f : α → Except Halt β} (h : NoSpin x)
    (hf : ∀ a, x = .ok a → NoSpin (f a)) : NoSpin (x.bind f) := by
  cases x with
  | error e => exact fun heq => h (by cases heq; rfl)
  | ok a => exact hf a rfl

theorem NoSpin.map {α β : Type} {x : Except Halt α} {f : α → β} (h : NoSpin x) :
    NoSpin (x.map f) := by
  cases x with
  | error e => exact fun heq => h (by cases heq; rfl)
  | ok a => exact NoSpin.ok _

theorem noSpin_foldlM {α β : Type} {f : β → α → Except Halt β} (hf : ∀ b a, NoSpin (f b a))
    (l : List α) : ∀ b, NoSpin (l.foldlM f b) := by
  induction l with
  | nil => exact NoSpin.ok
  | cons a l ih =>
    intro b
    rw [List.foldlM_cons]
    exact (hf b a).bind fun b' _ => ih b'

theorem noSpin_ite {α : Type} {p : Prop} [Decidable p] {a : α} :
    NoSpin (if p then .ok a else .error .undefined) := by
  split
  · exact NoSpin.ok _
  · exact NoSpin.undefined

namespace LogStore

variable {D : Type} [Datalog D]

omit [Datalog D] in
theorem noSpin_addEntry (st : LogStore D) (id : Nat) (t : Token) : NoSpin (st.addEntry id t) := by
  rw [addEntry]
  split
  · exact NoSpin.ok _
  · split
    · exact NoSpin.undefined
    · exact noSpin_ite.map

theorem noSpin_runOp (st : LogStore D) (op : LogOp) : NoSpin (st.runOp op) := by
  cases op with
  | set id offset length => exact noSpin_ite.map
  | append bytes offset => exact noSpin_ite
  | index id tokens => exact noSpin_foldlM (fun st t => st.noSpin_addEntry id t) tokens st

theorem noSpin_runOps (st : LogStore D) (ops : List LogOp) : NoSpin (st.runOps ops) :=
  noSpin_foldlM noSpin_runOp ops st

/-- An insertion does not spin before its `end`. -/
theorem noSpin_insertBody (st : LogStore D) (r : Record) : NoSpin (st.insertBody r) :=
  NoSpin.bind noSpin_ite fun st' _ => st'.takeId.noSpin_runOps _

theorem noSpin_handleBody (st : LogStore D) (h : Handle) (r : Record) :
    NoSpin (st.handleBody h r) := by
  have hids : NoSpin (st.takeIds h) := by
    rw [takeIds]
    split
    · exact noSpin_ite.map
    · exact NoSpin.ok _
  have hbytes : ∀ p : LogStore D × Handle, NoSpin (p.1.takeBytes p.2 r.len) := by
    intro p
    rw [takeBytes]
    split
    · exact noSpin_ite.map
    · exact NoSpin.ok _
  exact hids.bind fun p _ => (hbytes p).bind fun q _ => (q.1.noSpin_runOps _).map

omit [Datalog D] in
theorem noSpin_endBlock {st : LogStore D} {start count : Nat} (h : st.olog.readId = start) :
    NoSpin (st.endBlock start count) := by
  rw [endBlock, OffsetLog.endBlock, if_pos h]
  exact NoSpin.ok _

end LogStore

/-! ## What remains of a batch -/

/-- What remains of the batches of `b` ids after `n` calls; without any batch the
first decrement wraps around. -/
def Balanced (b n remaining : Nat) : Prop :=
  (b ≠ 0 ∧ b ∣ n + remaining ∧ remaining < b) ∨
    (b = 0 ∧ n = 0 ∧ remaining = 0) ∨ (b = 0 ∧ n ≠ 0 ∧ n + remaining = 2 ^ 64)

namespace Balanced

variable {b n remaining : Nat}

theorem init (b : Nat) : Balanced b 0 0 := by
  by_cases hb : b = 0
  · exact .inr (.inl ⟨hb, rfl, rfl⟩)
  · exact .inl ⟨hb, Nat.dvd_zero b, Nat.pos_of_ne_zero hb⟩

theorem eq_zero_iff (h : Balanced b n remaining) (hn : n < 2 ^ 64) : remaining = 0 ↔ b ∣ n := by
  rcases h with ⟨-, hdvd, hlt⟩ | ⟨rfl, rfl, rfl⟩ | ⟨rfl, hn0, hsum⟩
  · constructor
    · rintro rfl
      exact hdvd
    · intro hbn
      exact Nat.eq_zero_of_dvd_of_lt ((Nat.dvd_add_right hbn).mp hdvd) hlt
  · exact ⟨fun _ => Nat.dvd_zero 0, fun _ => rfl⟩
  · rw [Nat.zero_dvd]
    omega

/-- A call that starts a batch. -/
theorem start (h : Balanced b n 0) (hn : n < 2 ^ 64) : Balanced b (n + 1) (dec64 b) := by
  have hdvd := (h.eq_zero_iff hn).mp rfl
  by_cases hb : b = 0
  · subst hb
    have h0 : n = 0 := Nat.zero_dvd.mp hdvd
    subst h0
    exact .inr (.inr ⟨rfl, Nat.one_ne_zero, rfl⟩)
  · rw [dec64, if_neg hb]
    refine .inl ⟨hb, ?_, by omega⟩
    have heq : n + 1 + (b - 1) = n + b := by omega
    rw [heq]
    exact Nat.dvd_add_self_right.mpr hdvd

/-- A call in the middle of one. -/
theorem next (h : Balanced b n remaining) (h0 : remaining ≠ 0) :
    Balanced b (n + 1) (dec64 remaining) := by
  rw [dec64, if_neg h0]
  have heq : n + 1 + (remaining - 1) = n + remaining := by omega
  rcases h with ⟨hb, hdvd, hlt⟩ | ⟨-, -, hz⟩ | ⟨rfl, hn0, hsum⟩
  · exact .inl ⟨hb, by rw [heq]; exact hdvd, by omega⟩
  · exact absurd hz h0
  · exact .inr (.inr ⟨rfl, Nat.succ_ne_zero n, by rw [heq]; exact hsum⟩)

end Balanced

/-- The handle that is called. -/
def InsertCall.callee {η : Type} : InsertCall η → Option η
  | .store _ => none
  | .handle w _ => some w

namespace Session

variable {D η : Type} [Datalog D] [DecidableEq η]

/-- How many of the calls go through the handle. -/
def callsOf (cs : List (InsertCall η)) (w : η) : Nat := cs.countP fun c => c.callee = some w

theorem callsOf_snoc (cs : List (InsertCall η)) (c : InsertCall η) (w : η) :
    callsOf (cs ++ [c]) w = callsOf cs w + if c.callee = some w then 1 else 0 := by
  simp [callsOf, List.countP_append, List.countP_singleton]

theorem callsOf_le (cs : List (InsertCall η)) (w : η) : callsOf cs w ≤ cs.length :=
  List.countP_le_length

/-! ## One call after the other -/

variable {indexes : (k : Nat) → List (LogIndex k)} {requestBatchSize dataBlockSize : η → Nat}
  {cs : List (InsertCall η)} {c : InsertCall η} {s s' : Session D η} {w : η} {r : Record} {id : Nat}

/-- Between two calls at most one handle is in the middle of a batch, and its next
id is the one to be ended next. -/
structure Turns (requestBatchSize : η → Nat) (cs : List (InsertCall η)) (s : Session D η) : Prop where
  readId : s.store.olog.readId = cs.length
  bound : cs.length ≤ OffsetLog.numBuckets * OffsetLog.bucketSize
  size : ∀ w, (s.handles w).idBlockSize = requestBatchSize w
  balanced : ∀ w, Balanced (requestBatchSize w) (callsOf cs w) (s.handles w).remainingIds
  idle : (∀ w, (s.handles w).remainingIds = 0) → s.store.olog.writeId = cs.length
  alone : ∀ w, (s.handles w).remainingIds ≠ 0 → ∀ v, v ≠ w → (s.handles v).remainingIds = 0
  curId : ∀ w, (s.handles w).remainingIds ≠ 0 → (s.handles w).curId = cs.length
  writeId : ∀ w, (s.handles w).remainingIds ≠ 0 →
    s.store.olog.writeId = cs.length + (s.handles w).remainingIds ∨
      (s.store.olog.writeId + 2 ^ 64 = cs.length + (s.handles w).remainingIds ∧
        (s.handles w).remainingIds < 2 ^ 64)

/-- The handles other than the called one are at the end of a batch. -/
def Free (s : Session D η) (c : InsertCall η) : Prop :=
  ∀ w, c.callee ≠ some w → (s.handles w).remainingIds = 0

omit [DecidableEq η] in
theorem Turns.init [DecidableEq η] :
    Turns (D := D) requestBatchSize [] (init indexes requestBatchSize dataBlockSize) :=
  ⟨rfl, Nat.zero_le _, fun _ => rfl, fun _ => Balanced.init _, fun _ => rfl, fun _ h => absurd rfl h,
    fun _ h => absurd rfl h, fun _ h => absurd rfl h⟩

omit [Datalog D] in
theorem Turns.writeId_ne (h : Turns requestBatchSize cs s) (hw : (s.handles w).remainingIds ≠ 0) :
    s.store.olog.writeId ≠ cs.length := by
  have := h.writeId w hw
  omega

omit [Datalog D] in
theorem Turns.callsOf_lt (h : Turns requestBatchSize cs s) (w : η) : callsOf cs w < 2 ^ 64 :=
  Nat.lt_of_le_of_lt (callsOf_le cs w) (Nat.lt_of_le_of_lt h.bound (by decide))

omit [Datalog D] in
/-- The handles are at the end of a batch as the numbers of their calls say. -/
theorem Turns.free_iff (h : Turns requestBatchSize cs s) :
    Free s c ↔ ∀ w, c.callee ≠ some w → requestBatchSize w ∣ callsOf cs w := by
  refine forall_congr' fun w => imp_congr_right fun _ => ?_
  exact (h.balanced w).eq_zero_iff (h.callsOf_lt w)

/-- A call returns if no other handle is in the middle of a batch. -/
theorem Turns.noSpin (h : Turns requestBatchSize cs s) (hfree : Free s c) : NoSpin (s.call c) := by
  cases c with
  | store r =>
    refine NoSpin.map (NoSpin.bind (s.store.noSpin_insertBody r) fun body hbody => ?_)
    refine NoSpin.map (LogStore.noSpin_endBlock ?_)
    rw [(LogStore.insertBody_counters hbody).1, h.readId, h.idle fun w => hfree w nofun]
  | handle w r =>
    refine NoSpin.map (NoSpin.bind (s.store.noSpin_handleBody _ r) fun p hbody => ?_)
    have hp := LogStore.handleBody_spec hbody
    refine NoSpin.map (LogStore.noSpin_endBlock ?_)
    rw [hp.readId, h.readId]
    rcases hp.ids with ⟨h0, hcur, -⟩ | ⟨h0, hcur, -⟩
    · have hidle : ∀ v, (s.handles v).remainingIds = 0 := by
        intro v
        by_cases hv : v = w
        · rw [hv, h0]
        · exact hfree v fun heq => hv (Option.some.inj heq).symm
      rw [hcur, h.idle hidle]
    · rw [hcur, h.curId w h0]

/-- And it returns only then. -/
theorem Turns.free (h : Turns requestBatchSize cs s) (hc : s.call c = .ok (s', id)) : Free s c := by
  intro v hv
  by_contra h0
  cases c with
  | store r =>
    obtain ⟨st, hins, -⟩ := call_store_eq hc
    obtain ⟨hid, body, hbody, hread, -⟩ := LogStore.insert_eq hins
    rw [(LogStore.insertBody_counters hbody).1, h.readId] at hread
    exact h.writeId_ne h0 (hid.symm.trans hread.symm)
  | handle w r =>
    obtain ⟨st', h', hbody, hread, -, -⟩ := call_handle_eq hc
    have hne : w ≠ v := fun heq => hv (congrArg some heq)
    rw [hbody.readId, h.readId] at hread
    rcases hbody.ids with ⟨-, hcur, -⟩ | ⟨hw, -⟩
    · exact h.writeId_ne h0 (by rw [← hcur, hread])
    · exact hw (h.alone v h0 w hne)

theorem Turns.call_store (h : Turns requestBatchSize cs s)
    (hc : s.call (.store r) = .ok (s', id)) : Turns requestBatchSize (cs ++ [.store r]) s' := by
  have hfree : ∀ w, (s.handles w).remainingIds = 0 := fun w => h.free hc w nofun
  have hread' := call_readId hc
  obtain ⟨st, hins, rfl⟩ := call_store_eq hc
  obtain ⟨-, body, hbody, -, rfl⟩ := LogStore.insert_eq hins
  obtain ⟨-, hin, -⟩ := LogStore.insertBody_iff.mp hbody
  have hidle := h.idle hfree
  have hlt : cs.length < OffsetLog.numBuckets * OffsetLog.bucketSize := by
    rw [OffsetLog.inBuckets, decide_eq_true_eq, Nat.div_lt_iff_lt_mul (by decide)] at hin
    omega
  refine ⟨?_, ?_, h.size, fun w => ?_, fun _ => ?_, fun w hw => absurd (hfree w) hw,
    fun w hw => absurd (hfree w) hw, fun w hw => absurd (hfree w) hw⟩
  · rw [hread', h.readId, List.length_append]
    rfl
  · rw [List.length_append]
    exact hlt
  · rw [callsOf_snoc, if_neg nofun]
    exact h.balanced w
  · rw [List.length_append, ← hidle]
    exact (LogStore.insertBody_counters hbody).2.1

/-- What a handle has left of its ids behind a call, and how far ids are reserved then. -/
theorem Turns.left (h : Turns requestBatchSize cs s) (hfree : Free s (.handle w r))
    {st' : LogStore D} {h' : Handle} (hbody : LogStore.HandleBody s.store (s.handles w) r st' h')
    (hlt : cs.length < OffsetLog.numBuckets * OffsetLog.bucketSize) :
    Balanced (requestBatchSize w) (callsOf cs w + 1) (dec64 h'.remainingIds) ∧
      (dec64 h'.remainingIds = 0 → st'.olog.writeId = cs.length + 1) ∧
      (dec64 h'.remainingIds ≠ 0 → st'.olog.writeId = cs.length + 1 + dec64 h'.remainingIds ∨
        (st'.olog.writeId + 2 ^ 64 = cs.length + 1 + dec64 h'.remainingIds ∧
          dec64 h'.remainingIds < 2 ^ 64)) := by
  have hbal := h.balanced w
  rcases hbody.ids with ⟨h0, -, hrem, hwrite⟩ | ⟨h0, -, hrem, hwrite⟩
  · have hidle : s.store.olog.writeId = cs.length := h.idle fun v => by
      by_cases hv : v = w
      · rw [hv, h0]
      · exact hfree v fun heq => hv (Option.some.inj heq).symm
    rw [h0] at hbal
    rw [hrem, hwrite, hidle, h.size w]
    refine ⟨hbal.start (h.callsOf_lt w), ?_, ?_⟩ <;> rw [dec64] <;> split <;> omega
  · have hold := h.writeId w h0
    rw [hrem, hwrite]
    refine ⟨hbal.next h0, ?_, ?_⟩ <;> rw [dec64, if_neg h0]
    · simp only [OffsetLog.numBuckets, OffsetLog.bucketSize] at hlt
      omega
    · omega

theorem Turns.call_handle (h : Turns requestBatchSize cs s)
    (hc : s.call (.handle w r) = .ok (s', id)) :
    Turns requestBatchSize (cs ++ [.handle w r]) s' := by
  have hfree := h.free hc
  have hread' := call_readId hc
  obtain ⟨st', h', hbody, hread, -, rfl⟩ := call_handle_eq hc
  have hcur : h'.curId = cs.length := by rw [← hread, hbody.readId, h.readId]
  have hlt : cs.length < OffsetLog.numBuckets * OffsetLog.bucketSize := by
    have hin := hbody.inBuckets
    rw [OffsetLog.inBuckets, decide_eq_true_eq, Nat.div_lt_iff_lt_mul (by decide)] at hin
    omega
  obtain ⟨hbal, hidle, hbusy⟩ := h.left hfree hbody hlt
  have hothers : ∀ v, v ≠ w → (s.handles v).remainingIds = 0 :=
    fun v hv => hfree v fun heq => hv (Option.some.inj heq).symm
  have hsnoc : (cs ++ [InsertCall.handle w r]).length = cs.length + 1 := List.length_append
  -- Every handle but the called one is as it was, and at the end of a batch.
  have honly : ∀ v, (Function.update s.handles w (h'.finish r.len) v).remainingIds ≠ 0 → v = w := by
    intro v hv
    by_contra hne
    rw [Function.update_of_ne hne] at hv
    exact hv (hothers v hne)
  refine ⟨?_, ?_, fun v => ?_, fun v => ?_, fun hzero => ?_, fun v hv u hu => ?_, fun v hv => ?_,
    fun v hv => ?_⟩
  · rw [hread', h.readId, hsnoc]
  · rw [hsnoc]
    exact hlt
  · by_cases hv : v = w
    · subst hv
      simp only [Function.update_self, Handle.finish, hbody.idBlockSize, h.size]
    · simp only [Function.update_of_ne hv, h.size]
  · rw [callsOf_snoc]
    by_cases hv : v = w
    · subst hv
      simp only [Function.update_self, InsertCall.callee, if_true]
      exact hbal
    · have hne : (InsertCall.handle w r).callee ≠ some v := fun heq => hv (Option.some.inj heq).symm
      rw [if_neg hne]
      simp only [Function.update_of_ne hv]
      exact h.balanced v
  · have hw := hzero w
    simp only [Function.update_self] at hw
    rw [hsnoc]
    exact hidle hw
  · obtain rfl := honly v hv
    simp only [Function.update_of_ne hu]
    exact hothers u hu
  · obtain rfl := honly v hv
    simp only [Function.update_self, Handle.finish, hcur, hsnoc]
  · obtain rfl := honly v hv
    simp only [Function.update_self] at hv ⊢
    rw [hsnoc]
    exact hbusy hv

theorem Turns.call (h : Turns requestBatchSize cs s) (hc : s.call c = .ok (s', id)) :
    Turns requestBatchSize (cs ++ [c]) s' := by
  cases c with
  | store r => exact h.call_store hc
  | handle w r => exact h.call_handle hc

theorem turns_calls {ids : List Nat}
    (h : (init indexes requestBatchSize dataBlockSize : Session D η).calls cs = .ok (s, ids)) :
    Turns requestBatchSize cs s :=
  calls_induction (P := fun cs s _ => Turns requestBatchSize cs s) .init
    (fun _ _ _ _ _ _ h hc => h.call hc) cs h

/-- At every call, each other handle has been called a multiple of its batch size. -/
def InTurns (requestBatchSize : η → Nat) (cs : List (InsertCall η)) : Prop :=
  ∀ pre c post, cs = pre ++ c :: post →
    ∀ w, c.callee ≠ some w → requestBatchSize w ∣ callsOf pre w

theorem inTurns_snoc (requestBatchSize : η → Nat) (cs : List (InsertCall η)) (c : InsertCall η) :
    InTurns requestBatchSize (cs ++ [c]) ↔ InTurns requestBatchSize cs ∧
      ∀ w, c.callee ≠ some w → requestBatchSize w ∣ callsOf cs w := by
  constructor
  · intro h
    refine ⟨fun pre c' post heq => h pre c' (post ++ [c]) ?_, h cs c [] rfl⟩
    rw [heq, List.append_assoc, List.cons_append]
  · rintro ⟨hcs, hc⟩ pre c' post heq
    rcases List.eq_nil_or_concat post with rfl | ⟨post', x, rfl⟩
    · obtain ⟨rfl, hcc⟩ := List.append_inj' heq rfl
      cases hcc
      exact hc
    · rw [List.concat_eq_append, ← List.cons_append, ← List.append_assoc] at heq
      obtain ⟨rfl, -⟩ := List.append_inj' heq rfl
      exact hcs pre c' post' rfl

/-- Calls one after the other, none of them undefined: all return exactly if at
each of them every other handle is at the end of a batch. -/
theorem calls_return_iff
    (hdef : (init indexes requestBatchSize dataBlockSize : Session D η).calls cs ≠
      .error .undefined) :
    (∃ p, (init indexes requestBatchSize dataBlockSize : Session D η).calls cs = .ok p) ↔
      InTurns requestBatchSize cs := by
  induction cs using List.reverseRecOn with
  | nil => exact ⟨fun _ pre c post h => by simp at h, fun _ => ⟨_, rfl⟩⟩
  | append_singleton cs c ih =>
    rw [calls_snoc] at hdef
    have ih := ih fun heq => hdef (by rw [heq]; rfl)
    rw [inTurns_snoc]
    constructor
    · rintro ⟨⟨s', ids'⟩, hcalls⟩
      obtain ⟨s, ids, id, hcs, hc, -⟩ := calls_snoc_eq hcalls
      have hturns := turns_calls hcs
      exact ⟨ih.mp ⟨_, hcs⟩, hturns.free_iff.mp (hturns.free hc)⟩
    · rintro ⟨hcs, hc⟩
      obtain ⟨⟨s, ids⟩, hcs⟩ := ih.mpr hcs
      have hturns := turns_calls hcs
      have hspin := hturns.noSpin (hturns.free_iff.mpr hc)
      rw [calls_snoc, hcs]
      rw [hcs] at hdef
      cases hcall : s.call c with
      | error e =>
        cases e with
        | undefined => exact absurd (by simp [Except.bind, hcall, Except.map]) hdef
        | spins => exact absurd hcall hspin
      | ok p => exact ⟨(p.1, ids ++ [p.2]), by simp [Except.bind, hcall, Except.map]⟩

theorem calls_return_batch : ∃ p : Session (BlockLog blockSize) Bool × List Nat,
    (init (fun _ => []) (fun _ => 2) (fun _ => 1280)).calls
      [.handle true .oneByte, .handle true .oneByte, .handle false .oneByte] = .ok p ∧
    InTurns (fun _ => 2)
      [.handle true .oneByte, .handle true .oneByte, .handle false .oneByte] := by
  have hcalls : ∃ p, (init (fun _ => []) (fun _ => 2) (fun _ => 1280) :
      Session (BlockLog blockSize) Bool).calls
        [.handle true .oneByte, .handle true .oneByte, .handle false .oneByte] = .ok p := ⟨_, rfl⟩
  obtain ⟨p, hcalls⟩ := hcalls
  exact ⟨p, hcalls, (calls_return_iff (by rw [hcalls]; nofun)).mp ⟨p, hcalls⟩⟩

/-- An insertion through a handle, then one through the store: the ids that the
handle has left are never ended. -/
theorem calls_spin :
    (init (fun _ => []) (fun _ => 32) (fun _ => 1280) : Session (BlockLog blockSize) Unit).calls
      [.handle () .oneByte, .store .oneByte] = .error .spins := rfl

/-! ## The ids that are returned -/

/-- One handle returns the number of each call, counted from one. -/
theorem handleCalls_ids (rs : List (η × Record)) {ids : List Nat}
    (h : (init indexes requestBatchSize dataBlockSize : Session D η).handleCalls rs =
      .ok (s, ids)) : ids = List.range' 1 rs.length := by
  refine (handleCalls_induction (P := fun rs s ids => s.store.olog.readId = rs.length ∧
    ids = List.range' 1 rs.length) ⟨rfl, rfl⟩ ?_ rs h).2
  rintro rs w r s s' ids id ⟨hread, rfl⟩ hc
  have hread' := call_readId hc
  obtain ⟨st', h', hbody, hcur, rfl, rfl⟩ := call_handle_eq hc
  refine ⟨by rw [hread', hread, List.length_append]; rfl, ?_⟩
  rw [← hcur, hbody.readId, hread, List.length_append, List.length_singleton, List.range'_concat,
    Nat.one_mul, Nat.add_comm 1]

/-- `get` copies the record under the id, and `filter` finds the id under its tokens. -/
def Found (st : LogStore D) (r : Record) (id : Nat) : Prop :=
  (∀ junk, st.get junk id = some r.bytes) ∧
    ∀ t ∈ r.tokens, ∃ res out, st.filter t.indexId t.data t.data = some res ∧ res.Yields out ∧
      id ∈ out

/-- The same ids are returned, and each leads to its record. -/
def PathsAgree (rs : List Record) (batched plain : LogStore D × List Nat) : Prop :=
  batched.2 = plain.2 ∧
    ∀ p ∈ rs.zip batched.2, Found batched.1 p.1 p.2 ∧ Found plain.1 p.1 p.2

/-- A handle returns the id behind the record's. -/
theorem handleCalls_ids_plain (rs : List Record) {b d : Nat} {s : Session D Unit} {st : LogStore D}
    {ids ids' : List Nat}
    (hbatched : (init indexes (fun _ => b) (fun _ => d)).handleCalls (rs.map fun r => ((), r)) =
      .ok (s, ids))
    (hplain : (LogStore.fresh indexes : LogStore D).inserts rs = .ok (st, ids')) :
    ids = ids'.map fun id => id + 1 := by
  have hids := handleCalls_ids _ hbatched
  obtain ⟨hids', -⟩ := LogStore.inserts_ids rs rfl hplain
  rw [hids, hids', List.length_map, ← List.range'_succ_left]
  rfl

/-- The two ways to insert agree if nothing is inserted, and only then. -/
theorem paths_agree_iff (rs : List Record) {b d : Nat} {s : Session D Unit} {st : LogStore D}
    {ids ids' : List Nat}
    (hbatched : (init indexes (fun _ => b) (fun _ => d)).handleCalls (rs.map fun r => ((), r)) =
      .ok (s, ids))
    (hplain : (LogStore.fresh indexes).inserts rs = .ok (st, ids')) :
    PathsAgree rs (s.store, ids) (st, ids') ↔ rs = [] := by
  constructor
  · rintro ⟨hsame, -⟩
    have hids := handleCalls_ids_plain rs hbatched hplain
    obtain ⟨hids', -⟩ := LogStore.inserts_ids rs rfl hplain
    cases rs with
    | nil => rfl
    | cons r rs =>
      have hsame : ids = ids' := hsame
      rw [hids, hids', List.length_cons, List.range'_succ, List.map_cons] at hsame
      exact absurd (List.cons.inj hsame).1 (Nat.succ_ne_self _)
  · rintro rfl
    cases hbatched
    cases hplain
    exact ⟨rfl, fun p hp => (List.not_mem_nil hp).elim⟩

theorem paths_agree_nil : ∃ (s : Session (BlockLog blockSize) Unit) (st : LogStore (BlockLog blockSize))
    (ids ids' : List Nat),
    (init (fun _ => []) (fun _ => 32) (fun _ => 1280)).handleCalls [] = .ok (s, ids) ∧
      (LogStore.fresh fun _ => []).inserts [] = .ok (st, ids') ∧
      PathsAgree [] (s.store, ids) (st, ids') := by
  have hbatched : (init (fun _ => []) (fun _ => 32) (fun _ => 1280) :
      Session (BlockLog blockSize) Unit).handleCalls [] = .ok (_, []) := rfl
  have hplain : (LogStore.fresh fun _ => [] : LogStore (BlockLog blockSize)).inserts [] =
      .ok (_, []) := rfl
  exact ⟨_, _, _, _, hbatched, hplain, (paths_agree_iff [] hbatched hplain).mpr rfl⟩

/-- One byte through a handle is the record 0, and the handle returns 1. -/
theorem paths_disagree :
    ∃ (s : Session (BlockLog blockSize) Unit) (st : LogStore (BlockLog blockSize)),
      (init (fun _ => []) (fun _ => 32) (fun _ => 1280)).handleCalls [((), .oneByte)] =
        .ok (s, [1]) ∧
      (LogStore.fresh fun _ => []).inserts [.oneByte] = .ok (st, [0]) ∧
      s.store.get 0 0 = some [7] ∧ s.store.get 0 1 = some [] ∧
      ¬ PathsAgree [.oneByte] (s.store, [1]) (st, [0]) :=
  ⟨_, _, rfl, rfl, rfl, rfl, fun h => absurd h.1 (by decide)⟩

end Session

end Netplay
