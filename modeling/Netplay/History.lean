import Mathlib.Data.List.Induction
import Netplay.InvertedIndex

/-!
# Histories of completed bursts

The store after bursts that were inserted one after the other: ids count the
packets in their order, no list is empty, and a packet is read back from the
data log through the offset log.
-/

namespace Netplay

open Packet NetplayUtils BlockTail

/-- A frame with TCP or UDP, its headers among the bytes that are stored. -/
def Mbuf.TcpOrUdp (m : Mbuf) : Prop := HasPorts m.data ∧ headers ≤ m.size

instance : DecidablePred Mbuf.TcpOrUdp := fun m =>
  inferInstanceAs (Decidable (HasPorts m.data ∧ headers ≤ m.size))

/-- The packets of the bursts in their order, each with its capture second. -/
def packets (bs : List Burst) : List (Mbuf × UInt32) := bs.flatMap fun b => b.pkts.map (·, b.now)

theorem packets_append (bs : List Burst) (b : Burst) :
    packets (bs ++ [b]) = packets bs ++ b.pkts.map (·, b.now) := by
  simp [packets]

/-! ## No list is empty -/

namespace Store

/-- Every list that was created has an entry. -/
def NoneEmpty (st : Store) : Prop :=
  ∀ k, (st.lists k).created = true → 0 < (st.lists k).tail

theorem storeFrom_list (a : Append) (idx n : Nat) (k : ListKey) : ∀ (st : Store) (i : Nat),
    ((st.storeFrom a idx i n).lists k).created = (st.lists k).created ∧
      ((st.storeFrom a idx i n).lists k).tail = (st.lists k).tail := by
  induction n with
  | zero => exact fun _ _ => ⟨rfl, rfl⟩
  | succ n ih =>
    intro st i
    obtain ⟨h1, h2⟩ := ih ((st.updateList a.key (·.allocate (idx + i))).updateList a.key
      (·.store (idx + i) (a.first + i))) (i + 1)
    rw [storeFrom, h1, h2]
    by_cases hk : k = a.key
    · subst hk
      simp only [updateList_self]
      exact ⟨rfl, rfl⟩
    · rw [updateList_other _ hk, updateList_other _ hk]
      exact ⟨rfl, rfl⟩

theorem runAppend_noneEmpty {st : Store} (h : st.NoneEmpty) {a : Append} (ha : 0 < a.count) :
    (st.runAppend a).NoneEmpty := by
  intro k hk
  obtain ⟨h1, h2⟩ := storeFrom_list a (st.lists a.key).tail a.count k
    ((st.updateList a.key .create).updateList a.key (·.reserve a)) 0
  rw [runAppend, h1] at hk
  rw [runAppend, h2]
  by_cases hka : k = a.key
  · subst hka
    rw [updateList_self]
    exact Nat.add_pos_right _ ha
  · rw [updateList_other _ hka, updateList_other _ hka] at hk ⊢
    exact h k hk

theorem runOp_noneEmpty {st : Store} (h : st.NoneEmpty) {op : Op}
    (hop : ∀ a, op = .append a → 0 < a.count) : (st.runOp op).NoneEmpty := by
  cases op with
  | append a => exact runAppend_noneEmpty h (hop a rfl)
  | setOfflen id offset length => exact h
  | appendPkt offset ts pkt len => exact h
  | character c second id pkt =>
    rw [runOp]
    split
    · exact runAppend_noneEmpty h Nat.zero_lt_one
    · exact h

theorem runOps_noneEmpty (ops : List Op) (hops : ∀ a, .append a ∈ ops → 0 < a.count) :
    ∀ st : Store, st.NoneEmpty → (st.runOps ops).NoneEmpty := by
  induction ops with
  | nil => exact fun st h => h
  | cons op ops ih =>
    intro st h
    refine ih (fun a ha => hops a (List.mem_cons_of_mem _ ha)) _ (runOp_noneEmpty h ?_)
    rintro a rfl
    exact hops a List.mem_cons_self

end Store

theorem loopOps_count (now numChars : Nat) (ms : List Mbuf) : ∀ (id offset : Nat) (a : Append),
    .append a ∈ loopOps now numChars id offset ms → a.count = 1 := by
  induction ms with
  | nil => simp [loopOps]
  | cons m ms ih =>
    intro id offset a ha
    rcases List.mem_append.mp ha with ha | ha
    · simp only [pktOps, List.mem_append, List.mem_map, List.mem_cons, reduceCtorEq,
        List.not_mem_nil, or_false, and_false, exists_false, Op.append.injEq] at ha
      obtain ⟨k, -, rfl⟩ := ha
      rfl
    · exact ih _ _ a ha

theorem Store.insertPktburst_noneEmpty {st st' : Store} {b : Burst} (hb : b.pkts ≠ [])
    (h : st.NoneEmpty) (hins : st.insertPktburst b = some st') : st'.NoneEmpty := by
  rw [insertPktburst] at hins
  split at hins
  · cases hins
    refine runOps_noneEmpty _ (fun a ha => ?_) _ h
    rcases List.mem_cons.mp ha with ha | ha
    · cases ha
      exact List.length_pos_iff.mpr hb
    · rw [loopOps_count _ _ _ _ _ a ha]
      exact Nat.zero_lt_one
  · cases hins

namespace System

variable {ω : Type} [DecidableEq ω] {numFilters : Nat} {filters : Nat → List PacketFilter}
  {s : System ω}

/-- The data log has at most `numBlocks` blocks. -/
theorem dtail_lt (h : Reached numFilters filters s) : s.store.dtail < numBlocks * blockSize := by
  induction h with
  | refl => exact (by decide : 0 < numBlocks * blockSize)
  | tail _ hs ih =>
    cases hs with
    | request w b hw => exact ih
    | publish w b start offset n hw hr => exact ih
    | run w st x hw =>
      rcases Writer.step_cases hw with ⟨b, start, -, hcap, rfl, -⟩ | ⟨b, start, offset, -, rfl, -⟩ |
        ⟨b, start, offset, n, c, todo, -, rfl, -⟩ | ⟨b, start, offset, n, op, todo, -, rfl, -⟩
      · exact (Nat.div_lt_iff_lt_mul (by decide)).mp hcap
      · exact ih
      · cases c <;> exact ih
      · cases op <;> exact ih

omit [DecidableEq ω] in
/-- Without calls in flight every reserved id is published. -/
theorem quiescent_ids (h : IdsTiled s) (hq : s.Quiescent) : s.store.readId = s.store.writeId := by
  by_contra hne
  obtain ⟨w, hw⟩ := (h.tiles.holds s.store.readId).mpr
    ⟨Nat.le_refl _, Nat.lt_of_le_of_ne h.tiles.le hne⟩
  exact not_holds_of_none (by rw [pending, hq w]; rfl) _ hw

/-- The bursts that have ended are those of the history, and ids count their packets. -/
structure HistoryOf (s : System ω) (bs : List Burst) : Prop where
  quiescent : s.Quiescent
  count : s.store.readId = (packets bs).length
  packet : ∀ e ∈ s.ended, ∀ id m, e.Gave id m → (packets bs)[id]? = some (m, e.burst.now)

theorem historyOf_insert {bs : List Burst} {b : Burst} {st : Store}
    (h : Reached numFilters filters s) (hh : s.HistoryOf bs)
    (hins : s.store.insertPktburst b = some st) :
    HistoryOf ⟨st, s.writers,
      s.ended ++ [⟨b, s.store.writeId, s.store.dtail, s.store.numFilters⟩]⟩ (bs ++ [b]) := by
  have hids := quiescent_ids (idsTiled_reached h) hh.quiescent
  have hread : st.readId = s.store.writeId + b.cnt := by
    rw [Store.insertPktburst] at hins
    split at hins
    · cases hins
      rfl
    · cases hins
  refine ⟨hh.quiescent, ?_, fun e he id m hm => ?_⟩
  · rw [packets_append, List.length_append, List.length_map, ← hh.count, hids]
    exact hread
  · rw [packets_append]
    rcases List.mem_append.mp he with he | he
    · have hp := hh.packet e he id m hm
      obtain ⟨hlt, -⟩ := List.getElem?_eq_some_iff.mp hp
      rw [List.getElem?_append_left hlt]
      exact hp
    · obtain rfl := List.mem_singleton.mp he
      obtain ⟨i, hi, rfl⟩ := hm
      dsimp only at hi ⊢
      rw [← hids, hh.count, List.getElem?_append_right (Nat.le_add_right _ _),
        Nat.add_sub_cancel_left, List.getElem?_map, hi]
      rfl

/-- Every history is a run, from the initial store to one without calls in flight. -/
theorem history_reached (bs : List Burst) : ∀ {st : Store},
    bs.foldlM Store.insertPktburst (Store.init numFilters filters) = some st →
    ∃ s : System Unit, Reached numFilters filters s ∧ s.store = st ∧ s.HistoryOf bs := by
  induction bs using List.reverseRecOn with
  | nil =>
    intro st h
    cases h
    exact ⟨init numFilters filters, .refl, rfl, fun _ => rfl, rfl,
      fun e he => by simp [init] at he⟩
  | append_singleton bs b ih =>
    intro st h
    rw [List.foldlM_append] at h
    obtain ⟨st', h', hins⟩ := Option.bind_eq_some_iff.mp h
    obtain ⟨s, hr, rfl, hh⟩ := ih h'
    have hins' : s.store.insertPktburst b = some st := by simpa using hins
    exact ⟨_, hr.trans (insertPktburst_run s (w := ()) (hh.quiescent ()) hins'), rfl,
      historyOf_insert hr hh hins'⟩

theorem history_noneEmpty (bs : List Burst) (hbs : ∀ b ∈ bs, b.pkts ≠ []) : ∀ {st : Store},
    bs.foldlM Store.insertPktburst (Store.init numFilters filters) = some st → st.NoneEmpty := by
  induction bs using List.reverseRecOn with
  | nil =>
    intro st h
    cases h
    exact fun k hk => by cases hk
  | append_singleton bs b ih =>
    intro st h
    rw [List.foldlM_append] at h
    obtain ⟨st', h', hins⟩ := Option.bind_eq_some_iff.mp h
    have hins' : st'.insertPktburst b = some st := by simpa using hins
    exact Store.insertPktburst_noneEmpty (hbs b (by simp))
      (ih (fun b' hb' => hbs b' (by simp [hb'])) h') hins'

/-- The packet with an id, in the history and in the store. -/
theorem HistoryOf.packetAt {bs : List Burst} (hh : s.HistoryOf bs)
    (h : Reached numFilters filters s) {id : Nat} {m : Mbuf} {now : UInt32}
    (hid : (packets bs)[id]? = some (m, now)) :
    ∃ e off, s.PacketAt id e m off ∧ e.burst.now = now := by
  obtain ⟨hlt, -⟩ := List.getElem?_eq_some_iff.mp hid
  rw [← hh.count] at hlt
  obtain ⟨e, m', off, hp⟩ := exists_packetAt h hlt
  have heq := hh.packet e hp.mem id m' hp.gave
  rw [hid] at heq
  cases heq
  exact ⟨e, off, hp, rfl⟩

end System

end Netplay
