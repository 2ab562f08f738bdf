import Netplay.StreamEntries
import Netplay.IndexedRecords

/-!
# Filters after concurrent insertions, and streams

Insertions through the store and through handles among each other, and then a filter. The list of
a key has the ids of the records with that token in the order in which the calls of `add_entry`
came to it, whatever the order of the ids. A stream whose filter function is the range of a filter
holds the ids that the filter visits.

What a burst adds to the indexes is that of `insert_pktburst`, and not modelled here.
-/

namespace Netplay

/-! ## Additions -/

namespace LogStore

/-- The ids that were added under a key of an index. -/
def entriesOf (adds : List (Nat × Token)) (indexId key : Nat) : List Nat :=
  (adds.filter fun p => p.2 = ⟨indexId, key⟩).map Prod.fst

/-- The tokens that were added for an id. -/
def tokensOf (adds : List (Nat × Token)) (id : Nat) : List Token :=
  (adds.filter fun p => p.1 = id).map Prod.snd

theorem entriesOf_append_one (adds : List (Nat × Token)) (id : Nat) (t : Token)
    (indexId key : Nat) : entriesOf (adds ++ [(id, t)]) indexId key =
      entriesOf adds indexId key ++ tokenEntries id [t] indexId key := by
  by_cases h : t = ⟨indexId, key⟩ <;> simp [entriesOf, tokenEntries, h]

theorem tokensOf_append_self (adds : List (Nat × Token)) (id : Nat) (t : Token) :
    tokensOf (adds ++ [(id, t)]) id = tokensOf adds id ++ [t] := by
  simp [tokensOf]

theorem tokensOf_append_other (adds : List (Nat × Token)) {id id' : Nat} (t : Token)
    (h : id' ≠ id) : tokensOf (adds ++ [(id, t)]) id' = tokensOf adds id' := by
  simp [tokensOf, Ne.symm h]

theorem tokensOf_eq_nil {adds : List (Nat × Token)} {id : Nat} (h : ∀ p ∈ adds, p.1 ≠ id) :
    tokensOf adds id = [] := by
  simp only [tokensOf, List.map_eq_nil_iff, List.filter_eq_nil_iff, decide_eq_true_eq]
  exact h

variable {D : Type} {st st' : LogStore D}

theorem addEntry_lengths {id : Nat} {t : Token} (h : st.addEntry id t = .ok st') (k : Nat) :
    (st'.indexes k).length = (st.indexes k).length := by
  rw [addEntry] at h
  split at h
  · cases h
    rfl
  · next k' _ =>
    split at h
    · cases h
    · next index _ =>
      cases hadd : index.addEntry t.data id with
      | error e =>
        rw [hadd] at h
        cases h
      | ok index' =>
        rw [hadd] at h
        cases h
        by_cases hk : k = k'
        · subst hk
          simp only [Function.update_self, List.length_set]
        · simp only [Function.update_of_ne hk]

theorem Adds.of_addEntry {id : Nat} {t : Token} (h : st.addEntry id t = .ok st') (hr : st.Routed)
    (ht : st.Accepts t) : st.Adds st' id [t] := by
  obtain ⟨st₁, h₁, hadds⟩ := addEntry_adds hr id ht
  rw [h₁] at h
  cases h
  exact hadds

end LogStore

/-! ## What is left of `update_indexes` -/

/-- The tokens of an operation. -/
def LogOp.tokens : LogOp → List Token
  | .index _ tokens => tokens
  | _ => []

namespace Caller

/-- The tokens that the call has still to add. -/
def left : Caller → List Token
  | .store (.running _ _ _ todo) => todo.flatMap LogOp.tokens
  | .handle (.running _ _ todo) => todo.flatMap LogOp.tokens
  | _ => []

/-- The call adds its own id; it is no burst. -/
def Planned : Caller → Prop
  | .store (.running _ _ id todo) => ∀ id' tokens, LogOp.index id' tokens ∈ todo → id' = id
  | .handle (.running h _ todo) => ∀ id' tokens, LogOp.index id' tokens ∈ todo → id' = h.curId
  | .burst _ => False
  | _ => True

theorem nextToken_left {x x' : Caller} {id : Nat} {t : Token} (hp : x.Planned)
    (h : x.nextToken = some (id, t, x')) :
    x'.Planned ∧ x.left = t :: x'.left ∧ ∃ r, x.current = some (r, id) := by
  unfold nextToken at h
  split at h
  · next r offset id' i t' tokens todo =>
    cases h
    obtain rfl := hp _ _ List.mem_cons_self
    refine ⟨fun id' tokens' hmem => ?_, rfl, r, rfl⟩
    rcases List.mem_cons.mp hmem with heq | hmem
    · cases heq
      rfl
    · exact hp id' tokens' (List.mem_cons_of_mem _ hmem)
  · next h' r i t' tokens todo =>
    cases h
    obtain rfl := hp _ _ List.mem_cons_self
    refine ⟨fun id' tokens' hmem => ?_, rfl, r, rfl⟩
    rcases List.mem_cons.mp hmem with heq | hmem
    · cases heq
      rfl
    · exact hp id' tokens' (List.mem_cons_of_mem _ hmem)
  · cases h

variable {D : Type} [Datalog D] {st st' : LogStore D} {x x' : Caller}

theorem step_planned (h : x.Step st st' x') (hp : x.Planned) : x'.Planned := by
  cases h with
  | store x st' x' ret h =>
    cases h with
    | locate => trivial
    | start r offset =>
      intro id' tokens hmem
      simp only [LogStore.insertOps, List.mem_cons, reduceCtorEq, false_or, List.not_mem_nil,
        or_false, LogOp.index.injEq] at hmem
      exact hmem.1
    | run r offset id op todo _ _ =>
      exact fun id' tokens hmem => hp id' tokens (List.mem_cons_of_mem _ hmem)
    | finish => trivial
  | handle x st' x' h =>
    cases h with
    | number => trivial
    | place h r p _ =>
      intro id' tokens hmem
      simp only [Handle.insertOps, List.mem_cons, reduceCtorEq, false_or, List.not_mem_nil,
        or_false, LogOp.index.injEq] at hmem
      exact hmem.1
    | run h r op todo _ _ =>
      exact fun id' tokens hmem => hp id' tokens (List.mem_cons_of_mem _ hmem)
    | finish => trivial
  | burst => exact hp.elim

/-- An operation with no token left changes no index. -/
theorem runOp_indexes {op : LogOp} (h : st.runOp op = .ok st') (hop : op.tokens = []) :
    st'.indexes = st.indexes := by
  cases op with
  | set id offset length =>
    obtain ⟨-, rfl⟩ := LogStore.setOfflen_eq h
    rfl
  | append bytes offset =>
    obtain ⟨-, rfl⟩ := LogStore.appendRecord_eq h
    rfl
  | index id tokens =>
    obtain rfl : tokens = [] := hop
    cases h
    rfl

/-- A step outside `update_indexes`: a call begins with all of its tokens, keeps what is left, or
ends with nothing left. -/
theorem step_left (h : x.Step st st' x') (hp : x.Planned) (hx : x.nextToken = none) :
    st'.indexes = st.indexes ∧
      ((x.current = none ∧ x'.current = none) ∨
        (x.current = none ∧ ∃ r id, x'.current = some (r, id) ∧ x'.left = r.tokens) ∨
        (∃ p, x.current = some p ∧ x'.current = some p ∧ x'.left = x.left) ∨
        ∃ p, x.current = some p ∧ x'.current = none ∧ x.left = []) := by
  have hnone : ∀ {op : LogOp} {todo : List LogOp}, (∀ id' t tokens, op ≠ .index id' (t :: tokens)) →
      op.tokens = [] ∧ todo.flatMap LogOp.tokens = (op :: todo).flatMap LogOp.tokens := by
    intro op todo hop
    have hnil : op.tokens = [] := by
      cases op with
      | index id tokens =>
        cases tokens with
        | nil => rfl
        | cons t tokens => exact absurd rfl (hop id t tokens)
      | _ => rfl
    exact ⟨hnil, by rw [List.flatMap_cons, hnil, List.nil_append]⟩
  cases h with
  | store x st' x' ret h =>
    cases h with
    | locate r _ hst =>
      obtain ⟨-, rfl⟩ := LogStore.requestBytes_eq hst
      exact ⟨rfl, .inl ⟨rfl, rfl⟩⟩
    | start r offset =>
      exact ⟨rfl, .inr (.inl ⟨rfl, r, _, rfl, List.append_nil _⟩)⟩
    | run r offset id op todo _ hst =>
      obtain ⟨hop, hleft⟩ := @hnone op todo fun id' t tokens heq => by
        subst heq
        cases hx
      exact ⟨runOp_indexes hst hop, .inr (.inr (.inl ⟨_, rfl, rfl, hleft⟩))⟩
    | finish r offset id _ hst =>
      obtain ⟨-, rfl⟩ := LogStore.endBlock_eq hst
      exact ⟨rfl, .inr (.inr (.inr ⟨_, rfl, rfl, rfl⟩))⟩
  | handle x st' x' h =>
    cases h with
    | number h r p hst =>
      rcases LogStore.takeIds_cases hst with ⟨-, -, rfl⟩ | ⟨-, rfl⟩
      · exact ⟨rfl, .inl ⟨rfl, rfl⟩⟩
      · exact ⟨rfl, .inl ⟨rfl, rfl⟩⟩
    | place h r p hst =>
      rcases LogStore.takeBytes_cases hst with ⟨-, -, rfl⟩ | ⟨-, rfl⟩
      · exact ⟨rfl, .inr (.inl ⟨rfl, r, _, rfl, List.append_nil _⟩)⟩
      · exact ⟨rfl, .inr (.inl ⟨rfl, r, _, rfl, List.append_nil _⟩)⟩
    | run h r op todo _ hst =>
      obtain ⟨hop, hleft⟩ := @hnone op todo fun id' t tokens heq => by
        subst heq
        cases hx
      exact ⟨runOp_indexes hst hop, .inr (.inr (.inl ⟨_, rfl, rfl, hleft⟩))⟩
    | finish h r _ hst =>
      obtain ⟨-, rfl⟩ := LogStore.endBlock_eq hst
      exact ⟨rfl, .inr (.inr (.inr ⟨_, rfl, rfl, rfl⟩))⟩
  | burst => exact hp.elim

/-- A call returns with nothing left. -/
theorem step_last (h : x.Step st st' x') {p : Record × Nat} (hx : x.current = some p)
    (hx' : x'.current = none) : st'.indexes = st.indexes ∧ x.left = [] := by
  cases h with
  | store x st' x' ret h =>
    cases h with
    | run r offset id op todo _ _ => cases hx'
    | finish r offset id _ hst =>
      obtain ⟨-, rfl⟩ := LogStore.endBlock_eq hst
      exact ⟨rfl, rfl⟩
    | locate => cases hx
    | start => cases hx
  | handle x st' x' h =>
    cases h with
    | run h r op todo _ _ => cases hx'
    | finish h r _ hst =>
      obtain ⟨-, rfl⟩ := LogStore.endBlock_eq hst
      exact ⟨rfl, rfl⟩
    | number => cases hx
    | place => cases hx
  | burst x st' x' h => cases hx

end Caller

/-! ## The lists after any run -/

namespace Streaming

variable {D ω : Type} [Datalog D]

/-- The additions in their order: those of each call are its tokens in their order, as far as it
has come. They are what the lists hold if the store has the indexes of the tokens. -/
structure Added (indexes : (k : Nat) → List (LogIndex k)) (s : Streaming D ω)
    (adds : List (Nat × Token)) : Prop where
  planned : ∀ w, (s.callers w).Planned
  returned : ∀ d ∈ s.done, LogStore.tokensOf adds d.id = d.record.tokens
  running : ∀ w r id, (s.callers w).current = some (r, id) →
    LogStore.tokensOf adds id ++ (s.callers w).left = r.tokens
  known : ∀ p ∈ adds, (∃ d ∈ s.done, d.id = p.1) ∨ ∃ w r, (s.callers w).current = some (r, p.1)
  lengths : ∀ k, (s.store.indexes k).length = (indexes k).length
  contents : (∀ p ∈ adds,
      LogStore.Accepts { (LogStore.empty : LogStore D) with indexes := indexes } p.2) →
    s.store.Contents (LogStore.entriesOf adds)

theorem added_init {indexes : (k : Nat) → List (LogIndex k)} {roles : ω → Role}
    (hburst : ∀ w, roles w ≠ .burst)
    (hempty : LogStore.Contents { (LogStore.empty : LogStore D) with indexes := indexes }
      fun _ _ => []) :
    Added indexes (init indexes roles : Streaming D ω) [] := by
  have hcaller : ∀ w, (Caller.ofRole (roles w)).Planned ∧ (Caller.ofRole (roles w)).current = none := by
    intro w
    cases hrole : roles w with
    | store => exact ⟨trivial, rfl⟩
    | handle requestBatchSize dataBlockSize => exact ⟨trivial, rfl⟩
    | burst => exact absurd hrole (hburst w)
  refine ⟨fun w => (hcaller w).1, fun d hd => absurd hd List.not_mem_nil, fun w r id hcur => ?_,
    fun p hp => absurd hp List.not_mem_nil, fun _ => rfl, fun _ => hempty⟩
  change (Caller.ofRole (roles w)).current = _ at hcur
  rw [(hcaller w).2] at hcur
  cases hcur

variable [DecidableEq ω] {indexes : (k : Nat) → List (LogIndex k)}

theorem planned_update {callers : ω → Caller} (h : ∀ w, (callers w).Planned) {w : ω} {x : Caller}
    (hx : x.Planned) (v : ω) : (Function.update callers w x v).Planned := by
  by_cases hv : v = w
  · subst hv
    simpa using hx
  · simpa [hv] using h v

/-- An `add_entry`. -/
theorem Added.token {s : Streaming D ω} {adds : List (Nat × Token)} (h : Added indexes s adds)
    (hr : LogStore.Routed { (LogStore.empty : LogStore D) with indexes := indexes })
    (hst : s.Standing) (ha : s.Apart) {w : ω} {x x' : Caller} {id : Nat} {t : Token}
    {st : LogStore D} (hw : s.callers w = x) (hx : x.nextToken = some (id, t, x'))
    (hadd : s.store.addEntry id t = .ok st) :
    Added indexes { s with store := st, callers := Function.update s.callers w x' }
      (adds ++ [(id, t)]) := by
  obtain ⟨-, hsame, -⟩ := Caller.nextToken_same hx
  obtain ⟨hplanned, hleft, r, hcur⟩ := Caller.nextToken_left (hw ▸ h.planned w) hx
  have hcurw : (s.callers w).current = some (r, id) := by rw [hw, hcur]
  have hcurrent : ∀ v, (Function.update s.callers w x' v).current = (s.callers v).current := by
    intro v
    by_cases hv : v = w
    · subst hv
      simp [hsame, hw]
    · simp [hv]
  refine ⟨planned_update h.planned hplanned, fun d hd => ?_, fun v r' id' hv => ?_, fun p hp => ?_,
    fun k => ?_, fun hacc => ?_⟩
  · have hne : d.id ≠ id := by
      have hlt := (hst.returned d hd).2
      have hle := ha.live w r id hcurw
      omega
    rw [LogStore.tokensOf_append_other adds t hne]
    exact h.returned d hd
  · rw [hcurrent] at hv
    by_cases hvw : v = w
    · subst hvw
      rw [hcurw] at hv
      cases hv
      have hold := h.running v r id hcurw
      rw [hw, hleft] at hold
      rw [LogStore.tokensOf_append_self]
      simpa using hold
    · have hne : id' ≠ id := by
        rintro rfl
        exact hvw (ha.unique v w r' r id' hv hcurw)
      rw [LogStore.tokensOf_append_other adds t hne]
      simpa [hvw] using h.running v r' id' hv
  · simp only [hcurrent]
    rcases List.mem_append.mp hp with hp | hp
    · exact h.known p hp
    · obtain rfl := List.mem_singleton.mp hp
      exact .inr ⟨w, r, hcurw⟩
  · rw [← h.lengths k]
    exact LogStore.addEntry_lengths hadd k
  · have hadds := LogStore.Adds.of_addEntry hadd (hr.congr h.lengths)
      ((hacc (id, t) (List.mem_append_right _ (List.mem_singleton_self _))).congr h.lengths)
    refine (hadds.contents _ (h.contents fun p hp => hacc p (List.mem_append_left _ hp))).congr
      fun k _ i key _ => ?_
    exact LogStore.entriesOf_append_one adds id t _ _

omit [DecidableEq ω] in
/-- The same additions, in a state with the same indexes. -/
theorem Added.same {s s' : Streaming D ω} {adds : List (Nat × Token)} (h : Added indexes s adds)
    (hindexes : s'.store.indexes = s.store.indexes) (hplanned : ∀ w, (s'.callers w).Planned)
    (hreturned : ∀ d ∈ s'.done, LogStore.tokensOf adds d.id = d.record.tokens)
    (hrunning : ∀ w r id, (s'.callers w).current = some (r, id) →
      LogStore.tokensOf adds id ++ (s'.callers w).left = r.tokens)
    (hknown : ∀ p ∈ adds,
      (∃ d ∈ s'.done, d.id = p.1) ∨ ∃ w r, (s'.callers w).current = some (r, p.1)) :
    Added indexes s' adds := by
  refine ⟨hplanned, hreturned, hrunning, hknown, fun k => ?_, fun hacc => ?_⟩
  · rw [← h.lengths k, hindexes]
  · intro k hk i index hi
    rw [hindexes] at hi
    exact h.contents hacc k hk i index hi

omit [DecidableEq ω] in
/-- An id that a call has just taken has no additions. -/
theorem Added.fresh {s : Streaming D ω} {adds : List (Nat × Token)} (h : Added indexes s adds)
    {id : Nat} (hdone : ∀ d ∈ s.done, d.id ≠ id)
    (hlive : ∀ w r, (s.callers w).current ≠ some (r, id)) : LogStore.tokensOf adds id = [] := by
  refine LogStore.tokensOf_eq_nil fun p hp heq => ?_
  rcases h.known p hp with ⟨d, hd, hid⟩ | ⟨w, r, hw⟩
  · exact hdone d hd (hid.trans heq)
  · rw [heq] at hw
    exact hlive w r hw

theorem added_step {s s' : Streaming D ω} {adds : List (Nat × Token)} (h : Added indexes s adds)
    (hr : LogStore.Routed { (LogStore.empty : LogStore D) with indexes := indexes })
    (hst : s.Standing) (ha : s.Apart) (ha' : s'.Apart) (hs : Step s s') :
    ∃ adds', Added indexes s' adds' := by
  cases hs with
  | token w x id t x' st hw hx hadd => exact ⟨_, h.token hr hst ha hw hx hadd⟩
  | log w x st x' hw hnext hx _ hopen =>
    have hp : x.Planned := hw ▸ h.planned w
    obtain ⟨hindexes, hcases⟩ := Caller.step_left hx hp hnext
    refine ⟨adds, h.same hindexes (planned_update h.planned (Caller.step_planned hx hp)) h.returned
      (fun v r id hv => ?_) fun p hmem => ?_⟩
    · by_cases hvw : v = w
      · subst hvw
        simp only [Function.update_self] at hv ⊢
        rcases hcases with ⟨-, hnone⟩ | ⟨hidle, r', id', hcur', hleft⟩ |
          ⟨p, hcur, hcur', hleft⟩ | ⟨p, hcur, hnone, -⟩
        · rw [hnone] at hv
          cases hv
        · -- The call begins: no other call has or had its id.
          obtain ⟨rfl, rfl⟩ := Prod.ext_iff.mp (Option.some.inj (hcur'.symm.trans hv))
          have hcurv : (Function.update s.callers v x' v).current = some (r', id') := by
            simpa using hcur'
          have hfresh : LogStore.tokensOf adds id' = [] := by
            refine h.fresh (fun d hd heq => ?_) fun u r'' hu => ?_
            · have hlt := (hst.returned d hd).2
              have hle := ha'.live v r' id' hcurv
              have hread := Caller.step_readId_le hx
              exact Nat.lt_irrefl _ (heq ▸ Nat.lt_of_lt_of_le hlt (Nat.le_trans hread hle))
            · by_cases huv : u = v
              · subst huv
                rw [hw, hidle] at hu
                cases hu
              · exact huv (ha'.unique u v r'' r' id' (by simpa [huv] using hu) hcurv)
          rw [hfresh, hleft, List.nil_append]
        · rw [hcur'] at hv
          have hold := h.running v r id (by rw [hw, hcur, ← hv])
          rw [hw] at hold
          rw [hleft]
          exact hold
        · rw [hnone] at hv
          cases hv
      · simp only [Function.update_of_ne hvw] at hv ⊢
        exact h.running v r id hv
    · rcases h.known p hmem with hd | ⟨v, r, hv⟩
      · exact .inl hd
      · by_cases hvw : v = w
        · subst hvw
          rw [hw] at hv
          exact .inr ⟨v, r, by simpa using Caller.step_keeps hx hopen _ hv⟩
        · exact .inr ⟨v, r, by simpa [hvw] using hv⟩
  | finish w x st x' r id num hw hx hcur hcur' hphase =>
    have hp : x.Planned := hw ▸ h.planned w
    have hcurw : (s.callers w).current = some (r, id) := by rw [hw, hcur]
    obtain ⟨hindexes, hleft⟩ := Caller.step_last hx hcur hcur'
    refine ⟨adds, h.same hindexes (planned_update h.planned (Caller.step_planned hx hp))
      (fun d hd => ?_) (fun v r' id' hv => ?_) fun p hmem => ?_⟩
    · rcases List.mem_append.mp hd with hd | hd
      · exact h.returned d hd
      · obtain rfl := List.mem_singleton.mp hd
        have hold := h.running w r id hcurw
        rw [hw, hleft, List.append_nil] at hold
        exact hold
    · by_cases hvw : v = w
      · subst hvw
        simp only [Function.update_self, hcur'] at hv
        cases hv
      · simp only [Function.update_of_ne hvw] at hv ⊢
        exact h.running v r' id' hv
    · rcases h.known p hmem with ⟨d, hd, hid⟩ | ⟨v, r', hv⟩
      · exact .inl ⟨d, List.mem_append_left _ hd, hid⟩
      · by_cases hvw : v = w
        · subst hvw
          rw [hcurw] at hv
          cases hv
          exact .inl ⟨_, List.mem_append_right _ (List.mem_singleton_self _), rfl⟩
        · exact .inr ⟨v, r', by simpa [hvw] using hv⟩
  | enter => exact ⟨adds, h.same rfl h.planned h.returned h.running h.known⟩
  | stream => exact ⟨adds, h.same rfl h.planned h.returned h.running h.known⟩
  | addStream => exact ⟨adds, h.same rfl h.planned h.returned h.running h.known⟩

theorem added_reached {roles : ω → Role} {s : Streaming D ω}
    (hroles : ∀ w requestBatchSize dataBlockSize,
      roles w = .handle requestBatchSize dataBlockSize → 1 ≤ requestBatchSize)
    (hburst : ∀ w, roles w ≠ .burst)
    (hr : LogStore.Routed { (LogStore.empty : LogStore D) with indexes := indexes })
    (hempty : LogStore.Contents { (LogStore.empty : LogStore D) with indexes := indexes }
      fun _ _ => [])
    (h : Reached indexes roles s) : ∃ adds, Added indexes s adds := by
  induction h with
  | refl => exact ⟨[], added_init hburst hempty⟩
  | tail hrun hs ih =>
    obtain ⟨adds, ih⟩ := ih
    exact added_step ih hr (standing_reached hrun) (apart_reached hroles hrun)
      (apart_reached hroles (hrun.tail hs)) hs

/-! ## Filters -/

/-- The tokens of the calls that have returned, those of each call in their order. -/
structure Interleaved (s : Streaming D ω) (adds : List (Nat × Token)) : Prop where
  tokens : ∀ d ∈ s.done, LogStore.tokensOf adds d.id = d.record.tokens
  known : ∀ p ∈ adds, ∃ d ∈ s.done, d.id = p.1

omit [DecidableEq ω] in
theorem Added.interleaved {s : Streaming D ω} {adds : List (Nat × Token)}
    (h : Added indexes s adds) (hquiet : ∀ w, (s.callers w).current = none) :
    s.Interleaved adds := by
  refine ⟨h.returned, fun p hp => (h.known p hp).resolve_right ?_⟩
  rintro ⟨w, r, hw⟩
  rw [hquiet w] at hw
  cases hw

omit [Datalog D] [DecidableEq ω] in
/-- An addition is of a token of a record that was inserted. -/
theorem Interleaved.mem {s : Streaming D ω} {adds : List (Nat × Token)} (h : s.Interleaved adds)
    {p : Nat × Token} (hp : p ∈ adds) : ∃ d ∈ s.done, d.id = p.1 ∧ p.2 ∈ d.record.tokens := by
  obtain ⟨d, hd, hid⟩ := h.known p hp
  refine ⟨d, hd, hid, ?_⟩
  rw [← h.tokens d hd, LogStore.tokensOf]
  exact List.mem_map.mpr ⟨p, List.mem_filter.mpr ⟨hp, by simp [hid]⟩, rfl⟩

omit [DecidableEq ω] in
/-- The filter of a state without calls in flight. -/
theorem Added.filter {lens : List Nat} {s : Streaming D ω} {adds : List (Nat × Token)}
    (hadd : Added ((LogStore.empty : LogStore D).addIndexes lens).1.indexes s adds)
    (hlens : ∀ len, 1 ≤ len ∧ len ≤ 8 → lens.count len ≤ 1024) (hst : s.Standing)
    (hinter : s.Interleaved adds)
    (htok : ∀ d ∈ s.done, ∀ t ∈ d.record.tokens, ∃ len,
      (len, t.indexId) ∈ lens.zip ((LogStore.empty : LogStore D).addIndexes lens).2 ∧
        t.data < 256 ^ len)
    {len indexId : Nat}
    (hindex : (len, indexId) ∈ lens.zip ((LogStore.empty : LogStore D).addIndexes lens).2)
    (hlen : 1 ≤ len ∧ len ≤ 8) {tokMin tokMax : Nat} (hrange : tokMin ≤ tokMax)
    (hmax : tokMax < 256 ^ len - 1) :
    ∃ res, s.store.filter indexId tokMin tokMax = some res ∧
      res.Yields ((List.range' tokMin (tokMax + 1 - tokMin)).flatMap
        (LogStore.entriesOf adds indexId)) := by
  have hr := LogStore.addIndexes_routed (D := D) hlens
  have hcontents := hadd.contents fun p hp => by
    obtain ⟨d, hd, -, ht⟩ := hinter.mem hp
    obtain ⟨l, hl, hkey⟩ := htok d hd p.2 ht
    exact LogStore.accepts_of_added lens hl hkey
  have hid := LogStore.addIndexes_ids lens (LogStore.empty : LogStore D) hindex
  rw [if_pos hlen] at hid
  obtain ⟨i, hi, rfl⟩ := hid
  rw [← hadd.lengths] at hi
  obtain ⟨hf, hm⟩ := indexFamily_id hlen (Nat.lt_of_lt_of_le hi ((hr.congr hadd.lengths) len))
  have hread : ∀ tok, ∀ v ∈ LogStore.entriesOf adds (indexOffset len + i) tok,
      v < s.store.olog.readId := by
    intro tok v hv
    obtain ⟨p, hp, rfl⟩ := List.mem_map.mp hv
    obtain ⟨d, hd, hid, -⟩ := hinter.mem (List.mem_of_mem_filter hp)
    rw [← hid]
    exact (hst.returned d hd).2
  refine ⟨⟨some (s.store.indexes len)[i].atKey, tokMin, tokMax, s.store.olog.readId⟩, ?_, ?_⟩
  · simp only [LogStore.filter, hf, hm, List.getElem?_eq_getElem hi, Option.map_some]
    rfl
  · have hyields :=
      FilterResult.yields_rest (LogStore.Contents.holds hcontents hlen hi hread hrange hmax)
    simpa only [FilterResult.rest, listOf_getD] using hyields

/-- Indexes are added, then records are inserted by any callers but bursts, in any order of their
steps. In a state without calls in flight there is one order of the tokens added, those of each
record in their order, such that every filter visits, token after token, the ids in that order. -/
theorem filter_concurrent (lens : List Nat) {roles : ω → Role} {s : Streaming D ω}
    (hlens : ∀ len, 1 ≤ len ∧ len ≤ 8 → lens.count len ≤ 1024)
    (hroles : ∀ w requestBatchSize dataBlockSize,
      roles w = .handle requestBatchSize dataBlockSize → 1 ≤ requestBatchSize)
    (hburst : ∀ w, roles w ≠ .burst)
    (h : Reached ((LogStore.empty : LogStore D).addIndexes lens).1.indexes roles s)
    (hquiet : ∀ w, (s.callers w).current = none)
    (htok : ∀ d ∈ s.done, ∀ t ∈ d.record.tokens, ∃ len,
      (len, t.indexId) ∈ lens.zip ((LogStore.empty : LogStore D).addIndexes lens).2 ∧
        t.data < 256 ^ len) :
    ∃ adds : List (Nat × Token), s.Interleaved adds ∧ ∀ len indexId tokMin tokMax,
      (len, indexId) ∈ lens.zip ((LogStore.empty : LogStore D).addIndexes lens).2 →
      1 ≤ len ∧ len ≤ 8 → tokMin ≤ tokMax → tokMax < 256 ^ len - 1 →
      ∃ res, s.store.filter indexId tokMin tokMax = some res ∧
        res.Yields ((List.range' tokMin (tokMax + 1 - tokMin)).flatMap
          (LogStore.entriesOf adds indexId)) := by
  have hst := standing_reached h
  obtain ⟨adds, hadd⟩ := added_reached hroles hburst (LogStore.addIndexes_routed (D := D) hlens)
    (LogStore.addIndexes_contents (D := D) lens) h
  have hinter := hadd.interleaved hquiet
  exact ⟨adds, hinter, fun len indexId tokMin tokMax hindex hlen hrange hmax =>
    hadd.filter hlens hst hinter htok hindex hlen hrange hmax⟩

end Streaming

/-! ## A stream for a filter -/

/-- The filter function that keeps the records with a token of the index in the range. -/
def rangeFilter (indexId tokMin tokMax : Nat) : FilterFunction := fun id r =>
  (r.tokens.any fun t => decide (t.indexId = indexId ∧ tokMin ≤ t.data ∧ t.data ≤ tokMax), id)

/-- Whatever the call has found includes the first `n` streams. -/
def StreamPhase.Found (n : Nat) : StreamPhase → Prop
  | .before => True
  | .checking num _ => n ≤ num
  | .pushing num _ _ => n ≤ num
  | .storing num _ _ _ => n ≤ num
  | .behind num => n ≤ num

theorem StreamPhase.next_found {n id : Nat} {r : Record} {streams σs : List Streamlog}
    {p p' : StreamPhase} (h : p.next id r streams = some (σs, p')) (hp : p.Found n) :
    p'.Found n := by
  rcases StreamPhase.next_cases h with ⟨num, i, σ, rfl, -, -, -, ⟨-, rfl⟩ | ⟨-, rfl⟩⟩ |
    ⟨num, i, rfl, -, -, rfl⟩ | ⟨num, i, val, σ, rfl, -, -, rfl⟩ |
    ⟨num, i, val, idx, σ, rfl, -, -, rfl⟩ <;> exact hp

namespace Streaming

variable {D ω : Type} [Datalog D] [DecidableEq ω]

/-- The first `n` streams are found by every call. -/
structure Finds (s : Streaming D ω) (n : Nat) : Prop where
  streams : n ≤ s.fns.length
  phases : ∀ w, (s.phases w).Found n
  done : ∀ d ∈ s.done, n ≤ d.num

theorem finds_step {s s' : Streaming D ω} {n : Nat} (hst : s.Standing) (h : s.Finds n)
    (hs : Step s s') : s'.Finds n := by
  have hphase : ∀ {w : ω} {p : StreamPhase}, p.Found n →
      ∀ v, (Function.update s.phases w p v).Found n := by
    intro w p hp v
    by_cases hv : v = w
    · subst hv
      simpa using hp
    · simpa [hv] using h.phases v
  cases hs with
  | token => exact ⟨h.streams, h.phases, h.done⟩
  | log => exact ⟨h.streams, h.phases, h.done⟩
  | finish w x st x' r id num _ _ _ _ hbehind =>
    refine ⟨h.streams, hphase trivial, fun d hd => ?_⟩
    rcases List.mem_append.mp hd with hd | hd
    · exact h.done d hd
    · obtain rfl := List.mem_singleton.mp hd
      have hfound := h.phases w
      rw [hbehind] at hfound
      exact hfound
  | enter w _ _ =>
    refine ⟨h.streams, hphase ?_, h.done⟩
    have hle := h.streams
    rw [fns, List.length_map] at hle
    exact hle
  | stream w r id σs p hx hnext =>
    obtain ⟨hfns, -⟩ := stream_fits (hst.fits ⟨hx, rfl⟩) hnext
    refine ⟨?_, hphase (StreamPhase.next_found hnext (h.phases w)), h.done⟩
    rw [fns, hfns]
    exact h.streams
  | addStream fn =>
    refine ⟨?_, h.phases, h.done⟩
    rw [fns, List.map_append, List.length_append]
    exact Nat.le_trans h.streams (Nat.le_add_right _ _)

theorem finds_run {indexes : (k : Nat) → List (LogIndex k)} {roles : ω → Role}
    {s s' : Streaming D ω} (h : Reached indexes roles s) (hdone : s.done = [])
    (hquiet : ∀ w, (s.callers w).current = none) (hrun : Relation.ReflTransGen Step s s') :
    s'.Finds s.fns.length := by
  induction hrun with
  | refl =>
    refine ⟨Nat.le_refl _, fun w => ?_, fun d hd => ?_⟩
    · rcases (standing_reached h).calls w with hp | ⟨r, id, hcur, -⟩
      · rw [hp]
        trivial
      · rw [hquiet w] at hcur
        cases hcur
    · rw [hdone] at hd
      cases hd
  | tail hrun hs ih => exact finds_step (standing_reached (h.trans hrun)) ih hs

omit [Datalog D] [DecidableEq ω] in
/-- The ids in the lists of a range are those of the records with a token in it. -/
theorem Interleaved.mem_range {s : Streaming D ω} {adds : List (Nat × Token)}
    (h : s.Interleaved adds) {indexId tokMin tokMax v : Nat} (hrange : tokMin ≤ tokMax) :
    v ∈ (List.range' tokMin (tokMax + 1 - tokMin)).flatMap (LogStore.entriesOf adds indexId) ↔
      ∃ d ∈ s.done, d.id = v ∧ (rangeFilter indexId tokMin tokMax d.id d.record).1 = true := by
  simp only [List.mem_flatMap, List.mem_range'_1, LogStore.entriesOf, List.mem_map,
    List.mem_filter, decide_eq_true_eq, rangeFilter, List.any_eq_true]
  constructor
  · rintro ⟨tok, ⟨hlo, hhi⟩, p, ⟨hp, ht⟩, rfl⟩
    obtain ⟨d, hd, hid, hmem⟩ := h.mem hp
    rw [ht] at hmem
    exact ⟨d, hd, hid, _, hmem, rfl, hlo, by dsimp only; omega⟩
  · rintro ⟨d, hd, rfl, t, ht, rfl, hlo, hhi⟩
    rw [← h.tokens d hd, LogStore.tokensOf] at ht
    obtain ⟨p, hp, rfl⟩ := List.mem_map.mp ht
    obtain ⟨hp, hid⟩ := List.mem_filter.mp hp
    exact ⟨p.2.data, ⟨hlo, by omega⟩, p, ⟨hp, rfl⟩, by simpa using hid⟩

/-- A stream for the range of a filter that is added before the first record: after any run, and
without calls in flight, its list has the ids that the filter visits, each once. -/
theorem stream_filter (lens : List Nat) {roles : ω → Role} {s s' : Streaming D ω}
    (hlens : ∀ len, 1 ≤ len ∧ len ≤ 8 → lens.count len ≤ 1024)
    (hroles : ∀ w requestBatchSize dataBlockSize,
      roles w = .handle requestBatchSize dataBlockSize → 1 ≤ requestBatchSize)
    (hburst : ∀ w, roles w ≠ .burst)
    (h : Reached ((LogStore.empty : LogStore D).addIndexes lens).1.indexes roles s)
    (hdone : s.done = []) (hquiet : ∀ w, (s.callers w).current = none)
    (hrun : Relation.ReflTransGen Step s s') (hquiet' : ∀ w, (s'.callers w).current = none)
    (htok : ∀ d ∈ s'.done, ∀ t ∈ d.record.tokens, ∃ len,
      (len, t.indexId) ∈ lens.zip ((LogStore.empty : LogStore D).addIndexes lens).2 ∧
        t.data < 256 ^ len)
    {len indexId tokMin tokMax k : Nat} {σ : Streamlog}
    (hindex : (len, indexId) ∈ lens.zip ((LogStore.empty : LogStore D).addIndexes lens).2)
    (hlen : 1 ≤ len ∧ len ≤ 8) (hrange : tokMin ≤ tokMax) (hmax : tokMax < 256 ^ len - 1)
    (hσ : s.streams[k]? = some σ) (hfn : σ.fn = rangeFilter indexId tokMin tokMax) :
    ∃ (σ' : Streamlog) (res : FilterResult) (ids : List Nat), s'.streams[k]? = some σ' ∧
      s'.store.filter indexId tokMin tokMax = some res ∧ res.Yields ids ∧
      (∀ v, v ∈ ids ↔ ∃ i, i < σ'.tail ∧ σ'.slots i = .stored v) ∧
      (∀ i, i < σ'.tail → ∃ v, σ'.slots i = .stored v) ∧
      ((List.range σ'.tail).map σ'.slots).Nodup := by
  have h' := h.trans hrun
  have hst := standing_reached h'
  have ha := apart_reached hroles h'
  obtain ⟨σ', hσ', hgrow⟩ := (run_grows hroles h hrun).1 k σ hσ
  have hfn' : σ'.fn = rangeFilter indexId tokMin tokMax := hgrow.fn.trans hfn
  have hk : k < s.fns.length := by
    rw [fns, List.length_map]
    exact (List.getElem?_eq_some_iff.mp hσ).1
  have hfound : ∀ d ∈ s'.done, k < d.num := fun d hd =>
    Nat.lt_of_lt_of_le hk ((finds_run h hdone hquiet hrun).done d hd)
  obtain ⟨adds, hadd⟩ := added_reached hroles hburst (LogStore.addIndexes_routed (D := D) hlens)
    (LogStore.addIndexes_contents (D := D) lens) h'
  have hinter := hadd.interleaved hquiet'
  obtain ⟨res, hres, hyields⟩ := hadd.filter hlens hst hinter htok hindex hlen hrange hmax
  have hslots := (listed_reached hroles h' k σ' hσ').perm hst ha hquiet'
  have hslot : ∀ d : StreamDone, d.slot (rangeFilter indexId tokMin tokMax) = .stored d.id :=
    fun _ => rfl
  rw [hfn'] at hslots
  refine ⟨σ', res, _, hσ', hres, hyields, fun v => ?_, fun i hi => ?_, ?_⟩
  · have hstream : (∃ i, i < σ'.tail ∧ σ'.slots i = .stored v) ↔
        Slot.stored v ∈ (List.range σ'.tail).map σ'.slots := by simp [List.mem_map]
    rw [hinter.mem_range hrange, hstream, hslots.mem_iff]
    simp only [List.mem_map, List.mem_filter, StreamDone.kept, Bool.and_eq_true, decide_eq_true_eq,
      hslot, Slot.stored.injEq]
    constructor
    · rintro ⟨d, hd, rfl, hacc⟩
      exact ⟨d, ⟨hd, hfound d hd, hacc⟩, rfl⟩
    · rintro ⟨d, ⟨hd, -, hacc⟩, rfl⟩
      exact ⟨d, hd, rfl, hacc⟩
  · have hmem := hslots.mem_iff.mp (List.mem_map_of_mem (List.mem_range.mpr hi))
    obtain ⟨d, -, hd⟩ := List.mem_map.mp hmem
    exact ⟨d.id, hd.symm⟩
  · refine hslots.nodup_iff.mpr (List.Nodup.map_on (fun d hd e he heq => ?_)
      (List.Nodup.filter _ hst.distinct.of_map))
    rw [hslot, hslot] at heq
    exact List.inj_on_of_nodup_map hst.distinct (List.mem_of_mem_filter hd)
      (List.mem_of_mem_filter he) (Slot.stored.inj heq)

/-- A record with the token 8, for a handle. -/
def eightRecord : Record := .ofByte 8 [⟨1024, 8⟩]

/-- They insert a record each, by turns; the handle waits with its `end` for the store's. -/
def sevenAndEight : List (Turn Bool) :=
  [.caller false (some (.record LogStore.sevenRecord)), .caller false none,
    .caller true (some (.record eightRecord))] ++
  (List.replicate 10 [.caller true none, .caller false none]).flatten ++
  [.caller true none]

theorem storeAndHandle_noBurst (w : Bool) : storeAndHandle w ≠ .burst := by
  cases w <;> nofun

/-- The second record is the first one in the stream. -/
theorem sevenAndEight_run : ∃ s s' : Streaming FlatLog Bool,
    Reached ((LogStore.empty : LogStore FlatLog).addIndexes [1]).1.indexes storeAndHandle s ∧
      Relation.ReflTransGen Step s s' ∧ s.done = [] ∧
      s'.done = [⟨LogStore.sevenRecord, 0, 1⟩, ⟨eightRecord, 1, 1⟩] ∧
      (∀ w, (s.callers w).current = none) ∧ (∀ w, (s'.callers w).current = none) ∧
      ∃ σ, s.streams[0]? = some σ ∧ σ.fn = rangeFilter 1024 5 9 := by
  obtain ⟨s', hrun, hsee⟩ := Schedule.exists_run step_of_turn sevenAndEight
    (by decide +kernel : (Schedule.after turn
      { (init ((LogStore.empty : LogStore FlatLog).addIndexes [1]).1.indexes storeAndHandle :
          Streaming FlatLog Bool) with streams := [.new (rangeFilter 1024 5 9)] }
      sevenAndEight).map (fun s => (s.done, (s.callers false).current, (s.callers true).current)) =
        some ([⟨LogStore.sevenRecord, 0, 1⟩, ⟨eightRecord, 1, 1⟩], none, none))
  obtain ⟨hdone, hfalse, htrue⟩ : s'.done = _ ∧ (s'.callers false).current = none ∧
      (s'.callers true).current = none := by simpa using hsee
  exact ⟨_, s', .single (Step.addStream _ (rangeFilter 1024 5 9)), hrun, rfl, hdone,
    fun w => by cases w <;> rfl, fun w => by cases w <;> assumption, _, rfl, rfl⟩

theorem indexed_1024 : (1, 1024) ∈ [1].zip ((LogStore.empty : LogStore FlatLog).addIndexes [1]).2 :=
  List.mem_cons_self

theorem sevenAndEight_tokens {s : Streaming FlatLog Bool}
    (h : s.done = [⟨LogStore.sevenRecord, 0, 1⟩, ⟨eightRecord, 1, 1⟩]) :
    ∀ d ∈ s.done, ∀ t ∈ d.record.tokens, ∃ len,
      (len, t.indexId) ∈ [1].zip ((LogStore.empty : LogStore FlatLog).addIndexes [1]).2 ∧
        t.data < 256 ^ len := by
  rw [h]
  intro d hd t ht
  rcases List.mem_cons.mp hd with rfl | hd
  · obtain rfl := List.mem_singleton.mp ht
    exact ⟨1, indexed_1024, by decide⟩
  · obtain rfl := List.mem_singleton.mp hd
    obtain rfl := List.mem_singleton.mp ht
    exact ⟨1, indexed_1024, by decide⟩

theorem count_one : ∀ len, 1 ≤ len ∧ len ≤ 8 → [1].count len ≤ 1024 := fun _ _ =>
  Nat.le_trans List.count_le_length (by decide)

/-- The filter visits the two records. -/
theorem filter_concurrent_sevenAndEight : ∃ (s : Streaming FlatLog Bool) (res : FilterResult)
    (ids : List Nat), s.store.filter 1024 5 9 = some res ∧ res.Yields ids ∧
      ∀ v, v ∈ ids ↔ v = 0 ∨ v = 1 := by
  obtain ⟨s, s', h, hrun, -, hdone, -, hquiet, -⟩ := sevenAndEight_run
  obtain ⟨adds, hinter, hall⟩ := filter_concurrent [1] count_one storeAndHandle_batch
    storeAndHandle_noBurst (h.trans hrun) hquiet (sevenAndEight_tokens hdone)
  obtain ⟨res, hres, hyields⟩ := hall 1 1024 5 9 indexed_1024 (by decide) (by decide) (by decide)
  refine ⟨s', res, _, hres, hyields, fun v => ?_⟩
  rw [hinter.mem_range (by decide), hdone]
  constructor
  · rintro ⟨d, hd, rfl, -⟩
    rcases List.mem_cons.mp hd with rfl | hd
    · exact .inl rfl
    · obtain rfl := List.mem_singleton.mp hd
      exact .inr rfl
  · rintro (rfl | rfl)
    · exact ⟨_, List.mem_cons_self, rfl, by decide⟩
    · exact ⟨_, List.mem_cons_of_mem _ List.mem_cons_self, rfl, by decide⟩

/-- The stream and the filter have the same ids. -/
theorem stream_filter_sevenAndEight : ∃ (s : Streaming FlatLog Bool) (σ : Streamlog)
    (res : FilterResult) (ids : List Nat), s.streams[0]? = some σ ∧
      s.store.filter 1024 5 9 = some res ∧ res.Yields ids ∧
      ∀ v, v ∈ ids ↔ ∃ i, i < σ.tail ∧ σ.slots i = .stored v := by
  obtain ⟨s, s', h, hrun, hnone, hdone, hquiet, hquiet', σ, hσ, hfn⟩ := sevenAndEight_run
  obtain ⟨σ', res, ids, hσ', hres, hyields, hmem, -⟩ := stream_filter [1] count_one
    storeAndHandle_batch storeAndHandle_noBurst h hnone hquiet hrun hquiet'
    (sevenAndEight_tokens hdone) indexed_1024 (by decide) (by decide) (by decide) hσ hfn
  exact ⟨s', σ', res, ids, hσ', hres, hyields, hmem⟩

end Streaming

end Netplay
