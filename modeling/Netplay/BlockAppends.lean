import Netplay.ConcurrentBlocks
import Netplay.Schedule

/-!
# What threads append to a log of blocks

Whatever the threads do, a pointer once set stays, and the block behind it is not freed. So a
thread finds the blocks that it has ensured, and what it has copied stays where it is read.
-/

namespace Netplay

namespace ConcurrentBlocks

open BlockTail
open ConcurrentIndex (Fetch)

/-! ## What a step leaves of the blocks -/

namespace Heap

variable {T : Type}

/-- Pointers stay, and so do the bytes of the blocks. -/
structure Quiet (h h' : Heap T) : Prop where
  bucket : ∀ b p, h.bucket b = some p → h'.bucket b = some p
  elems : ∀ p ∈ h.tree.live, h'.elems p = h.elems p

theorem Quiet.refl (h : Heap T) : h.Quiet h := ⟨fun _ _ hb => hb, fun _ _ => rfl⟩

theorem live_of_bucket {h : Heap T} (hs : h.tree.Sound root) {b p : Nat} (hb : h.bucket b = some p) :
    p ∈ h.tree.live := hs.child_live root hs.root_live b p hb

theorem Quiet.alloc {h : Heap T} (hs : h.tree.Sound root) {a : Nat} (ha : a ∉ h.tree.live)
    (junk : Nat → T) : h.Quiet (h.alloc a junk) where
  bucket b p hb := by
    have hroot : root ≠ a := by
      rintro rfl
      exact ha hs.root_live
    exact (congrFun (LazyTree.alloc_cells_other hroot) b).trans hb
  elems p hp := by
    have hpa : p ≠ a := by
      rintro rfl
      exact ha hp
    exact Function.update_of_ne hpa _ _

theorem Quiet.fill {h : Heap T} {b : Nat} (hnull : h.bucket b = none) (block : Nat) :
    h.Quiet (h.fill b block) := ⟨fun _ _ hp => LazyTree.cells_fill hnull hp, fun _ _ => rfl⟩

theorem Quiet.delete (h : Heap T) (block : Nat) : h.Quiet (h.delete block) :=
  ⟨fun _ _ hb => hb, fun _ _ => rfl⟩

/-- What a step of the test of pointer `b` leaves behind. -/
structure Fetched (h h' : Heap T) (f f' : Fetch) (b : Nat) : Prop where
  quiet : h.Quiet h'
  dtail : h'.dtail = h.dtail
  sound : h'.tree.Sound root
  item : ∀ a, f'.item = some a → h'.tree.Loose root a ∧ a ∉ h.tree.live
  loose : ∀ x, h.tree.Loose root x → f.item ≠ some x → h'.tree.Loose root x
  filled : f' = .reload → ∃ p, h'.bucket b = some p
  live : ∀ x ∈ h'.tree.live, f'.item = some x ∨ (∃ b, h'.bucket b = some x) ∨
    (x ∈ h.tree.live ∧ f.item ≠ some x)

theorem fetch_spec {h h' : Heap T} {a b : Nat} {junk : Nat → T} {f f' : Fetch}
    (hs : h.tree.Sound root) (hitem : ∀ a, f.item = some a → h.tree.Loose root a)
    (hf : h.fetch a junk b f = some (h', f')) : h.Fetched h' f f' b := by
  rcases fetch_cases hf with ⟨rfl, rfl, hb⟩ | ⟨rfl, ha, rfl, rfl⟩ | ⟨block, rfl, rfl, hb⟩
  · refine ⟨Quiet.refl h', rfl, hs, fun x hx => ?_, fun x hx _ => hx, fun hreload => ?_,
      fun x hx => .inr (.inr ⟨hx, by simp [Fetch.item]⟩)⟩
    · rcases hb with ⟨-, rfl⟩ | ⟨-, rfl⟩ <;> cases hx
    · rcases hb with ⟨-, rfl⟩ | ⟨hp, -⟩
      · cases hreload
      · exact hp
  · refine ⟨Quiet.alloc hs ha junk, rfl, hs.alloc, fun x hx => ?_, fun x hx _ => hx.alloc,
      fun hreload => (by cases hreload), fun x hx => ?_⟩
    · cases hx
      exact ⟨hs.loose_alloc ha, ha⟩
    · rcases Finset.mem_insert.mp hx with rfl | hx
      · exact .inl rfl
      · exact .inr (.inr ⟨hx, by simp [Fetch.item]⟩)
  · have hloose := hitem block rfl
    rcases hb with ⟨hnull, rfl⟩ | ⟨⟨p, hp⟩, rfl⟩
    · have hfilled : (h.fill b block).bucket b = some block := LazyTree.fill_cells_self _ _ _ _
      refine ⟨Quiet.fill hnull block, rfl, hs.fill hloose, fun x hx => (by cases hx),
        fun x hx hne => ?_, fun _ => ⟨block, hfilled⟩, fun x hx => ?_⟩
      · exact hx.fill fun heq => hne (congrArg some heq.symm)
      · by_cases hxb : x = block
        · subst hxb
          exact .inr (.inl ⟨b, hfilled⟩)
        · exact .inr (.inr ⟨hx, fun heq => hxb (Option.some.inj heq).symm⟩)
    · refine ⟨Quiet.delete h block, rfl, hs.free hloose, fun x hx => (by cases hx),
        fun x hx hne => ?_, fun _ => ⟨p, hp⟩, fun x hx => ?_⟩
      · exact hx.free hloose fun heq => hne (congrArg some heq.symm)
      · obtain ⟨hlive, hne, -⟩ := LazyTree.mem_free_live.mp hx
        exact .inr (.inr ⟨hlive, fun heq => hne (Option.some.inj heq).symm⟩)

/-! ## Bytes -/

/-- The first `k` bytes are at the position. -/
def Holds (B : Nat) (h : Heap T) (pos : Nat) (bytes : List T) (k : Nat) : Prop :=
  ∃ p, h.bucket (pos / B) = some p ∧ ∀ i, i < k → bytes[i]? = some (h.elems p (pos % B + i))

theorem Holds.quiet {B : Nat} {h h' : Heap T} {pos k : Nat} {bytes : List T}
    (hs : h.tree.Sound root) (hh : h.Holds B pos bytes k) (hq : h.Quiet h') :
    h'.Holds B pos bytes k := by
  obtain ⟨p, hp, hbytes⟩ := hh
  refine ⟨p, hq.bucket _ _ hp, fun i hi => ?_⟩
  rw [hq.elems p (live_of_bucket hs hp)]
  exact hbytes i hi

theorem store_elems (h : Heap T) (block off : Nat) (val : T) :
    (h.store block off val).elems block off = val := by
  simp [store]

theorem store_elems_other (h : Heap T) {block off p off' : Nat} (val : T)
    (hne : ¬ (p = block ∧ off' = off)) : (h.store block off val).elems p off' = h.elems p off' := by
  by_cases hp : p = block
  · subst hp
    have hoff : off' ≠ off := fun heq => hne ⟨rfl, heq⟩
    simp [store, hoff]
  · simp [store, hp]

/-- A byte that is stored at another position leaves what is there. -/
theorem Holds.store {B : Nat} {h : Heap T} {pos k pos' k' block : Nat} {bytes : List T}
    (hs : h.tree.Sound root) (hh : h.Holds B pos' bytes k') (hb : h.bucket (pos / B) = some block)
    (val : T) (hne : ∀ i, i < k' → pos' + i ≠ pos + k) :
    (h.store block (pos % B + k) val).Holds B pos' bytes k' := by
  obtain ⟨p, hp, hbytes⟩ := hh
  refine ⟨p, hp, fun i hi => ?_⟩
  rw [store_elems_other]
  · exact hbytes i hi
  · rintro ⟨rfl, heq⟩
    have hblock := (hs.one_cell root hs.root_live root hs.root_live _ _ _ hp hb).2
    have h1 := Nat.div_add_mod pos' B
    have h2 := Nat.div_add_mod pos B
    rw [hblock] at h1
    exact hne i hi (by omega)

/-- The blocks from the first to the one before the last are in the array, with pointers. -/
def Ensured (n : Nat) (h : Heap T) (first stop : Nat) : Prop :=
  ∀ b, first ≤ b → b < stop → b < n ∧ ∃ p, h.bucket b = some p

theorem Ensured.quiet {n : Nat} {h h' : Heap T} {first stop : Nat} (he : h.Ensured n first stop)
    (hq : h.Quiet h') : h'.Ensured n first stop := by
  intro b h1 h2
  obtain ⟨hb, p, hp⟩ := he b h1 h2
  exact ⟨hb, p, hq.bucket b p hp⟩

theorem Ensured.succ {n : Nat} {h : Heap T} {first stop : Nat} (he : h.Ensured n first stop)
    (hb : stop < n ∧ ∃ p, h.bucket stop = some p) : h.Ensured n first (stop + 1) := by
  intro b h1 h2
  by_cases hlt : b < stop
  · exact he b h1 hlt
  · obtain rfl : b = stop := by omega
    exact hb

end Heap

namespace Appends

variable {T ω : Type}

/-! ## Pointers -/

/-- Every block that is allocated has one pointer to it, or one thread that has not published it. -/
structure Pointers (s : Appends T ω) : Prop where
  sound : s.heap.tree.Sound root
  loose : ∀ w a, (s.appenders w).item = some a → s.heap.tree.Loose root a
  apart : ∀ w w' a, (s.appenders w).item = some a → (s.appenders w').item = some a → w = w'
  owned : ∀ x ∈ s.heap.tree.live, x = root ∨ (∃ b, s.heap.bucket b = some x) ∨
    ∃ w, (s.appenders w).item = some x

theorem pointers_init (junk : Nat → Nat → T) : Pointers (init junk : Appends T ω) where
  sound := by
    have hcell : ∀ p c x, (init junk : Appends T ω).heap.tree.cells p c = some x →
        p = root ∧ c = 0 ∧ x = firstBlock := by
      intro p c x hx
      simp only [init, Heap.init] at hx
      split at hx
      · next hpc => exact ⟨hpc.1, hpc.2, (Option.some.inj hx).symm⟩
      · cases hx
    refine ⟨by simp [init, Heap.init], fun p _ c x hx => ?_, fun p _ c hx => ?_,
      fun p _ p' _ c c' x hx hx' => ?_⟩
    · obtain ⟨-, -, rfl⟩ := hcell p c x hx
      simp [init, Heap.init]
    · exact absurd (hcell p c root hx).2.2 (by decide)
    · obtain ⟨rfl, rfl, -⟩ := hcell p c x hx
      obtain ⟨rfl, rfl, -⟩ := hcell p' c' x hx'
      exact ⟨rfl, rfl⟩
  loose _ _ h := by cases h
  apart _ _ _ h := by cases h
  owned x hx := by
    rcases Finset.mem_insert.mp hx with rfl | hx
    · exact .inl rfl
    · obtain rfl := Finset.mem_singleton.mp hx
      exact .inr (.inl ⟨0, rfl⟩)

variable [DecidableEq ω] {n B : Nat} {s s' : Appends T ω}

/-- A step of a thread that has nothing unpublished, and leaves the pointers as they are. -/
theorem Pointers.moved (h : Pointers s) {heap : Heap T} {w : ω} {x x' : Appender T}
    {rs : List (Placed T)} (hw : s.appenders w = x) (hold : x.item = none) (hnew : x'.item = none)
    (htree : heap.tree = s.heap.tree) : Pointers ⟨heap, Function.update s.appenders w x', rs⟩ := by
  have hitems : ∀ v a, (Function.update s.appenders w x' v).item = some a ↔
      (s.appenders v).item = some a := by
    intro v a
    by_cases hvw : v = w
    · subst hvw
      rw [Function.update_self, hnew, hw, hold]
    · rw [Function.update_of_ne hvw]
  refine ⟨htree ▸ h.sound, fun v a hv => htree ▸ h.loose v a ((hitems v a).mp hv),
    fun v v' a hv hv' => h.apart v v' a ((hitems v a).mp hv) ((hitems v' a).mp hv'), fun y hy => ?_⟩
  dsimp only at hy ⊢
  rw [htree] at hy
  rcases h.owned y hy with hroot | hb | ⟨v, hv⟩
  · exact .inl hroot
  · obtain ⟨b, hb⟩ := hb
    exact .inr (.inl ⟨b, (congrArg (fun tree => tree.cells root b) htree).trans hb⟩)
  · exact .inr (.inr ⟨v, (hitems v y).mpr hv⟩)

/-- A step of a thread in the test of a pointer. -/
theorem Pointers.fetched (h : Pointers s) {heap : Heap T} {w : ω} {x x' : Appender T} {b : Nat}
    {f f' : Fetch} {rs : List (Placed T)} (hw : s.appenders w = x) (hold : x.item = f.item)
    (hnew : x'.item = f'.item) (hf : s.heap.Fetched heap f f' b) :
    Pointers ⟨heap, Function.update s.appenders w x', rs⟩ := by
  have hmine : (s.appenders w).item = f.item := by rw [hw, hold]
  have hself : (Function.update s.appenders w x' w).item = f'.item := by
    rw [Function.update_self, hnew]
  have hother : ∀ v, v ≠ w → (Function.update s.appenders w x' v).item = (s.appenders v).item :=
    fun v hvw => by rw [Function.update_of_ne hvw]
  -- a new block was not allocated before, those of the others were
  have hfresh : ∀ v a, v ≠ w → (s.appenders v).item = some a → f'.item ≠ some a :=
    fun v a _ hv hfa => (hf.item a hfa).2 (h.loose v a hv).live
  refine ⟨hf.sound, fun v a hv => ?_, fun v v' a hv hv' => ?_, fun y hy => ?_⟩
  · by_cases hvw : v = w
    · subst hvw
      rw [hself] at hv
      exact (hf.item a hv).1
    · rw [hother v hvw] at hv
      refine hf.loose a (h.loose v a hv) fun hfa => hvw ?_
      exact h.apart v w a hv (hmine.trans hfa)
  · by_cases hvw : v = w
    · by_cases hvw' : v' = w
      · rw [hvw, hvw']
      · subst hvw
        rw [hself] at hv
        rw [hother v' hvw'] at hv'
        exact absurd hv (hfresh v' a hvw' hv')
    · rw [hother v hvw] at hv
      by_cases hvw' : v' = w
      · subst hvw'
        rw [hself] at hv'
        exact absurd hv' (hfresh v a hvw hv)
      · rw [hother v' hvw'] at hv'
        exact h.apart v v' a hv hv'
  · rcases hf.live y hy with hy' | hb | ⟨hy', hne⟩
    · exact .inr (.inr ⟨w, hself.trans hy'⟩)
    · exact .inr (.inl hb)
    · rcases h.owned y hy' with hroot | ⟨b', hb'⟩ | ⟨v, hv⟩
      · exact .inl hroot
      · exact .inr (.inl ⟨b', hf.quiet.bucket b' y hb'⟩)
      · have hvw : v ≠ w := by
          rintro rfl
          exact hne (hmine.symm.trans hv)
        exact .inr (.inr ⟨v, (hother v hvw).trans hv⟩)

/-! ## Bytes -/

end Appends

/-- The thread has ensured the blocks that it goes to, and what it has copied of a record is there. -/
def Appender.Sure {T : Type} (n B : Nat) (h : Heap T) : Appender T → Prop
  | .idle => True
  | .ensuring job offset b f => offset / B ≤ b ∧ b ≤ (offset + job.bytes) / B ∧
      h.Ensured n (offset / B) b ∧ (f = .reload → b < n ∧ ∃ p, h.bucket b = some p)
  | .placing job offset pos todo f => h.Ensured n (offset / B) ((offset + job.bytes) / B + 1) ∧
      offset ≤ pos ∧ pos + (todo.map List.length).sum ≤ offset + job.bytes ∧
      (todo = [] → f.item = none)
  | .copying job offset pos r todo block k =>
      h.Ensured n (offset / B) ((offset + job.bytes) / B + 1) ∧ offset ≤ pos ∧
      pos + r.length + (todo.map List.length).sum ≤ offset + job.bytes ∧
      h.bucket (pos / B) = some block ∧ k ≤ r.length ∧ h.Holds B pos r k

theorem Appender.Sure.quiet {T : Type} {n B : Nat} {h h' : Heap T} {x : Appender T}
    (hs : h.tree.Sound root) (hx : x.Sure n B h) (hq : h.Quiet h') : x.Sure n B h' := by
  cases x with
  | idle => trivial
  | ensuring job offset b f =>
    obtain ⟨h1, h2, hens, hreload⟩ := hx
    refine ⟨h1, h2, hens.quiet hq, fun hf => ?_⟩
    obtain ⟨hb, p, hp⟩ := hreload hf
    exact ⟨hb, p, hq.bucket b p hp⟩
  | placing job offset pos todo f => exact ⟨hx.1.quiet hq, hx.2⟩
  | copying job offset pos r todo block k =>
    obtain ⟨hens, h1, h2, hb, hk, hholds⟩ := hx
    exact ⟨hens.quiet hq, h1, h2, hq.bucket _ _ hb, hk, hholds.quiet hs hq⟩

theorem Job.start_item {T : Type} (job : Job T) : job.start.item = none := by
  rw [start]
  split <;> rfl

namespace Appends

variable {T ω : Type}

def regions (s : Appends T ω) (w : ω) : Option Block := (s.appenders w).region

/-- The threads are sure of their blocks, the records are where they were put, and nobody
else has their bytes. -/
structure Kept (n B : Nat) (s : Appends T ω) : Prop where
  sure : ∀ w, (s.appenders w).Sure n B s.heap
  bytes : Allocated s.heap.dtail s.regions (s.placed.map Placed.block)
  placed : ∀ r ∈ s.placed, s.heap.Holds B r.offset r.bytes r.bytes.length
  distinct : s.placed.Pairwise fun r r' => r.block.Apart r'.block

theorem kept_init (n B : Nat) (junk : Nat → Nat → T) : Kept n B (init junk : Appends T ω) :=
  ⟨fun _ => trivial, Allocated.init, fun _ h => by simp [init] at h, List.Pairwise.nil⟩

variable [DecidableEq ω] {n B : Nat} {s s' : Appends T ω}

omit [DecidableEq ω] in
theorem pointers_next (hp : Pointers s) {w : ω} {x : Appender T} (hw : s.appenders w = x) {a b : Nat}
    {junk : Nat → T} {f f' : Fetch} {h' : Heap T} (hitem : x.item = f.item)
    (hf : s.heap.fetch a junk b f = some (h', f')) : s.heap.Fetched h' f f' b :=
  Heap.fetch_spec hp.sound (fun y hy => hp.loose w y (by rw [hw, hitem]; exact hy)) hf

theorem pointers_step (h : Pointers s) (hk : Kept n B s) (hs : Step n B s s') : Pointers s' := by
  cases hs with
  | request w job hw => exact h.moved hw rfl rfl rfl
  | run w a junk heap x ret hx =>
    have hsure := hk.sure w
    rcases Appender.next_cases hx with ⟨job, offset, b, f, f', hw, -, hf, rfl, -⟩ |
      ⟨job, offset, b, hw, rfl, -, hnext⟩ | ⟨job, offset, pos, f, hw, rfl, rfl, -⟩ |
      ⟨job, offset, pos, r, todo, f, f', hw, hf, rfl, -⟩ |
      ⟨job, offset, pos, r, todo, block, hw, -, rfl, rfl, -⟩ |
      ⟨job, offset, pos, r, todo, block, k, hw, -, rfl, rfl, -⟩ |
      ⟨job, offset, pos, r, todo, block, k, val, hw, -, -, rfl, rfl, -⟩
    · exact h.fetched hw rfl rfl (pointers_next h hw rfl hf)
    · refine h.moved hw rfl ?_ rfl
      rcases hnext with ⟨-, rfl⟩ | ⟨-, rfl⟩
      · rfl
      · exact job.start_item
    · rw [hw] at hsure
      exact h.moved hw (hsure.2.2.2 rfl) rfl rfl
    · exact h.fetched hw rfl rfl (pointers_next h hw rfl hf)
    · exact h.moved hw rfl rfl rfl
    · exact h.moved hw rfl job.start_item rfl
    · exact h.moved hw rfl rfl rfl

omit [DecidableEq ω] in
theorem regions_update [DecidableEq ω] (s : Appends T ω) (heap : Heap T) (w : ω) (x : Appender T)
    (rs : List (Placed T)) : regions ⟨heap, Function.update s.appenders w x, rs⟩ =
      Function.update s.regions w x.region :=
  Function.comp_update Appender.region s.appenders w x

/-- A step that leaves bytes and pointers, for a thread that keeps its bytes. -/
theorem Kept.moved (hp : Pointers s) (h : Kept n B s) {heap : Heap T} {w : ω} {x x' : Appender T}
    (hw : s.appenders w = x) (hregion : x'.region = x.region) (hq : s.heap.Quiet heap)
    (hdtail : heap.dtail = s.heap.dtail) (hx' : x'.Sure n B heap) :
    Kept n B ⟨heap, Function.update s.appenders w x', s.placed⟩ := by
  refine ⟨fun v => ?_, ?_, fun r hr => (h.placed r hr).quiet hp.sound hq, h.distinct⟩
  · by_cases hvw : v = w
    · subst hvw
      simpa using hx'
    · simpa [hvw] using (h.sure v).quiet hp.sound hq
  · have hsame : x'.region = s.regions w := by rw [hregion, regions, hw]
    rw [regions_update, hsame, Function.update_eq_self]
    dsimp only
    rw [hdtail]
    exact h.bytes

/-- The requested bytes are those behind the tail. -/
theorem kept_request (hp : Pointers s) (h : Kept n B s) {w : ω} {job : Job T} :
    Kept n B
      { s with
        heap := s.heap.fetchAdd job.bytes
        appenders := Function.update s.appenders w
          (.ensuring job s.heap.dtail (s.heap.dtail / B) .check) } := by
  have hq : s.heap.Quiet (s.heap.fetchAdd job.bytes) := ⟨fun _ _ hb => hb, fun _ _ => rfl⟩
  refine ⟨fun v => ?_, ?_, fun r hr => (h.placed r hr).quiet hp.sound hq, h.distinct⟩
  · by_cases hvw : v = w
    · subst hvw
      simp only [Function.update_self]
      exact ⟨Nat.le_refl _, Nat.div_le_div_right (Nat.le_add_right _ _),
        fun b h1 h2 => absurd h2 (Nat.not_lt.mpr h1), fun hf => by cases hf⟩
    · simpa [hvw] using (h.sure v).quiet hp.sound hq
  · rw [regions_update]
    exact h.bytes.reserve w job.bytes

theorem kept_finish (h : Kept n B s) (w : ω) :
    Kept n B ⟨s.heap, Function.update s.appenders w .idle, s.placed⟩ := by
  refine ⟨fun v => ?_, ?_, h.placed, h.distinct⟩
  · by_cases hvw : v = w
    · subst hvw
      simp [Appender.Sure]
    · simpa [hvw] using h.sure v
  · rw [regions_update]
    exact h.bytes.drop w

/-- A record whose last byte is copied has the front part of the thread's bytes. -/
theorem kept_record (h : Kept n B s) {w : ω} {job : Job T} {offset pos block k : Nat}
    {r : List T} {todo : List (List T)}
    (hw : s.appenders w = .copying job offset pos r todo block k) (hk : r.length ≤ k) :
    Kept n B ⟨s.heap, Function.update s.appenders w
      (.placing job offset (pos + r.length) todo job.start), s.placed ++ [⟨pos, r⟩]⟩ := by
  have hsure := h.sure w
  rw [hw] at hsure
  obtain ⟨hens, h1, h2, hb, hle, hholds⟩ := hsure
  obtain rfl : k = r.length := Nat.le_antisymm hle hk
  have hregion : s.regions w = some ⟨pos, offset + job.bytes - pos⟩ := by rw [regions, hw]; rfl
  refine ⟨fun v => ?_, ?_, fun r' hr' => ?_, ?_⟩
  · by_cases hvw : v = w
    · subst hvw
      simp only [Function.update_self]
      exact ⟨hens, Nat.le_add_right_of_le h1, h2, fun _ => job.start_item⟩
    · simpa [hvw] using h.sure v
  · rw [regions_update, List.map_append]
    refine h.bytes.split hregion ⟨Nat.le_refl _, ?_⟩ ⟨Nat.le_add_right _ _, ?_⟩
      (Block.apart_of_le (Nat.le_refl _))
    · simp only [Placed.block]
      omega
    · dsimp only
      omega
  · rcases List.mem_append.mp hr' with hr' | hr'
    · exact h.placed r' hr'
    · obtain rfl := List.mem_singleton.mp hr'
      exact hholds
  · rw [List.pairwise_append]
    refine ⟨h.distinct, List.pairwise_singleton _ _, fun r' hr' r'' hr'' i hi hi' => ?_⟩
    obtain rfl := List.mem_singleton.mp hr''
    refine h.bytes.kept_apart w _ hregion _ (List.mem_map_of_mem hr') i ⟨hi'.1, ?_⟩ hi
    have := hi'.2
    simp only [Placed.block] at this
    dsimp only
    omega

/-- A byte that is copied goes to a position that no other thread and no record has. -/
theorem kept_store (hp : Pointers s) (h : Kept n B s) {w : ω} {job : Job T} {offset pos block k : Nat}
    {r : List T} {todo : List (List T)} {val : T}
    (hw : s.appenders w = .copying job offset pos r todo block k) (hval : r[k]? = some val) :
    Kept n B ⟨s.heap.store block (pos % B + k) val, Function.update s.appenders w
      (.copying job offset pos r todo block (k + 1)), s.placed⟩ := by
  have hsure := h.sure w
  rw [hw] at hsure
  obtain ⟨hens, h1, h2, hb, -, hholds⟩ := hsure
  have hlt : k < r.length := (List.getElem?_eq_some_iff.mp hval).1
  have hregion : s.regions w = some ⟨pos, offset + job.bytes - pos⟩ := by rw [regions, hw]; rfl
  have hmine : Block.Holds ⟨pos, offset + job.bytes - pos⟩ (pos + k) := by
    refine ⟨Nat.le_add_right _ _, ?_⟩
    dsimp only
    omega
  refine ⟨fun v => ?_, ?_, fun r' hr' => ?_, h.distinct⟩
  · by_cases hvw : v = w
    · subst hvw
      simp only [Function.update_self]
      refine ⟨hens, h1, h2, hb, hlt, block, hb, fun i hi => ?_⟩
      by_cases hik : i = k
      · subst hik
        rw [Heap.store_elems]
        exact hval
      · have hother := hholds.store hp.sound hb val (k := k) fun i hi => by omega
        obtain ⟨p, hp', hbytes⟩ := hother
        obtain rfl : p = block := Option.some.inj (hp'.symm.trans hb)
        exact hbytes i (by omega)
    · simp only [Function.update_of_ne hvw]
      have hother := h.sure v
      cases hv : s.appenders v with
      | copying job' offset' pos' r' todo' block' k' =>
        rw [hv] at hother
        obtain ⟨hens', h1', h2', hb', hk', hholds'⟩ := hother
        have hregion' : s.regions v = some ⟨pos', offset' + job'.bytes - pos'⟩ := by
          rw [regions, hv]
          rfl
        refine ⟨hens', h1', h2', hb', hk', hholds'.store hp.sound hb val fun i hi heq => ?_⟩
        refine h.bytes.apart v w _ _ hvw hregion' hregion (pos + k) ⟨?_, ?_⟩ hmine
        · dsimp only
          omega
        · dsimp only
          omega
      | idle => trivial
      | ensuring => rw [hv] at hother; exact hother
      | placing => rw [hv] at hother; exact hother
  · have hsame : (Appender.copying job offset pos r todo block (k + 1)).region = s.regions w := by
      rw [hregion]
      rfl
    rw [regions_update, hsame, Function.update_eq_self]
    exact h.bytes
  · refine (h.placed r' hr').store hp.sound hb val fun i hi heq => ?_
    refine h.bytes.kept_apart w _ hregion _ (List.mem_map_of_mem hr') (pos + k) hmine ⟨?_, ?_⟩
    · simp only [Placed.block]
      omega
    · simp only [Placed.block]
      omega

theorem kept_step (hp : Pointers s) (h : Kept n B s) (hs : Step n B s s') : Kept n B s' := by
  cases hs with
  | request w job hw => exact kept_request hp h
  | run w a junk heap x ret hx =>
    have hsure := h.sure w
    rcases Appender.next_cases hx with ⟨job, offset, b, f, f', hw, hn, hf, rfl, rfl⟩ |
      ⟨job, offset, b, hw, rfl, rfl, hnext⟩ | ⟨job, offset, pos, f, hw, rfl, rfl, rfl⟩ |
      ⟨job, offset, pos, r, todo, f, f', hw, hf, rfl, rfl⟩ |
      ⟨job, offset, pos, r, todo, block, hw, hb, rfl, rfl, rfl⟩ |
      ⟨job, offset, pos, r, todo, block, k, hw, hk, rfl, rfl, rfl⟩ |
      ⟨job, offset, pos, r, todo, block, k, val, hw, hval, -, rfl, rfl, rfl⟩
    · rw [hw] at hsure
      obtain ⟨h1, h2, hens, -⟩ := hsure
      have hfetched := pointers_next hp hw rfl hf
      rw [Option.toList_none, List.append_nil]
      exact h.moved hp hw rfl hfetched.quiet hfetched.dtail
        ⟨h1, h2, hens.quiet hfetched.quiet, fun hreload => ⟨hn, hfetched.filled hreload⟩⟩
    · rw [hw] at hsure
      obtain ⟨h1, h2, hens, hreload⟩ := hsure
      have hnext' := hens.succ (hreload rfl)
      rw [Option.toList_none, List.append_nil]
      rcases hnext with ⟨hlt, rfl⟩ | ⟨hle, rfl⟩
      · exact h.moved hp hw rfl (Heap.Quiet.refl _) rfl
          ⟨Nat.le_succ_of_le h1, hlt, hnext', fun hf => by cases hf⟩
      · obtain rfl : b = (offset + job.bytes) / B := Nat.le_antisymm h2 hle
        refine h.moved hp hw ?_ (Heap.Quiet.refl _) rfl
          ⟨hnext', Nat.le_refl _, Nat.add_le_add_left job.fits _, fun _ => job.start_item⟩
        simp only [Appender.region, Nat.add_sub_cancel_left]
    · rw [Option.toList_none, List.append_nil]
      exact kept_finish h w
    · rw [hw] at hsure
      obtain ⟨hens, h1, h2, -⟩ := hsure
      have hfetched := pointers_next hp hw rfl hf
      rw [Option.toList_none, List.append_nil]
      exact h.moved hp hw rfl hfetched.quiet hfetched.dtail
        ⟨hens.quiet hfetched.quiet, h1, h2, fun hnil => by cases hnil⟩
    · rw [hw] at hsure
      obtain ⟨hens, h1, h2, -⟩ := hsure
      rw [Option.toList_none, List.append_nil]
      refine h.moved hp hw rfl (Heap.Quiet.refl _) rfl ⟨hens, h1, ?_, hb, Nat.zero_le _, block, hb,
        fun i hi => absurd hi (Nat.not_lt_zero i)⟩
      rw [List.map_cons, List.sum_cons] at h2
      omega
    · exact kept_record h hw hk
    · rw [Option.toList_none, List.append_nil]
      exact kept_store hp h hw hval

theorem kept_reached (h : Reached n B s) : Pointers s ∧ Kept n B s := by
  obtain ⟨junk, h⟩ := h
  induction h with
  | refl => exact ⟨pointers_init junk, kept_init n B junk⟩
  | tail _ hs ih => exact ⟨pointers_step ih.1 ih.2 hs, kept_step ih.1 ih.2 hs⟩

/-! ## What readers find -/

theorem reached_trans (h : Reached n B s) (hrun : Relation.ReflTransGen (Step n B) s s') :
    Reached n B s' := by
  obtain ⟨junk, h⟩ := h
  exact ⟨junk, h.trans hrun⟩

theorem step_bucket (hp : Pointers s) (hs : Step n B s s') :
    ∀ b p, s.heap.bucket b = some p → s'.heap.bucket b = some p := by
  cases hs with
  | request w job hw => exact fun _ _ hb => hb
  | run w a junk heap x ret hx =>
    rcases Appender.next_cases hx with ⟨job, offset, b, f, f', hw, hn, hf, -, -⟩ |
      ⟨job, offset, b, hw, rfl, -⟩ | ⟨job, offset, pos, f, hw, rfl, -⟩ |
      ⟨job, offset, pos, r, todo, f, f', hw, hf, -⟩ |
      ⟨job, offset, pos, r, todo, block, hw, hb, rfl, -⟩ |
      ⟨job, offset, pos, r, todo, block, k, hw, hk, rfl, -⟩ |
      ⟨job, offset, pos, r, todo, block, k, val, hw, hval, -, rfl, -⟩
    · exact (pointers_next hp hw rfl hf).quiet.bucket
    · exact fun _ _ hb => hb
    · exact fun _ _ hb => hb
    · exact (pointers_next hp hw rfl hf).quiet.bucket
    · exact fun _ _ hb => hb
    · exact fun _ _ hb => hb
    · exact fun _ _ hb => hb

theorem step_placed {r : Placed T} (hr : r ∈ s.placed) (hs : Step n B s s') : r ∈ s'.placed := by
  cases hs with
  | request w job hw => exact hr
  | run w a junk heap x ret hx => exact List.mem_append_left _ hr

/-- Pointers and records of a state are there in every later one. -/
theorem run_keeps (h : Reached n B s) (hrun : Relation.ReflTransGen (Step n B) s s') :
    (∀ b p, s.heap.bucket b = some p → s'.heap.bucket b = some p) ∧
      ∀ r ∈ s.placed, r ∈ s'.placed := by
  induction hrun with
  | refl => exact ⟨fun _ _ hb => hb, fun _ hr => hr⟩
  | tail hrun hs ih =>
    have hp := (kept_reached (reached_trans h hrun)).1
    exact ⟨fun b p hb => step_bucket hp hs b p (ih.1 b p hb),
      fun r hr => step_placed (ih.2 r hr) hs⟩

end Appends

/-- The bytes as the data log of the sequential model. -/
def Heap.view (B : Nat) (h : Heap UInt8) : BlockLog B := fun b i =>
  match h.bucket b with
  | some p => h.elems p i
  | none => 0

/-- The data log that has the records written one after the other. -/
def written (B : Nat) (rs : List (Placed UInt8)) : BlockLog B :=
  rs.foldl (fun d r => Datalog.write d r.offset r.bytes) Datalog.empty

theorem Heap.Holds.read_view {B : Nat} {h : Heap UInt8} {pos : Nat} {bytes : List UInt8}
    (hh : h.Holds B pos bytes bytes.length) :
    Datalog.read (h.view B) pos bytes.length = bytes := by
  obtain ⟨p, hp, hbytes⟩ := hh
  refine List.ext_getElem? fun i => ?_
  change ((List.range bytes.length).map fun i => h.view B (pos / B) (pos % B + i))[i]? = bytes[i]?
  by_cases hi : i < bytes.length
  · rw [hbytes i hi]
    simp [hi, view, hp]
  · rw [List.getElem?_eq_none (by simpa using hi), List.getElem?_eq_none (by omega)]

/-- Records that do not overlap can be written in any order; each of them is read back. -/
theorem read_written {B : Nat} {rs : List (Placed UInt8)}
    (h : rs.Pairwise fun r r' => r.block.Apart r'.block) {r : Placed UInt8} (hr : r ∈ rs) :
    Datalog.read (written B rs) r.offset r.bytes.length = r.bytes := by
  induction rs using List.reverseRecOn with
  | nil => cases hr
  | append_singleton rs r' ih =>
    obtain ⟨hrs, -, hlast⟩ := List.pairwise_append.mp h
    rw [written, List.foldl_append, List.foldl_cons, List.foldl_nil]
    rcases List.mem_append.mp hr with hr | hr
    · have hapart := (hlast r hr r' (List.mem_singleton_self r')).symm
      exact (Datalog.read_write_other _ _ _ _ _ hapart).trans (ih hrs hr)
    · obtain rfl := List.mem_singleton.mp hr
      exact Datalog.read_write_self _ _ _

namespace Appends

variable {T ω : Type} [DecidableEq ω] {n B : Nat} {s s' : Appends T ω}

/-- A pointer that is loaded for a record leads to its elements from then on, whatever the
threads do. -/
theorem reads_placed (h : Reached n B s) (hrun : Relation.ReflTransGen (Step n B) s s')
    {r : Placed T} (hr : r ∈ s.placed) : ∃ p, s.heap.bucket (r.offset / B) = some p ∧
      s'.heap.bucket (r.offset / B) = some p ∧ p ∈ s'.heap.tree.live ∧
      ∀ i, i < r.bytes.length → r.bytes[i]? = some (s'.heap.elems p (r.offset % B + i)) := by
  obtain ⟨-, hk⟩ := kept_reached h
  obtain ⟨hp', hk'⟩ := kept_reached (reached_trans h hrun)
  obtain ⟨hbuckets, hrecords⟩ := run_keeps h hrun
  obtain ⟨p, hp, -⟩ := hk.placed r hr
  have hbucket := hbuckets _ _ hp
  refine ⟨p, hp, hbucket, Heap.live_of_bucket hp'.sound hbucket, fun i hi => ?_⟩
  obtain ⟨p', hb', hbytes⟩ := hk'.placed r (hrecords r hr)
  obtain rfl : p' = p := Option.some.inj (hb'.symm.trans hbucket)
  exact hbytes i hi

/-- Three bytes from the first block into the second one, and one byte behind them. -/
def threeBytes : Job UInt8 := ⟨3, [[7, 8], [9]], false, by decide⟩

def oneMore : Job UInt8 := ⟨1, [[10]], true, by decide⟩

/-- Two threads have each allocated a block for the same pointer. -/
def sameBlock : List (Turn UInt8 Bool) :=
  [.request false threeBytes, .request true oneMore, .goOn false 2, .goOn false 2, .goOn false 2,
    .goOn true 3, .goOn false 2, .goOn true 3]

/-- Thread `true` is first; thread `false` frees its block and copies its first record. -/
def oneFreed : List (Turn UInt8 Bool) :=
  sameBlock ++ [.goOn true 3, .goOn false 2] ++ List.replicate 5 (.goOn false 5)

/-- Both get to their ends, and then thread `true` requests bytes that go beyond the last block. -/
def bothDone : List (Turn UInt8 Bool) :=
  (List.replicate 4 [.goOn true 4, .goOn false 5]).flatten ++ List.replicate 6 (.goOn true 4) ++
    [.request true threeBytes, .goOn true 5, .goOn true 5]

theorem sharedBlock_run : ∃ s s' : Appends UInt8 Bool, Reached 3 2 s ∧
    Relation.ReflTransGen (Step 3 2) s s' ∧ s.placed = [⟨0, [7, 8]⟩] ∧
      s'.placed = [⟨0, [7, 8]⟩, ⟨2, [9]⟩, ⟨3, [10]⟩] ∧ s'.heap.tree.live = {0, 1, 3, 4} ∧
      s'.appenders true = .ensuring threeBytes 4 3 .check := by
  obtain ⟨s, hs, hsee⟩ := Schedule.exists_run (step_of_turn (n := 3) (B := 2)) oneFreed
    (by decide +kernel : (Schedule.after (turn 3 2 fun _ => 0)
      (init fun _ _ => 0 : Appends UInt8 Bool) oneFreed).map (fun s =>
        decide (s.placed = [⟨0, [7, 8]⟩] ∧
          (Schedule.after (turn 3 2 fun _ => 0) s bothDone).map (fun s' =>
            decide (s'.placed = [⟨0, [7, 8]⟩, ⟨2, [9]⟩, ⟨3, [10]⟩] ∧
              s'.heap.tree.live = {0, 1, 3, 4} ∧
              s'.appenders true = .ensuring threeBytes 4 3 .check)) = some true)) = some true)
  obtain ⟨hplaced, hmore⟩ := of_decide_eq_true hsee
  obtain ⟨s', hrun, hsee'⟩ := Schedule.exists_run (step_of_turn (n := 3) (B := 2)) bothDone hmore
  exact ⟨s, s', ⟨_, hs⟩, hrun, hplaced, of_decide_eq_true hsee'⟩

/-- The first record stays while the other thread writes behind it. -/
theorem reads_placed_sharedBlock : ∃ s s' : Appends UInt8 Bool, s.placed = [⟨0, [7, 8]⟩] ∧
    s'.placed = [⟨0, [7, 8]⟩, ⟨2, [9]⟩, ⟨3, [10]⟩] ∧ ∃ p, s.heap.bucket 0 = some p ∧
      s'.heap.bucket 0 = some p ∧ p ∈ s'.heap.tree.live ∧
      ∀ i, i < 2 → [7, 8][i]? = some (s'.heap.elems p i) := by
  obtain ⟨s, s', hs, hrun, hplaced, hplaced', -⟩ := sharedBlock_run
  have hmem : ⟨0, [7, 8]⟩ ∈ s.placed := by rw [hplaced]; exact List.mem_singleton_self _
  obtain ⟨p, hp, hp', hlive, hbytes⟩ := reads_placed hs hrun hmem
  exact ⟨s, s', hplaced, hplaced', p, hp, hp', hlive, by simpa using hbytes⟩

/-- The bytes of the records are those of the sequential data log that has them written one after
the other. -/
theorem view_written {s : Appends UInt8 ω} (h : Reached n B s) {r : Placed UInt8} (hr : r ∈ s.placed) :
    Datalog.read (s.heap.view B) r.offset r.bytes.length =
      Datalog.read (written B s.placed) r.offset r.bytes.length := by
  obtain ⟨-, hk⟩ := kept_reached h
  rw [(hk.placed r hr).read_view, read_written hk.distinct hr]

/-- The block of the two threads holds a record of each. -/
theorem view_written_sharedBlock : ∃ s : Appends UInt8 Bool,
    s.placed = [⟨0, [7, 8]⟩, ⟨2, [9]⟩, ⟨3, [10]⟩] ∧
      ∀ r ∈ s.placed, Datalog.read (s.heap.view 2) r.offset r.bytes.length =
        Datalog.read (written 2 s.placed) r.offset r.bytes.length := by
  obtain ⟨s, s', hs, hrun, -, hplaced, -⟩ := sharedBlock_run
  exact ⟨s', hplaced, fun r hr => view_written (reached_trans hs hrun) hr⟩

end Appends

/-! ## What is undefined -/

/-- The next access of the thread is outside the array of pointers or behind the buffer of a block. -/
def Appender.Beyond {T : Type} (n B : Nat) : Appender T → Prop
  | .ensuring _ _ b f => f ≠ .reload ∧ n ≤ b
  | .copying _ _ pos r _ _ k => k < r.length ∧ B + bufferSize ≤ pos % B + k
  | _ => False

theorem Heap.fetch_isSome {T : Type} (h : Heap T) {a : Nat} (ha : a ∉ h.tree.live) (junk : Nat → T)
    (b : Nat) {f : Fetch} (hf : f ≠ .reload) : ∃ h' f', h.fetch a junk b f = some (h', f') := by
  cases f with
  | check => exact ⟨_, _, rfl⟩
  | create => exact ⟨_, _, if_pos ha⟩
  | exchange block => exact ⟨_, _, rfl⟩
  | reload => exact absurd rfl hf

/-- A thread in a call has a next step unless its access is beyond. -/
theorem Appender.Sure.next_eq_none {T : Type} {n B : Nat} {h : Heap T} {x : Appender T}
    (hsure : x.Sure n B h) (hs : h.tree.Sound root) (hx : x ≠ .idle) {a : Nat}
    (ha : a ∉ h.tree.live) (junk : Nat → T) : x.next n B h a junk = none ↔ x.Beyond n B := by
  cases x with
  | idle => exact absurd rfl hx
  | ensuring job offset b f =>
    by_cases hf : f = .reload
    · subst hf
      simp [Appender.next, Appender.Beyond]
    · rw [Appender.next_ensuring hf, Appender.Beyond]
      obtain ⟨h', f', hfetch⟩ := h.fetch_isSome ha junk b hf
      rw [hfetch]
      by_cases hb : b < n
      · simp [hb, hf]
      · simp [hb, hf, Nat.le_of_not_lt hb]
  | placing job offset pos todo f =>
    obtain ⟨hens, h1, h2, -⟩ := hsure
    simp only [Appender.Beyond, iff_false]
    cases todo with
    | nil => simp [Appender.next]
    | cons r todo =>
      rw [List.map_cons, List.sum_cons] at h2
      have hle : pos / B ≤ (offset + job.bytes) / B := Nat.div_le_div_right (by omega)
      obtain ⟨hpos, p, hbucket⟩ := hens (pos / B) (Nat.div_le_div_right h1) (by omega)
      by_cases hf : f = .reload
      · subst hf
        simp [Appender.next, hpos, hbucket]
      · obtain ⟨h', f', hfetch⟩ := h.fetch_isSome ha junk (pos / B) hf
        simp [Appender.next_placing hf, hpos, hfetch]
  | copying job offset pos r todo block k =>
    obtain ⟨-, -, -, hb, -, -⟩ := hsure
    have hlive := Heap.live_of_bucket hs hb
    rw [Appender.next, Appender.Beyond]
    by_cases hk : k < r.length
    · simp only [List.getElem?_eq_getElem hk, hlive, true_and, ite_eq_right_iff, hk]
      constructor
      · intro hnone
        by_contra hlt
        cases hnone (by omega)
      · intro hle hlt
        omega
    · simp [hk]

namespace Appends

variable {T ω : Type} [DecidableEq ω] {n B : Nat} {s s' : Appends T ω}

/-- No thread ever goes through a null pointer or to a block that is not allocated: the only
accesses that are not defined are those beyond the array of pointers or a buffer. -/
theorem stuck_iff (h : Reached n B s) {w : ω} (hw : s.appenders w ≠ .idle) {a : Nat}
    (ha : a ∉ s.heap.tree.live) (junk : Nat → T) :
    (s.appenders w).next n B s.heap a junk = none ↔ (s.appenders w).Beyond n B := by
  obtain ⟨hp, hk⟩ := kept_reached h
  exact (hk.sure w).next_eq_none hp.sound hw ha junk

theorem stuck_iff_beyond : ∃ s : Appends UInt8 Bool, Reached 3 2 s ∧
    (s.appenders true).Beyond 3 2 ∧ (s.appenders true).next 3 2 s.heap 5 (fun _ => 0) = none := by
  obtain ⟨s, s', hs, hrun, -, -, hlive, hw⟩ := sharedBlock_run
  have hbeyond : (s'.appenders true).Beyond 3 2 := by
    rw [hw]
    exact ⟨nofun, Nat.le_refl 3⟩
  have hreach := reached_trans hs hrun
  exact ⟨s', hreach, hbeyond, (stuck_iff hreach (by rw [hw]; nofun) (by rw [hlive]; decide) _).mpr
    hbeyond⟩

/-- While the tail is below the end of the array and no record is longer than the buffer and one
byte, every thread can take its next step. -/
theorem runs_defined (hB : 1 ≤ B) (h : Reached n B s) (htail : s.heap.dtail / B < n)
    (hrecords : ∀ w job offset pos r todo block k,
      s.appenders w = .copying job offset pos r todo block k → r.length ≤ bufferSize + 1)
    {w : ω} (hw : s.appenders w ≠ .idle) {a : Nat} (ha : a ∉ s.heap.tree.live)
    (junk : Nat → T) : (s.appenders w).next n B s.heap a junk ≠ none := by
  obtain ⟨hp, hk⟩ := kept_reached h
  have hsure := hk.sure w
  rw [ne_eq, hsure.next_eq_none hp.sound hw ha junk]
  cases hx : s.appenders w with
  | idle => exact absurd hx hw
  | ensuring job offset b f =>
    rw [hx] at hsure
    have hend := hk.bytes.bound w ⟨offset, job.bytes⟩ (by rw [regions, hx]; rfl)
    have hle : (offset + job.bytes) / B ≤ s.heap.dtail / B := Nat.div_le_div_right hend
    rintro ⟨-, hn⟩
    exact absurd (Nat.le_trans hsure.2.1 hle) (by omega)
  | placing job offset pos todo f => exact fun hbad => hbad
  | copying job offset pos r todo block k =>
    rintro ⟨hlt, hbeyond⟩
    have hlen := hrecords w job offset pos r todo block k hx
    have hmod := Nat.mod_lt pos hB
    omega

/-- Every block has exactly one pointer to it, or is with exactly one thread that has allocated it
and not yet tried to put it into the log: none is lost, and none is used twice. -/
theorem one_holder (h : Reached n B s) {x : Nat} (hx : x ∈ s.heap.tree.live) (hroot : x ≠ root) :
    ((∃! b, s.heap.bucket b = some x) ∧ ∀ w, (s.appenders w).item ≠ some x) ∨
      (∃! w, (s.appenders w).item = some x) ∧ ∀ b, s.heap.bucket b ≠ some x := by
  obtain ⟨hp, -⟩ := kept_reached h
  have hapart : ∀ b w, s.heap.bucket b = some x → (s.appenders w).item ≠ some x :=
    fun b w hb hw => (hp.loose w x hw).no_cell root hp.sound.root_live b hb
  rcases (hp.owned x hx).resolve_left hroot with ⟨b, hb⟩ | ⟨w, hw⟩
  · refine .inl ⟨⟨b, hb, fun b' hb' => ?_⟩, fun w => hapart b w hb⟩
    exact (hp.sound.one_cell root hp.sound.root_live root hp.sound.root_live b' b x hb' hb).2
  · exact .inr ⟨⟨w, hw, fun w' hw' => hp.apart w' w x hw' hw⟩, fun b hb => hapart b w hb hw⟩

/-- Of the two blocks for one pointer each has its thread. -/
theorem one_holder_sameBlock : ∃ s : Appends UInt8 Bool, ∀ x ∈ [2, 3],
    ((∃! b, s.heap.bucket b = some x) ∧ ∀ w, (s.appenders w).item ≠ some x) ∨
      (∃! w, (s.appenders w).item = some x) ∧ ∀ b, s.heap.bucket b ≠ some x := by
  obtain ⟨s, hs, hlive⟩ := Schedule.exists_run (step_of_turn (n := 3) (B := 2)) sameBlock
    (by decide +kernel : (Schedule.after (turn 3 2 fun _ => 0)
      (init fun _ _ => 0 : Appends UInt8 Bool) sameBlock).map (fun s => s.heap.tree.live) =
        some {0, 1, 2, 3})
  refine ⟨s, fun x hx => ?_⟩
  have hmem : x ∈ s.heap.tree.live ∧ x ≠ root := by
    rw [hlive]
    revert x
    decide
  exact one_holder ⟨_, hs⟩ hmem.1 hmem.2

end Appends

end ConcurrentBlocks

end Netplay
