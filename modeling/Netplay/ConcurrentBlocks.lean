import Mathlib.Logic.Relation
import Netplay.ConcurrentIndex
import Netplay.DataLog

/-!
# Threads that append to a log of blocks

`request_bytes` and the copies to the bytes that it returns, as the sequence of their atomic
steps: the `fetch_add` on `dtail_`; for every block of `ensure_alloc` the load of its pointer and,
where it is null, the allocation and the compare-exchange, which frees the block again when
another thread was first; the load of the pointer for a record; and the copy element by element.
`new` returns any address that is not in use, with any content. The data log is such a log of
bytes, and the entries that the offset log has for a block of ids are one of numbers.

An access through a null pointer, to a block that is not allocated, behind the buffer of a block or
outside the array of pointers is undefined and gives no step.
-/

namespace Netplay

namespace ConcurrentBlocks

open ConcurrentIndex (Fetch)

/-! ## The blocks -/

/-- The log and its blocks: the cells of the log are the pointers of `buckets_`, and the
elements are those of the block at an address. -/
structure Heap (T : Type) where
  tree : LazyTree Nat Nat
  elems : Nat → Nat → T
  dtail : Nat

/-- The log, and the block that its constructor allocates. -/
def root : Nat := 0
def firstBlock : Nat := 1

/-- `BUFFER_SIZE`. -/
def bufferSize : Nat := 1024

namespace Heap

variable {T : Type}

def init (junk : Nat → Nat → T) : Heap T :=
  ⟨⟨{root, firstBlock}, fun p c => if p = root ∧ c = 0 then some firstBlock else none⟩, junk, 0⟩

/-- The pointer of a block. -/
def bucket (h : Heap T) (b : Nat) : Option Nat := h.tree.cells root b

/-- `dtail_.fetch_add(bytes)`. -/
def fetchAdd (h : Heap T) (bytes : Nat) : Heap T := { h with dtail := h.dtail + bytes }

/-- `new T[BLOCK_SIZE + BUFFER_SIZE]`. -/
def alloc (h : Heap T) (a : Nat) (junk : Nat → T) : Heap T :=
  { h with tree := h.tree.alloc a, elems := Function.update h.elems a junk }

def fill (h : Heap T) (b block : Nat) : Heap T := { h with tree := h.tree.fill root b block }

def delete (h : Heap T) (block : Nat) : Heap T := { h with tree := h.tree.free block [] }

def store (h : Heap T) (block off : Nat) (val : T) : Heap T :=
  { h with elems := Function.update h.elems block (Function.update (h.elems block) off val) }

/-- `if (buckets_[b] == NULL) try_allocate_bucket(b)`, a step of it. -/
def fetch (h : Heap T) (a : Nat) (junk : Nat → T) (b : Nat) : Fetch → Option (Heap T × Fetch)
  | .check => some (h, if (h.bucket b).isNone then .create else .reload)
  | .create => if a ∉ h.tree.live then some (h.alloc a junk, .exchange a) else none
  | .exchange block =>
    some (if (h.bucket b).isNone then h.fill b block else h.delete block, .reload)
  | .reload => none

end Heap

/-! ## The threads -/

/-- What a thread appends: the bytes it requests at once, and the records that it copies into
them one behind the other, through `write`, which tests the pointer once more, or through `ptr`. -/
structure Job (T : Type) where
  bytes : Nat
  records : List (List T)
  viaWrite : Bool
  fits : (records.map List.length).sum ≤ bytes
  deriving DecidableEq

/-- What a record starts with. -/
def Job.start {T : Type} (job : Job T) : Fetch := if job.viaWrite then .check else .reload

/-- A record that has been copied. -/
structure Placed (T : Type) where
  offset : Nat
  bytes : List T
  deriving DecidableEq, Repr

def Placed.block {T : Type} (r : Placed T) : Block := ⟨r.offset, r.bytes.length⟩

/-- Where a thread stands: in the loop of `ensure_alloc` at block `b`, before the pointer for the
record at `pos`, or with byte `k` of the record to copy. -/
inductive Appender (T : Type) where
  | idle : Appender T
  | ensuring : Job T → (offset b : Nat) → Fetch → Appender T
  | placing : Job T → (offset pos : Nat) → (todo : List (List T)) → Fetch → Appender T
  | copying : Job T → (offset pos : Nat) → (r : List T) → (todo : List (List T)) →
      (block k : Nat) → Appender T
  deriving DecidableEq

namespace Appender

variable {T : Type}

/-- The block that no other thread has seen. -/
def item : Appender T → Option Nat
  | .ensuring _ _ _ f => f.item
  | .placing _ _ _ _ f => f.item
  | _ => none

/-- The bytes that the thread has requested and not yet written. -/
def region : Appender T → Option Block
  | .idle => none
  | .ensuring job offset _ _ => some ⟨offset, job.bytes⟩
  | .placing job offset pos _ _ => some ⟨pos, offset + job.bytes - pos⟩
  | .copying job offset pos _ _ _ _ => some ⟨pos, offset + job.bytes - pos⟩

/-- One atomic step of a thread, for `n` blocks of size `B`, with the address and the content of
what it allocates; and the record, when its last byte is copied. -/
def next (n B : Nat) (h : Heap T) (a : Nat) (junk : Nat → T) :
    Appender T → Option (Heap T × Appender T × Option (Placed T))
  | .idle => none
  | .ensuring job offset b .reload =>
    some (h, if b < (offset + job.bytes) / B then .ensuring job offset (b + 1) .check
      else .placing job offset offset job.records job.start, none)
  | .ensuring job offset b f =>
    if b < n then
      (h.fetch a junk b f).map fun p => (p.1, .ensuring job offset b p.2, none)
    else none
  | .placing _ _ _ [] _ => some (h, .idle, none)
  | .placing job offset pos (r :: todo) .reload =>
    if pos / B < n then
      (h.bucket (pos / B)).map fun block => (h, .copying job offset pos r todo block 0, none)
    else none
  | .placing job offset pos (r :: todo) f =>
    if pos / B < n then
      (h.fetch a junk (pos / B) f).map fun p =>
        (p.1, .placing job offset pos (r :: todo) p.2, none)
    else none
  | .copying job offset pos r todo block k =>
    match r[k]? with
    | none => some (h, .placing job offset (pos + r.length) todo job.start, some ⟨pos, r⟩)
    | some val =>
      if block ∈ h.tree.live ∧ pos % B + k < B + bufferSize then
        some (h.store block (pos % B + k) val, .copying job offset pos r todo block (k + 1), none)
      else none

end Appender

/-- The blocks, the threads, and the records that have been copied, for the record. -/
structure Appends (T ω : Type) where
  heap : Heap T
  appenders : ω → Appender T
  placed : List (Placed T)

namespace Appends

variable {T ω : Type}

def init (junk : Nat → Nat → T) : Appends T ω := ⟨.init junk, fun _ => .idle, []⟩

variable [DecidableEq ω]

inductive Step (n B : Nat) : Appends T ω → Appends T ω → Prop where
  | request (s : Appends T ω) (w : ω) (job : Job T) (hw : s.appenders w = .idle) :
      Step n B s
        { s with
          heap := s.heap.fetchAdd job.bytes
          appenders := Function.update s.appenders w
            (.ensuring job s.heap.dtail (s.heap.dtail / B) .check) }
  | run (s : Appends T ω) (w : ω) (a : Nat) (junk : Nat → T) (h : Heap T) (x : Appender T)
      (ret : Option (Placed T)) (hw : (s.appenders w).next n B s.heap a junk = some (h, x, ret)) :
      Step n B s ⟨h, Function.update s.appenders w x, s.placed ++ ret.toList⟩

/-- The states of a run from a new log. -/
def Reached (n B : Nat) (s : Appends T ω) : Prop :=
  ∃ junk, Relation.ReflTransGen (Step n B) (init junk) s

end Appends

/-! ## What a step does -/

section

variable {T : Type}

theorem Heap.fetch_cases {h h' : Heap T} {a b : Nat} {junk : Nat → T} {f f' : Fetch}
    (hf : h.fetch a junk b f = some (h', f')) :
    (f = .check ∧ h' = h ∧ ((h.bucket b = none ∧ f' = .create) ∨
      (∃ p, h.bucket b = some p) ∧ f' = .reload)) ∨
    (f = .create ∧ a ∉ h.tree.live ∧ h' = h.alloc a junk ∧ f' = .exchange a) ∨
    (∃ block, f = .exchange block ∧ f' = .reload ∧ ((h.bucket b = none ∧ h' = h.fill b block) ∨
      (∃ p, h.bucket b = some p) ∧ h' = h.delete block)) := by
  cases f with
  | check =>
    obtain ⟨rfl, rfl⟩ := Prod.mk.inj (Option.some.inj hf)
    refine .inl ⟨rfl, rfl, ?_⟩
    cases hb : h.bucket b with
    | none => exact .inl ⟨rfl, rfl⟩
    | some p => exact .inr ⟨⟨p, rfl⟩, rfl⟩
  | create =>
    rw [fetch] at hf
    split at hf
    · next ha =>
      obtain ⟨rfl, rfl⟩ := Prod.mk.inj (Option.some.inj hf)
      exact .inr (.inl ⟨rfl, ha, rfl, rfl⟩)
    · cases hf
  | exchange block =>
    obtain ⟨rfl, rfl⟩ := Prod.mk.inj (Option.some.inj hf)
    refine .inr (.inr ⟨block, rfl, rfl, ?_⟩)
    cases hb : h.bucket b with
    | none => exact .inl ⟨rfl, rfl⟩
    | some p => exact .inr ⟨⟨p, rfl⟩, rfl⟩
  | reload => cases hf

/-- Up to the end of the test, a step of `ensure_alloc` is one on the pointer. -/
theorem Appender.next_ensuring {n B a offset b : Nat} {h : Heap T} {junk : Nat → T} {job : Job T}
    {f : Fetch} (hf : f ≠ .reload) : (Appender.ensuring job offset b f).next n B h a junk =
      if b < n then (h.fetch a junk b f).map fun p => (p.1, .ensuring job offset b p.2, none)
      else none := by
  cases f with
  | reload => exact absurd rfl hf
  | _ => rfl

theorem Appender.next_placing {n B a offset pos : Nat} {h : Heap T} {junk : Nat → T} {job : Job T}
    {r : List T} {todo : List (List T)} {f : Fetch} (hf : f ≠ .reload) :
    (Appender.placing job offset pos (r :: todo) f).next n B h a junk =
      if pos / B < n then
        (h.fetch a junk (pos / B) f).map fun p => (p.1, .placing job offset pos (r :: todo) p.2, none)
      else none := by
  cases f with
  | reload => exact absurd rfl hf
  | _ => rfl

theorem Appender.next_cases {n B a : Nat} {h h' : Heap T} {junk : Nat → T} {x x' : Appender T}
    {ret : Option (Placed T)} (hx : x.next n B h a junk = some (h', x', ret)) :
    (∃ job offset b f f', x = .ensuring job offset b f ∧ b < n ∧
      h.fetch a junk b f = some (h', f') ∧ x' = .ensuring job offset b f' ∧ ret = none) ∨
    (∃ job offset b, x = .ensuring job offset b .reload ∧ h' = h ∧ ret = none ∧
      ((b < (offset + job.bytes) / B ∧ x' = .ensuring job offset (b + 1) .check) ∨
        (offset + job.bytes) / B ≤ b ∧
          x' = .placing job offset offset job.records job.start)) ∨
    (∃ job offset pos f, x = .placing job offset pos [] f ∧ h' = h ∧ x' = .idle ∧ ret = none) ∨
    (∃ job offset pos r todo f f', x = .placing job offset pos (r :: todo) f ∧
      h.fetch a junk (pos / B) f = some (h', f') ∧ x' = .placing job offset pos (r :: todo) f' ∧
      ret = none) ∨
    (∃ job offset pos r todo block, x = .placing job offset pos (r :: todo) .reload ∧
      h.bucket (pos / B) = some block ∧ h' = h ∧ x' = .copying job offset pos r todo block 0 ∧
      ret = none) ∨
    (∃ job offset pos r todo block k, x = .copying job offset pos r todo block k ∧ r.length ≤ k ∧
      h' = h ∧ x' = .placing job offset (pos + r.length) todo job.start ∧ ret = some ⟨pos, r⟩) ∨
    (∃ job offset pos r todo block k val, x = .copying job offset pos r todo block k ∧
      r[k]? = some val ∧ block ∈ h.tree.live ∧ h' = h.store block (pos % B + k) val ∧
      x' = .copying job offset pos r todo block (k + 1) ∧ ret = none) := by
  cases x with
  | idle => cases hx
  | ensuring job offset b f =>
    by_cases hf : f = .reload
    · subst hf
      simp only [next, Option.some.injEq, Prod.mk.injEq] at hx
      obtain ⟨rfl, rfl, rfl⟩ := hx
      refine .inr (.inl ⟨job, offset, b, rfl, rfl, rfl, ?_⟩)
      by_cases hb : b < (offset + job.bytes) / B
      · exact .inl ⟨hb, if_pos hb⟩
      · exact .inr ⟨Nat.le_of_not_lt hb, if_neg hb⟩
    · rw [next_ensuring hf] at hx
      split at hx
      · next hb =>
        obtain ⟨⟨h1, f'⟩, hfetch, heq⟩ := Option.map_eq_some_iff.mp hx
        simp only [Prod.mk.injEq] at heq
        obtain ⟨rfl, rfl, rfl⟩ := heq
        exact .inl ⟨job, offset, b, f, f', rfl, hb, hfetch, rfl, rfl⟩
      · cases hx
  | placing job offset pos todo f =>
    cases todo with
    | nil =>
      simp only [next, Option.some.injEq, Prod.mk.injEq] at hx
      obtain ⟨rfl, rfl, rfl⟩ := hx
      exact .inr (.inr (.inl ⟨job, offset, pos, f, rfl, rfl, rfl, rfl⟩))
    | cons r todo =>
      by_cases hf : f = .reload
      · subst hf
        rw [next] at hx
        split at hx
        · obtain ⟨block, hblock, heq⟩ := Option.map_eq_some_iff.mp hx
          simp only [Prod.mk.injEq] at heq
          obtain ⟨rfl, rfl, rfl⟩ := heq
          exact .inr (.inr (.inr (.inr (.inl
            ⟨job, offset, pos, r, todo, block, rfl, hblock, rfl, rfl, rfl⟩))))
        · cases hx
      · rw [next_placing hf] at hx
        split at hx
        · obtain ⟨⟨h1, f'⟩, hfetch, heq⟩ := Option.map_eq_some_iff.mp hx
          simp only [Prod.mk.injEq] at heq
          obtain ⟨rfl, rfl, rfl⟩ := heq
          exact .inr (.inr (.inr (.inl
            ⟨job, offset, pos, r, todo, f, f', rfl, hfetch, rfl, rfl⟩)))
        · cases hx
  | copying job offset pos r todo block k =>
    rw [next] at hx
    split at hx
    · next hk =>
      simp only [Option.some.injEq, Prod.mk.injEq] at hx
      obtain ⟨rfl, rfl, rfl⟩ := hx
      exact .inr (.inr (.inr (.inr (.inr (.inl ⟨job, offset, pos, r, todo, block, k, rfl,
        List.getElem?_eq_none_iff.mp hk, rfl, rfl, rfl⟩)))))
    · next val hk =>
      split at hx
      · next hin =>
        simp only [Option.some.injEq, Prod.mk.injEq] at hx
        obtain ⟨rfl, rfl, rfl⟩ := hx
        exact .inr (.inr (.inr (.inr (.inr (.inr ⟨job, offset, pos, r, todo, block, k, val, rfl,
          hk, hin.1, rfl, rfl, rfl⟩)))))
      · cases hx

end

/-! ## Threads that take turns -/

namespace Appends

variable {T ω : Type}

/-- A thread requests its bytes, or goes on by one step, in which it is given the address if it
allocates. -/
inductive Turn (T ω : Type) where
  | request : ω → Job T → Turn T ω
  | goOn : ω → (a : Nat) → Turn T ω

variable [DecidableEq ω]

def turn (n B : Nat) (junk : Nat → T) (s : Appends T ω) : Turn T ω → Option (Appends T ω)
  | .request w job =>
    match s.appenders w with
    | .idle => some
      { s with
        heap := s.heap.fetchAdd job.bytes
        appenders := Function.update s.appenders w
          (.ensuring job s.heap.dtail (s.heap.dtail / B) .check) }
    | _ => none
  | .goOn w a => ((s.appenders w).next n B s.heap a junk).map fun p =>
    ⟨p.1, Function.update s.appenders w p.2.1, s.placed ++ p.2.2.toList⟩

theorem step_of_turn {n B : Nat} {junk : Nat → T} (s : Appends T ω) (t : Turn T ω)
    (s' : Appends T ω) (h : s.turn n B junk t = some s') : Step n B s s' := by
  cases t with
  | request w job =>
    rw [turn] at h
    split at h
    · next hw =>
      cases h
      exact .request s w job hw
    · cases h
  | goOn w a =>
    obtain ⟨p, hp, rfl⟩ := Option.map_eq_some_iff.mp h
    exact .run s w a junk p.1 p.2.1 p.2.2 hp

end Appends

end ConcurrentBlocks

end Netplay
