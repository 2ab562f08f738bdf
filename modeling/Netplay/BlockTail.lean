import Mathlib.Data.List.Basic

/-!
# Blocks of a counter

Owners reserve blocks of positions by adding to a write counter and publish a
block by moving a read counter over it, which needs the read counter at the
start of the block. The blocks reserved and not yet published tile the interval
between the two counters, in whatever order the owners move.
-/

namespace Netplay

structure Block where
  start : Nat
  count : Nat
  deriving DecidableEq, Repr

namespace Block

def Holds (b : Block) (i : Nat) : Prop := b.start ≤ i ∧ i < b.start + b.count

def Apart (b b' : Block) : Prop := ∀ i, b.Holds i → ¬ b'.Holds i

theorem Apart.symm {b b' : Block} (h : Apart b b') : Apart b' b := fun i hi hi' => h i hi' hi

theorem apart_of_le {b b' : Block} (h : b.start + b.count ≤ b'.start) : Apart b b' := by
  rintro i ⟨-, h1⟩ ⟨h2, -⟩
  omega

/-- The block lies in the other one. -/
def Inside (b b' : Block) : Prop := b'.start ≤ b.start ∧ b.start + b.count ≤ b'.start + b'.count

theorem Inside.holds {b b' : Block} (h : b.Inside b') {i : Nat} (hi : b.Holds i) : b'.Holds i :=
  ⟨Nat.le_trans h.1 hi.1, Nat.lt_of_lt_of_le hi.2 h.2⟩

end Block

namespace BlockTail

variable {ω : Type}

/-- The owner's reserved block holds the position. -/
def Holds (pending : ω → Option Block) (w : ω) (i : Nat) : Prop :=
  ∃ b, pending w = some b ∧ b.Holds i

/-- The pending blocks partition the interval from `read` to `write`. -/
structure Tiles (read write : Nat) (pending : ω → Option Block) : Prop where
  le : read ≤ write
  holds : ∀ i, (∃ w, Holds pending w i) ↔ read ≤ i ∧ i < write
  unique : ∀ w w' i, Holds pending w i → Holds pending w' i → w = w'

/-- Blocks of different owners do not overlap. -/
theorem Tiles.apart {read write : Nat} {pending : ω → Option Block}
    (h : Tiles read write pending) {w w' : ω} {b b' : Block} (hne : w ≠ w')
    (hw : pending w = some b) (hw' : pending w' = some b') : b.Apart b' :=
  fun i hi hi' => hne (h.unique w w' i ⟨b, hw, hi⟩ ⟨b', hw', hi'⟩)

theorem not_holds_of_none {pending : ω → Option Block} {w : ω} (h : pending w = none) (i : Nat) :
    ¬ Holds pending w i := by
  rintro ⟨b, hb, -⟩
  simp [h] at hb

theorem Tiles.init : Tiles 0 0 (fun _ : ω => none) :=
  ⟨Nat.le_refl 0, fun i => by simp [Holds], fun _ _ _ h => absurd h (by simp [Holds])⟩

theorem Tiles.inside {read write : Nat} {pending : ω → Option Block} (h : Tiles read write pending)
    {w : ω} {i : Nat} (hw : Holds pending w i) : read ≤ i ∧ i < write :=
  (h.holds i).mp ⟨w, hw⟩

/-- A block of at least one position starts inside the interval and ends inside it. -/
theorem Tiles.block_inside {read write : Nat} {pending : ω → Option Block}
    (h : Tiles read write pending) {w : ω} {b : Block} (hw : pending w = some b)
    (hb : b.count ≠ 0) : read ≤ b.start ∧ b.start + b.count ≤ write := by
  have h1 := h.inside (i := b.start) ⟨b, hw, Nat.le_refl _, by omega⟩
  have h2 := h.inside (i := b.start + b.count - 1) ⟨b, hw, by omega, by omega⟩
  omega

/-- The tiling does not see which empty blocks there are. -/
theorem Tiles.congr {read write : Nat} {pending pending' : ω → Option Block}
    (h : Tiles read write pending) (heq : ∀ v i, Holds pending' v i ↔ Holds pending v i) :
    Tiles read write pending' := by
  refine ⟨h.le, fun i => ?_, fun v v' i hv hv' => ?_⟩
  · simp only [heq]
    exact h.holds i
  · exact h.unique v v' i ((heq v i).mp hv) ((heq v' i).mp hv')

/-- Nothing is left between the counters exactly if no block has a position. -/
theorem Tiles.read_eq_write_iff {read write : Nat} {pending : ω → Option Block}
    (h : Tiles read write pending) :
    read = write ↔ ∀ w b, pending w = some b → b.count = 0 := by
  constructor
  · rintro rfl w b hw
    by_contra hb
    have := h.block_inside hw hb
    omega
  · intro hempty
    by_contra hne
    obtain ⟨w, b, hw, hi⟩ := (h.holds read).mpr ⟨Nat.le_refl _, Nat.lt_of_le_of_ne h.le hne⟩
    have := hempty w b hw
    rw [Block.Holds, this] at hi
    omega

/-- The read counter has not passed the start of any pending block. -/
def Unpassed (read : Nat) (pending : ω → Option Block) : Prop :=
  ∀ w b, pending w = some b → read ≤ b.start

/-- Every pending block starts at or below the write counter and not in the
middle of another one. -/
structure Aligned (write : Nat) (pending : ω → Option Block) : Prop where
  le : ∀ w b, pending w = some b → b.start ≤ write
  boundary : ∀ w w' b b', pending w = some b → pending w' = some b' →
    ¬ (b'.start < b.start ∧ b.start < b'.start + b'.count)

theorem Aligned.init : Aligned 0 (fun _ : ω => none) :=
  ⟨fun _ _ h => by simp at h, fun _ _ _ _ h => by simp at h⟩

theorem Unpassed.init : Unpassed 0 (fun _ : ω => none) := fun _ _ h => by simp at h

variable [DecidableEq ω]

theorem holds_update (pending : ω → Option Block) (w v : ω) (x : Option Block) (i : Nat) :
    Holds (Function.update pending w x) v i ↔
      (v = w ∧ ∃ b, x = some b ∧ b.Holds i) ∨ (v ≠ w ∧ Holds pending v i) := by
  by_cases h : v = w
  · subst h
    simp [Holds]
  · simp [Holds, h]

/-- An owner without a block reserves the next `n` positions. -/
theorem Tiles.reserve {read write : Nat} {pending : ω → Option Block}
    (h : Tiles read write pending) {w : ω} (hw : pending w = none) (n : Nat) :
    Tiles read (write + n) (Function.update pending w (some ⟨write, n⟩)) := by
  have hold : ∀ v i, Holds (Function.update pending w (some ⟨write, n⟩)) v i ↔
      (v = w ∧ write ≤ i ∧ i < write + n) ∨ Holds pending v i := by
    intro v i
    rw [holds_update]
    by_cases hv : v = w
    · subst hv
      simp [not_holds_of_none hw, Block.Holds]
    · simp [hv]
  refine ⟨Nat.le_add_right_of_le h.le, fun i => ?_, fun v v' i hv hv' => ?_⟩
  · have hle := h.le
    have hi := h.holds i
    constructor
    · rintro ⟨v, hv⟩
      rcases (hold v i).mp hv with ⟨-, h1, h2⟩ | hv
      · omega
      · have := hi.mp ⟨v, hv⟩
        omega
    · intro hb
      by_cases hlt : i < write
      · obtain ⟨v, hv⟩ := hi.mpr ⟨hb.1, hlt⟩
        exact ⟨v, (hold v i).mpr (.inr hv)⟩
      · exact ⟨w, (hold w i).mpr (.inl ⟨rfl, by omega, hb.2⟩)⟩
  · rcases (hold v i).mp hv with ⟨rfl, h1, -⟩ | h1
    · rcases (hold v' i).mp hv' with ⟨rfl, -⟩ | h2
      · rfl
      · have := (h.inside h2).2
        omega
    · rcases (hold v' i).mp hv' with ⟨rfl, h2, -⟩ | h2
      · have := (h.inside h1).2
        omega
      · exact h.unique v v' i h1 h2

/-- The owner of the block at the read counter publishes it. -/
theorem Tiles.publish {read write n : Nat} {pending : ω → Option Block}
    (h : Tiles read write pending) {w : ω} (hw : pending w = some ⟨read, n⟩) :
    Tiles (read + n) write (Function.update pending w none) := by
  have hold : ∀ v i, Holds (Function.update pending w none) v i ↔ v ≠ w ∧ Holds pending v i := by
    intro v i
    rw [holds_update]
    simp
  have mine : ∀ i, Holds pending w i ↔ read ≤ i ∧ i < read + n := by
    intro i
    simp [Holds, hw, Block.Holds]
  refine ⟨?_, fun i => ?_, fun v v' i hv hv' => ?_⟩
  · by_cases hn : n = 0
    · have := h.le
      omega
    · exact (h.block_inside hw hn).2
  · constructor
    · rintro ⟨v, hv⟩
      obtain ⟨hne, hv⟩ := (hold v i).mp hv
      have hin := h.inside hv
      refine ⟨?_, hin.2⟩
      by_contra hlt
      exact hne (h.unique v w i hv ((mine i).mpr ⟨hin.1, by omega⟩))
    · rintro ⟨h1, h2⟩
      obtain ⟨v, hv⟩ := (h.holds i).mpr ⟨by omega, h2⟩
      refine ⟨v, (hold v i).mpr ⟨?_, hv⟩⟩
      rintro rfl
      have := (mine i).mp hv
      omega
  · exact h.unique v v' i ((hold v i).mp hv).2 ((hold v' i).mp hv').2

/-- An owner whose block is empty reserves the next `n` positions. -/
theorem Tiles.refill {read write : Nat} {pending : ω → Option Block}
    (h : Tiles read write pending) {w : ω} {b : Block} (hw : pending w = some b) (hb : b.count = 0)
    (n : Nat) : Tiles read (write + n) (Function.update pending w (some ⟨write, n⟩)) := by
  have hdrop : Tiles read write (Function.update pending w none) := by
    refine h.congr fun v i => ?_
    rw [holds_update]
    by_cases hv : v = w
    · subst hv
      simp [Holds, hw, Block.Holds, hb]
    · simp [hv]
  have := hdrop.reserve (w := w) (Function.update_self _ _ _) n
  rwa [Function.update_idem] at this

/-- The owner of the block at the read counter publishes the first `n` of its positions. -/
theorem Tiles.advance {read write n m : Nat} {pending : ω → Option Block}
    (h : Tiles read write pending) {w : ω} (hw : pending w = some ⟨read, n + m⟩) :
    Tiles (read + n) write (Function.update pending w (some ⟨read + n, m⟩)) := by
  have hold : ∀ v i, Holds (Function.update pending w (some ⟨read + n, m⟩)) v i ↔
      Holds pending v i ∧ read + n ≤ i := by
    intro v i
    rw [holds_update]
    by_cases hv : v = w
    · subst hv
      simp only [Holds, hw, Block.Holds, Option.some.injEq, exists_eq_left', true_and, ne_eq,
        not_true, false_and, or_false]
      omega
    · simp only [hv, false_and, false_or, ne_eq, not_false_eq_true, true_and, iff_self_and]
      intro hh
      by_contra hlt
      have hin := (h.inside hh).1
      exact hv (h.unique v w i hh ⟨_, hw, hin, by dsimp only; omega⟩)
  refine ⟨?_, fun i => ?_, fun v v' i hv hv' => ?_⟩
  · by_cases hn : n + m = 0
    · have := h.le
      omega
    · have := (h.block_inside hw hn).2
      dsimp only at this
      omega
  · simp only [hold, exists_and_right, h.holds i]
    omega
  · exact h.unique v v' i ((hold v i).mp hv).1 ((hold v' i).mp hv').1

/-! ## Blocks that the read counter passes by -/

theorem update_eq_some {pending : ω → Option Block} {w v : ω} {x : Option Block} {b : Block}
    (h : Function.update pending w x v = some b) : x = some b ∨ (v ≠ w ∧ pending v = some b) := by
  by_cases hv : v = w
  · subst hv
    simp only [Function.update_self] at h
    exact .inl h
  · rw [Function.update_of_ne hv] at h
    exact .inr ⟨hv, h⟩

theorem Aligned.reserve {read write : Nat} {pending : ω → Option Block} (h : Aligned write pending)
    (ht : Tiles read write pending) (w : ω) (n : Nat) :
    Aligned (write + n) (Function.update pending w (some ⟨write, n⟩)) := by
  refine ⟨fun v b hv => ?_, fun v v' b b' hv hv' => ?_⟩
  · rcases update_eq_some hv with hb | ⟨-, hb⟩
    · cases hb
      exact Nat.le_add_right _ _
    · exact Nat.le_add_right_of_le (h.le v b hb)
  · rcases update_eq_some hv with hb | ⟨-, hb⟩ <;> rcases update_eq_some hv' with hb' | ⟨-, hb'⟩
    · cases hb
      cases hb'
      omega
    · cases hb
      rintro ⟨h1, h2⟩
      dsimp only at h1 h2
      have := (ht.block_inside hb' (by omega)).2
      omega
    · cases hb'
      have := h.le v b hb
      dsimp only
      omega
    · exact h.boundary v v' b b' hb hb'

theorem Aligned.publish {write : Nat} {pending : ω → Option Block} (h : Aligned write pending)
    (w : ω) : Aligned write (Function.update pending w none) := by
  refine ⟨fun v b hv => ?_, fun v v' b b' hv hv' => ?_⟩
  · rcases update_eq_some hv with hb | ⟨-, hb⟩
    · cases hb
    · exact h.le v b hb
  · rcases update_eq_some hv with hb | ⟨-, hb⟩
    · cases hb
    · rcases update_eq_some hv' with hb' | ⟨-, hb'⟩
      · cases hb'
      · exact h.boundary v v' b b' hb hb'

theorem Unpassed.reserve {read write : Nat} {pending : ω → Option Block}
    (h : Unpassed read pending) (hle : read ≤ write) (w : ω) (n : Nat) :
    Unpassed read (Function.update pending w (some ⟨write, n⟩)) := by
  intro v b hv
  rcases update_eq_some hv with hb | ⟨-, hb⟩
  · cases hb
    exact hle
  · exact h v b hb

/-- Publishing a block passes another one by exactly if it is empty and starts
where the published one starts. -/
theorem Unpassed.publish_iff {read write n : Nat} {pending : ω → Option Block}
    (h : Unpassed read pending) (ha : Aligned write pending) (ht : Tiles read write pending)
    {w : ω} (hw : pending w = some ⟨read, n⟩) :
    Unpassed (read + n) (Function.update pending w none) ↔
      ¬ (n ≠ 0 ∧ ∃ v, v ≠ w ∧ pending v = some ⟨read, 0⟩) := by
  constructor
  · rintro hr ⟨hn, v, hne, hv⟩
    have := hr v ⟨read, 0⟩ (by rw [Function.update_of_ne hne]; exact hv)
    dsimp only at this
    omega
  · intro hno v b hv
    rcases update_eq_some hv with hb | ⟨hne, hb⟩
    · cases hb
    · have hle := h v b hb
      by_contra hlt
      have hbound := ha.boundary v w b ⟨read, n⟩ hb hw
      dsimp only at hbound
      have hstart : b.start = read := by omega
      by_cases hc : b.count = 0
      · refine hno ⟨by omega, v, hne, ?_⟩
        rw [hb, ← hstart, ← hc]
      · exact hne (ht.unique v w read ⟨b, hb, by omega, by omega⟩
          ⟨_, hw, Nat.le_refl _, by dsimp only; omega⟩)

/-! ## Blocks that are kept -/

/-- Blocks below `tail` that do not overlap: those that owners hold, and those
that were held and are kept. -/
structure Allocated (tail : Nat) (held : ω → Option Block) (kept : List Block) : Prop where
  bound : ∀ w b, held w = some b → b.start + b.count ≤ tail
  kept_bound : ∀ b ∈ kept, b.start + b.count ≤ tail
  apart : ∀ w w' b b', w ≠ w' → held w = some b → held w' = some b' → b.Apart b'
  kept_apart : ∀ w b, held w = some b → ∀ b' ∈ kept, b.Apart b'

omit [DecidableEq ω] in
theorem Allocated.init : Allocated 0 (fun _ : ω => none) [] :=
  ⟨fun _ _ h => by simp at h, fun _ h => by simp at h, fun _ _ _ _ _ h => by simp at h,
    fun _ _ h => by simp at h⟩

/-- An owner without a block takes the next `n` positions. -/
theorem Allocated.reserve {tail : Nat} {held : ω → Option Block} {kept : List Block}
    (h : Allocated tail held kept) (w : ω) (n : Nat) :
    Allocated (tail + n) (Function.update held w (some ⟨tail, n⟩)) kept := by
  refine ⟨fun v b hv => ?_, fun b hb => ?_, fun v v' b b' hne hv hv' => ?_, fun v b hv b' hb' => ?_⟩
  · rcases update_eq_some hv with hb | ⟨-, hb⟩
    · cases hb
      exact Nat.le_refl _
    · exact Nat.le_add_right_of_le (h.bound v b hb)
  · exact Nat.le_add_right_of_le (h.kept_bound b hb)
  · rcases update_eq_some hv with hb | ⟨hvw, hb⟩ <;> rcases update_eq_some hv' with hb' | ⟨-, hb'⟩
    · by_cases hvw : v = w
      · subst hvw
        rw [Function.update_of_ne (Ne.symm hne)] at hv'
        cases hb
        exact (Block.apart_of_le (h.bound v' b' hv')).symm
      · rw [Function.update_of_ne hvw] at hv
        cases hb'
        exact Block.apart_of_le (h.bound v b hv)
    · cases hb
      exact (Block.apart_of_le (h.bound v' b' hb')).symm
    · cases hb'
      exact Block.apart_of_le (h.bound v b hb)
    · exact h.apart v v' b b' hne hb hb'
  · rcases update_eq_some hv with hb | ⟨-, hb⟩
    · cases hb
      exact (Block.apart_of_le (h.kept_bound b' hb')).symm
    · exact h.kept_apart v b hb b' hb'

/-- An owner gives its block to those that are kept. -/
theorem Allocated.keep {tail : Nat} {held : ω → Option Block} {kept : List Block}
    (h : Allocated tail held kept) {w : ω} {b : Block} (hw : held w = some b) :
    Allocated tail (Function.update held w none) (kept ++ [b]) := by
  have other : ∀ v b', Function.update held w none v = some b' → v ≠ w ∧ held v = some b' := by
    intro v b' hv
    rcases update_eq_some hv with hb | hb
    · cases hb
    · exact hb
  refine ⟨fun v b' hv => h.bound v b' (other v b' hv).2, fun b' hb' => ?_,
    fun v v' b' b'' hne hv hv' => h.apart v v' b' b'' hne (other v b' hv).2 (other v' b'' hv').2,
    fun v b' hv b'' hb'' => ?_⟩
  · rcases List.mem_append.mp hb' with hb' | hb'
    · exact h.kept_bound b' hb'
    · obtain rfl := List.mem_singleton.mp hb'
      exact h.bound w b' hw
  · obtain ⟨hne, hv⟩ := other v b' hv
    rcases List.mem_append.mp hb'' with hb'' | hb''
    · exact h.kept_apart v b' hv b'' hb''
    · obtain rfl := List.mem_singleton.mp hb''
      exact h.apart v w b' b'' hne hv hw

/-- An owner gives a part of its block to those that are kept, and goes on with another part. -/
theorem Allocated.split {tail : Nat} {held : ω → Option Block} {kept : List Block}
    (h : Allocated tail held kept) {w : ω} {b b1 b2 : Block} (hw : held w = some b)
    (h1 : b1.Inside b) (h2 : b2.Inside b) (hapart : b1.Apart b2) :
    Allocated tail (Function.update held w (some b2)) (kept ++ [b1]) := by
  have hbound := h.bound w b hw
  have old : ∀ v c, Function.update held w (some b2) v = some c →
      ∃ c', held v = some c' ∧ c.Inside c' ∧ (v = w → c = b2) := by
    intro v c hv
    rcases update_eq_some hv with hc | ⟨hne, hc⟩
    · cases hc
      by_cases hvw : v = w
      · subst hvw
        exact ⟨b, hw, h2, fun _ => rfl⟩
      · rw [Function.update_of_ne hvw] at hv
        exact ⟨b2, hv, ⟨Nat.le_refl _, Nat.le_refl _⟩, fun _ => rfl⟩
    · exact ⟨c, hc, ⟨Nat.le_refl _, Nat.le_refl _⟩, fun hvw => absurd hvw hne⟩
  refine ⟨fun v c hv => ?_, fun c hc => ?_, fun v v' c c' hne hv hv' => ?_, fun v c hv c' hc' => ?_⟩
  · obtain ⟨c', hc', hin, -⟩ := old v c hv
    exact Nat.le_trans hin.2 (h.bound v c' hc')
  · rcases List.mem_append.mp hc with hc | hc
    · exact h.kept_bound c hc
    · obtain rfl := List.mem_singleton.mp hc
      exact Nat.le_trans h1.2 hbound
  · obtain ⟨d, hd, hin, -⟩ := old v c hv
    obtain ⟨d', hd', hin', -⟩ := old v' c' hv'
    exact fun i hi hi' => h.apart v v' d d' hne hd hd' i (hin.holds hi) (hin'.holds hi')
  · obtain ⟨d, hd, hin, hmine⟩ := old v c hv
    rcases List.mem_append.mp hc' with hc' | hc'
    · exact fun i hi hi' => h.kept_apart v d hd c' hc' i (hin.holds hi) hi'
    · obtain rfl := List.mem_singleton.mp hc'
      by_cases hvw : v = w
      · rw [hmine hvw]
        exact hapart.symm
      · exact fun i hi hi' => h.apart v w d b hvw hd hw i (hin.holds hi) (h1.holds hi')

/-- An owner gives its block up. -/
theorem Allocated.drop {tail : Nat} {held : ω → Option Block} {kept : List Block}
    (h : Allocated tail held kept) (w : ω) : Allocated tail (Function.update held w none) kept := by
  have other : ∀ v b, Function.update held w none v = some b → held v = some b := by
    intro v b hv
    rcases update_eq_some hv with hb | ⟨-, hb⟩
    · cases hb
    · exact hb
  exact ⟨fun v b hv => h.bound v b (other v b hv), h.kept_bound,
    fun v v' b b' hne hv hv' => h.apart v v' b b' hne (other v b hv) (other v' b' hv'),
    fun v b hv => h.kept_apart v b (other v b hv)⟩

end BlockTail

end Netplay
