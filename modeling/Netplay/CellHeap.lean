import Mathlib.Data.Set.Insert

/-!
# A heap of cells and its footprints

Cells have addresses that are given out once, so that a cell that has been deleted is never mistaken
for a later one. A program ends with a value or a failure, and with the heap it leaves behind in
either case; a load, a store or a delete of a cell that is not there fails.

`Updates h h' F F'` is the frame of a program: it owns the cells `F` when it begins and the cells `F'`
when it ends, among them those it has allocated, and it leaves all other cells as they were.
-/

namespace Netplay

/-- Cells of type `ν`; from `next` on no address has been given out. -/
structure Heap (ν : Type) where
  cells : Nat → Option ν
  next : Nat
  fresh : ∀ a, next ≤ a → cells a = none

namespace Heap

variable {ν : Type}

def empty : Heap ν := ⟨fun _ => none, 0, fun _ _ => rfl⟩

theorem lt_next {h : Heap ν} {a : Nat} {v : ν} (ha : h.cells a = some v) : a < h.next := by
  by_contra hle
  rw [h.fresh a (Nat.le_of_not_lt hle)] at ha
  cases ha

/-- `new`. -/
def alloc (h : Heap ν) (v : ν) : Heap ν where
  cells := Function.update h.cells h.next (some v)
  next := h.next + 1
  fresh := fun a ha => by
    rw [Function.update_of_ne (by omega)]
    exact h.fresh a (by omega)

/-- The heap with other content of a cell that has been given out. -/
def set (h : Heap ν) (a : Nat) (v : Option ν) (ha : a < h.next) : Heap ν where
  cells := Function.update h.cells a v
  next := h.next
  fresh := fun b hb => by
    rw [Function.update_of_ne (by omega)]
    exact h.fresh b hb

@[simp] theorem alloc_self (h : Heap ν) (v : ν) : (h.alloc v).cells h.next = some v := by simp [alloc]

theorem alloc_other (h : Heap ν) (v : ν) {a : Nat} (ha : a ≠ h.next) :
    (h.alloc v).cells a = h.cells a := by simp [alloc, ha]

@[simp] theorem set_self (h : Heap ν) (a : Nat) (v : Option ν) (ha : a < h.next) :
    (h.set a v ha).cells a = v := by simp [set]

theorem set_other (h : Heap ν) {a b : Nat} (v : Option ν) (ha : a < h.next) (hb : b ≠ a) :
    (h.set a v ha).cells b = h.cells b := by simp [set, hb]

/-! ## Footprints -/

/-- From `h` to `h'`, the owner of `F` has come to own `F'` and has left the other cells alone. -/
structure Updates (h h' : Heap ν) (F F' : Set Nat) : Prop where
  next : h.next ≤ h'.next
  new : ∀ a ∈ F', a ∈ F ∨ h.next ≤ a
  live : ∀ a, a ∈ F ∨ h.next ≤ a → ((h'.cells a).isSome ↔ a ∈ F')
  frame : ∀ a, a ∉ F → a < h.next → h'.cells a = h.cells a

/-- All these cells are there. -/
def Live (h : Heap ν) (F : Set Nat) : Prop := ∀ a ∈ F, (h.cells a).isSome

theorem Live.lt {h : Heap ν} {F : Set Nat} (hl : h.Live F) {a : Nat} (ha : a ∈ F) : a < h.next := by
  obtain ⟨v, hv⟩ := Option.isSome_iff_exists.mp (hl a ha)
  exact lt_next hv

theorem Updates.live_end {h h' : Heap ν} {F F' : Set Nat} (hu : Updates h h' F F') : h'.Live F' :=
  fun a ha => (hu.live a (hu.new a ha)).mpr ha

theorem Updates.refl {h : Heap ν} {F : Set Nat} (hl : h.Live F) : Updates h h F F := by
  refine ⟨Nat.le_refl _, fun _ ha => .inl ha, fun a ha => ⟨fun hsome => ?_, hl a⟩,
    fun _ _ _ => rfl⟩
  rcases ha with ha | ha
  · exact ha
  · rw [h.fresh a ha] at hsome
    cases hsome

theorem Updates.alloc (h : Heap ν) (v : ν) : Updates h (h.alloc v) ∅ {h.next} := by
  refine ⟨Nat.le_succ _, fun a ha => .inr (Nat.le_of_eq (Set.mem_singleton_iff.mp ha).symm),
    fun a ha => ?_, fun a _ ha => alloc_other h v (by omega)⟩
  rw [Set.mem_singleton_iff]
  by_cases heq : a = h.next
  · subst heq
    simp
  · rw [alloc_other h v heq]
    rcases ha with ha | ha
    · exact ha.elim
    · rw [h.fresh a ha]
      simp [heq]

theorem Updates.write {h : Heap ν} {a : Nat} (ha : a < h.next) (v : ν) :
    Updates h (h.set a (some v) ha) {a} {a} := by
  refine ⟨Nat.le_refl _, fun b hb => .inl hb, fun b hb => ?_,
    fun b hb _ => set_other h _ ha fun heq => hb heq⟩
  rw [Set.mem_singleton_iff] at hb ⊢
  by_cases heq : b = a
  · subst heq
    simp
  · rw [set_other h _ ha heq, h.fresh b (hb.resolve_left heq)]
    simp [heq]

theorem Updates.delete {h : Heap ν} {a : Nat} (ha : a < h.next) :
    Updates h (h.set a none ha) {a} ∅ := by
  refine ⟨Nat.le_refl _, fun b hb => hb.elim, fun b hb => ?_,
    fun b hb _ => set_other h _ ha fun heq => hb heq⟩
  rw [Set.mem_singleton_iff] at hb
  by_cases heq : b = a
  · subst heq
    simp
  · rw [set_other h _ ha heq, h.fresh b (hb.resolve_left heq)]
    simp

/-- The frame rule: cells that the owner has besides those it works on. -/
theorem Updates.framed {h h' : Heap ν} {F F' R : Set Nat} (hu : Updates h h' F F') (hl : h.Live R)
    (hd : ∀ a ∈ R, a ∉ F) : Updates h h' (F ∪ R) (F' ∪ R) := by
  refine ⟨hu.next, fun a ha => ?_, fun a ha => ?_, fun a ha hlt => ?_⟩
  · rcases ha with ha | ha
    · exact (hu.new a ha).imp_left Or.inl
    · exact .inl (.inr ha)
  · by_cases hR : a ∈ R
    · rw [hu.frame a (hd a hR) (hl.lt hR)]
      exact iff_of_true (hl a hR) (.inr hR)
    · have hmem : a ∈ F ∨ h.next ≤ a := ha.imp_left fun hin => hin.resolve_right hR
      rw [hu.live a hmem]
      exact ⟨Or.inl, fun hin => hin.resolve_right hR⟩
  · exact hu.frame a (fun hin => ha (.inl hin)) hlt

/-- One program after another that works on cells the first one has left. -/
theorem Updates.trans {h h₁ h₂ : Heap ν} {F F₁ G G' : Set Nat} (hu : Updates h h₁ F F₁)
    (hu' : Updates h₁ h₂ G G') (hsub : ∀ a ∈ G, a ∈ F₁) :
    Updates h h₂ F {a | a ∈ G' ∨ a ∈ F₁ ∧ a ∉ G} := by
  have hold : ∀ a, a ∉ G → a < h₁.next → a ∉ G' := fun a ha hlt hin =>
    (hu'.new a hin).elim ha fun hle => Nat.not_lt.mpr hle hlt
  refine ⟨Nat.le_trans hu.next hu'.next, fun a ha => ?_, fun a ha => ?_, fun a ha hlt => ?_⟩
  · rcases ha with ha | ⟨ha, -⟩
    · rcases hu'.new a ha with ha | ha
      · exact hu.new a (hsub a ha)
      · exact .inr (Nat.le_trans hu.next ha)
    · exact hu.new a ha
  · by_cases hG : a ∈ G ∨ h₁.next ≤ a
    · rw [hu'.live a hG]
      refine ⟨Or.inl, fun hin => hin.resolve_right fun hF => ?_⟩
      rcases hG with hG | hG
      · exact hF.2 hG
      · exact Nat.not_lt.mpr hG (hu.live_end.lt hF.1)
    · rw [not_or, Nat.not_le] at hG
      rw [hu'.frame a hG.1 hG.2, hu.live a ha]
      exact ⟨fun hin => .inr ⟨hin, hG.1⟩,
        fun hin => (hin.resolve_left (hold a hG.1 hG.2)).1⟩
  · have hF₁ : a ∉ F₁ := fun hin => (hu.new a hin).elim ha fun hle => Nat.not_lt.mpr hle hlt
    rw [hu'.frame a (fun hin => hF₁ (hsub a hin)) (Nat.lt_of_lt_of_le hlt hu.next)]
    exact hu.frame a ha hlt

theorem Updates.congr {h h' : Heap ν} {F F₁ F₂ : Set Nat} (hu : Updates h h' F F₁)
    (heq : ∀ a, a ∈ F₁ ↔ a ∈ F₂) : Updates h h' F F₂ :=
  Set.ext heq ▸ hu

/-- What was owned apart from the footprint is still apart from it. -/
theorem Updates.apart {h h' : Heap ν} {F F' R : Set Nat} (hu : Updates h h' F F') (hl : h.Live R)
    (hd : ∀ a ∈ R, a ∉ F) : ∀ a ∈ R, a ∉ F' := fun a ha hin =>
  (hu.new a hin).elim (hd a ha) fun hle => Nat.not_lt.mpr hle (hl.lt ha)

/-- Cells apart from the footprint keep their content. -/
theorem Updates.same {h h' : Heap ν} {F F' : Set Nat} (hu : Updates h h' F F') {a : Nat} {v : ν}
    (ha : a ∉ F) (hv : h.cells a = some v) : h'.cells a = some v := by
  rw [hu.frame a ha (lt_next hv)]
  exact hv

/-- A program that owns nothing before and nothing after has left every cell as it was. -/
theorem Updates.restored {h h' : Heap ν} (hu : Updates h h' ∅ ∅) : h'.cells = h.cells := by
  funext a
  by_cases hlt : a < h.next
  · exact hu.frame a (fun hin => hin.elim) hlt
  · rw [h.fresh a (Nat.le_of_not_lt hlt)]
    cases hcell : h'.cells a with
    | none => rfl
    | some v =>
      have hmem := (hu.live a (.inr (Nat.le_of_not_lt hlt))).mp (by rw [hcell]; rfl)
      exact hmem.elim

end Heap

/-! ## Programs on the heap -/

/-- A program over cells `ν` that may fail with `ε`. -/
def HeapProgram (ν ε α : Type) : Type := Heap ν → Except ε α × Heap ν

namespace HeapProgram

variable {ν ε α β : Type}

/-- The next program from where the first one has ended. -/
def andThen (x : HeapProgram ν ε α) (f : α → HeapProgram ν ε β) : HeapProgram ν ε β := fun h =>
  match x h with
  | (.ok a, h') => f a h'
  | (.error e, h') => (.error e, h')

instance : Monad (HeapProgram ν ε) where
  pure a := fun h => (.ok a, h)
  bind := andThen

/-- A computation that does not see the heap. -/
def lift (r : Except ε α) : HeapProgram ν ε α := fun h => (r, h)

def throw (e : ε) : HeapProgram ν ε α := fun h => (.error e, h)

/-- `new`. -/
def new (v : ν) : HeapProgram ν ε Nat := fun h => (.ok h.next, h.alloc v)

/-- The content of a cell; `undef` if it is not there. -/
def load (undef : ε) (a : Nat) : HeapProgram ν ε ν := fun h =>
  match h.cells a with
  | some v => (.ok v, h)
  | none => (.error undef, h)

/-- The cell with new content, or without any: `delete`. -/
def put (undef : ε) (a : Nat) (v : Option ν) : HeapProgram ν ε Unit := fun h =>
  match hv : h.cells a with
  | some _ => (.ok (), h.set a v (Heap.lt_next hv))
  | none => (.error undef, h)

theorem bind_ok {x : HeapProgram ν ε α} {h h' : Heap ν} {a : α} (hx : x h = (.ok a, h'))
    (f : α → HeapProgram ν ε β) : (x >>= f) h = f a h' := by
  change andThen x f h = f a h'
  rw [andThen, hx]

theorem bind_error {x : HeapProgram ν ε α} {h h' : Heap ν} {e : ε} (hx : x h = (.error e, h'))
    (f : α → HeapProgram ν ε β) : (x >>= f) h = (.error e, h') := by
  change andThen x f h = (.error e, h')
  rw [andThen, hx]

theorem load_run (undef : ε) {a : Nat} {v : ν} {h : Heap ν} (ha : h.cells a = some v) :
    load undef a h = (.ok v, h) := by
  rw [load, ha]

theorem put_run (undef : ε) {a : Nat} {v : ν} {h : Heap ν} (ha : h.cells a = some v)
    (v' : Option ν) : put undef a v' h = (.ok (), h.set a v' (Heap.lt_next ha)) := by
  rw [put]
  split
  · rfl
  · next hnone => rw [hnone] at ha; cases ha

/-! ## Programs and what they compute -/

/-- From heap `h`, owning `F`, the program does what `r` says: it fails as `r` does, or it ends with
a value that stands for that of `r`; in either case it leaves the cells of others alone. -/
def Refines (m : HeapProgram ν ε β) (h : Heap ν) (F : Set Nat) (r : Except ε γ)
    (P : β → γ → Heap ν → Set Nat → Prop) : Prop :=
  match r with
  | .ok c => ∃ b h' F', m h = (.ok b, h') ∧ P b c h' F' ∧ Heap.Updates h h' F F'
  | .error e => ∃ h' F', m h = (.error e, h') ∧ Heap.Updates h h' F F'

variable {γ δ : Type} {m : HeapProgram ν ε β} {h h' : Heap ν} {F F' : Set Nat} {r : Except ε γ}
variable {P : β → γ → Heap ν → Set Nat → Prop}

theorem Refines.pure {b : β} {c : γ} (hl : h.Live F) (hP : P b c h F) :
    Refines (pure b : HeapProgram ν ε β) h F (.ok c) P := ⟨b, h, F, rfl, hP, .refl hl⟩

theorem Refines.throw (hl : h.Live F) (e : ε) :
    Refines (throw e : HeapProgram ν ε β) h F (.error e) P := ⟨h, F, rfl, .refl hl⟩

/-- What follows a program that owns all that there is to own. -/
theorem Refines.of_updates {h₁ : Heap ν} {F₁ : Set Nat} (hu : Heap.Updates h h₁ F F₁)
    (hm : Refines m h₁ F₁ r P) (m' : HeapProgram ν ε β) (heq : m' h = m h₁) : Refines m' h F r P := by
  have hjoin : ∀ {h₂ : Heap ν} {F₂ : Set Nat}, Heap.Updates h₁ h₂ F₁ F₂ → Heap.Updates h h₂ F F₂ :=
    fun hu' => (hu.trans hu' fun _ ha => ha).congr fun a => by
      simp only [Set.mem_ofPred_eq]
      exact ⟨fun hin => hin.resolve_right fun hno => hno.2 hno.1, Or.inl⟩
  cases r with
  | ok c =>
    obtain ⟨b, h₂, F₂, hrun, hP, hu'⟩ := hm
    exact ⟨b, h₂, F₂, heq.trans hrun, hP, hjoin hu'⟩
  | error e =>
    obtain ⟨h₂, F₂, hrun, hu'⟩ := hm
    exact ⟨h₂, F₂, heq.trans hrun, hjoin hu'⟩

/-- A step of which the other side knows nothing. -/
theorem Refines.step {x : HeapProgram ν ε α} {a : α} {h₁ : Heap ν} {F₁ : Set Nat}
    {f : α → HeapProgram ν ε β} (hx : x h = (.ok a, h₁)) (hu : Heap.Updates h h₁ F F₁)
    (hf : Refines (f a) h₁ F₁ r P) : Refines (x >>= f) h F r P :=
  .of_updates hu hf _ (bind_ok hx f)

/-- One program after another, on both sides. -/
theorem Refines.bind {f : β → HeapProgram ν ε α} {g : γ → Except ε δ}
    {Q : α → δ → Heap ν → Set Nat → Prop} (hm : Refines m h F r P)
    (hf : ∀ b c h₁ F₁, P b c h₁ F₁ → Heap.Updates h h₁ F F₁ → Refines (f b) h₁ F₁ (g c) Q) :
    Refines (m >>= f) h F (r >>= g) Q := by
  cases r with
  | ok c =>
    obtain ⟨b, h₁, F₁, hrun, hP, hu⟩ := hm
    exact .step hrun hu (hf b c h₁ F₁ hP hu)
  | error e =>
    obtain ⟨h₁, F₁, hrun, hu⟩ := hm
    exact ⟨h₁, F₁, bind_error hrun f, hu⟩

/-- The other side goes on with a function of its value. -/
theorem Refines.map (k : γ → δ) {Q : β → δ → Heap ν → Set Nat → Prop} (hm : Refines m h F r P)
    (hQ : ∀ b c h₁ F₁, P b c h₁ F₁ → Q b (k c) h₁ F₁) :
    Refines m h F (r >>= fun c => Except.ok (k c)) Q := by
  cases r with
  | ok c =>
    obtain ⟨b, h₁, F₁, hrun, hP, hu⟩ := hm
    exact ⟨b, h₁, F₁, hrun, hQ b c h₁ F₁ hP, hu⟩
  | error e => exact hm

/-- The value of the other side is the one that it ends with. -/
theorem Refines.known (hm : Refines m h F r P) :
    Refines m h F r fun b c h' X => P b c h' X ∧ r = .ok c := by
  cases r with
  | ok c =>
    obtain ⟨b, h₁, F₁, hrun, hP, hu⟩ := hm
    exact ⟨b, h₁, F₁, hrun, ⟨hP, rfl⟩, hu⟩
  | error e => exact hm

/-- The frame rule: what the owner has besides is kept and stays apart. -/
theorem Refines.framed {R : Set Nat} (hm : Refines m h F r P) (hl : h.Live R)
    (hd : ∀ a ∈ R, a ∉ F) : Refines m h (F ∪ R) r fun b c h' X =>
      ∃ F', X = F' ∪ R ∧ P b c h' F' ∧ (∀ a ∈ R, a ∉ F') ∧ ∀ a ∈ R, h'.cells a = h.cells a := by
  cases r with
  | ok c =>
    obtain ⟨b, h₁, F₁, hrun, hP, hu⟩ := hm
    exact ⟨b, h₁, F₁ ∪ R, hrun, ⟨F₁, rfl, hP, hu.apart hl hd,
      fun a ha => hu.frame a (hd a ha) (hl.lt ha)⟩, hu.framed hl hd⟩
  | error e =>
    obtain ⟨h₁, F₁, hrun, hu⟩ := hm
    exact ⟨h₁, F₁ ∪ R, hrun, hu.framed hl hd⟩

/-- A computation that does not see the heap does the same on both sides. -/
theorem Refines.lift (hl : h.Live F) (r : Except ε γ) :
    Refines (lift r : HeapProgram ν ε γ) h F r fun b c h' X => b = c ∧ h' = h ∧ X = F := by
  cases r with
  | ok c => exact ⟨c, h, F, rfl, ⟨rfl, rfl, rfl⟩, .refl hl⟩
  | error e => exact ⟨h, F, rfl, .refl hl⟩

end HeapProgram

end Netplay
