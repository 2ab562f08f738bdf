import Mathlib.Data.Finset.Basic
import Mathlib.Data.Finset.Filter
import Mathlib.Logic.Function.Basic

/-!
# Trees that are filled lazily

Nodes with cells, which are empty or point to a node. A node is allocated while nothing points
to it; then it is put into an empty cell of another node or it is freed, with the nodes that
its cells point to. A cell once filled stays as it is, so a path from the root that leads to a
node does so from there on, and no two paths lead to the same node.
-/

namespace Netplay

/-- The nodes that are allocated and the cells of the nodes. -/
structure LazyTree (α κ : Type) where
  live : Finset α
  cells : α → κ → Option α

namespace LazyTree

variable {α κ : Type}

/-- The node at the end of a path. -/
def walk (t : LazyTree α κ) : α → List κ → Option α
  | p, [] => some p
  | p, c :: path => (t.cells p c).bind fun q => walk t q path

@[simp] theorem walk_nil (t : LazyTree α κ) (p : α) : t.walk p [] = some p := rfl

theorem walk_append (t : LazyTree α κ) (path path' : List κ) : ∀ p : α,
    t.walk p (path ++ path') = (t.walk p path).bind fun q => t.walk q path' := by
  induction path with
  | nil => exact fun _ => rfl
  | cons c path ih =>
    intro p
    rw [List.cons_append, walk, walk]
    cases t.cells p c with
    | none => rfl
    | some q => exact ih q

theorem walk_concat (t : LazyTree α κ) (p : α) (path : List κ) (c : κ) :
    t.walk p (path ++ [c]) = (t.walk p path).bind fun q => t.cells q c := by
  rw [walk_append]
  refine congrArg (Option.bind _) (funext fun q => ?_)
  rw [walk]
  cases t.cells q c <;> rfl

/-- A path that ends in a cell. -/
theorem walk_concat_eq_some {t : LazyTree α κ} {p q x : α} {path : List κ} {c : κ}
    (h : t.walk p path = some q) : t.walk p (path ++ [c]) = some x ↔ t.cells q c = some x := by
  rw [walk_concat, h, Option.bind_some]

/-- What the first tree leads to from the root, the second one does. -/
def Extends (t t' : LazyTree α κ) (root : α) : Prop :=
  ∀ path x, t.walk root path = some x → t'.walk root path = some x

theorem Extends.refl (t : LazyTree α κ) (root : α) : t.Extends t root := fun _ _ h => h

theorem Extends.trans {t t' t'' : LazyTree α κ} {root : α} (h : t.Extends t' root)
    (h' : t'.Extends t'' root) : t.Extends t'' root := fun path x hx => h' path x (h path x hx)

/-- Live nodes point to live nodes, nothing points to the root, and every other node has at
most one cell that points to it. -/
structure Sound (t : LazyTree α κ) (root : α) : Prop where
  root_live : root ∈ t.live
  child_live : ∀ p ∈ t.live, ∀ c x, t.cells p c = some x → x ∈ t.live
  root_top : ∀ p ∈ t.live, ∀ c, t.cells p c ≠ some root
  one_cell : ∀ p ∈ t.live, ∀ p' ∈ t.live, ∀ c c' x, t.cells p c = some x →
    t.cells p' c' = some x → p = p' ∧ c = c'

/-- The node is allocated, and nothing points to it. -/
structure Loose (t : LazyTree α κ) (root a : α) : Prop where
  live : a ∈ t.live
  ne_root : a ≠ root
  no_cell : ∀ p ∈ t.live, ∀ c, t.cells p c ≠ some a

section

variable {t : LazyTree α κ} {root : α}

theorem Sound.walk_live (h : t.Sound root) (path : List κ) : ∀ {p x : α}, p ∈ t.live →
    t.walk p path = some x → x ∈ t.live := by
  induction path with
  | nil =>
    intro p x hp hx
    cases hx
    exact hp
  | cons c path ih =>
    intro p x hp hx
    obtain ⟨q, hq, hx⟩ := Option.bind_eq_some_iff.mp hx
    exact ih (h.child_live p hp c q hq) hx

theorem Sound.path_live (h : t.Sound root) {path : List κ} {x : α}
    (hx : t.walk root path = some x) : x ∈ t.live := h.walk_live path h.root_live hx

/-- The last cell of a path that is not empty. -/
theorem Sound.last_cell (h : t.Sound root) {path : List κ} {c : κ} {x : α}
    (hx : t.walk root (path ++ [c]) = some x) :
    ∃ p, t.walk root path = some p ∧ p ∈ t.live ∧ t.cells p c = some x := by
  rw [walk_concat] at hx
  obtain ⟨p, hp, hc⟩ := Option.bind_eq_some_iff.mp hx
  exact ⟨p, hp, h.path_live hp, hc⟩

/-- No two paths lead to the same node. -/
theorem Sound.walk_injective (h : t.Sound root) (path : List κ) : ∀ {path' : List κ} {x : α},
    t.walk root path = some x → t.walk root path' = some x → path = path' := by
  induction path using List.reverseRecOn with
  | nil =>
    intro path' x hx hx'
    cases hx
    rcases List.eq_nil_or_concat' path' with rfl | ⟨path', c, rfl⟩
    · rfl
    · obtain ⟨p, -, hlive, hc⟩ := h.last_cell hx'
      exact absurd hc (h.root_top p hlive c)
  | append_singleton path c ih =>
    intro path' x hx hx'
    obtain ⟨p, hp, hlive, hc⟩ := h.last_cell hx
    rcases List.eq_nil_or_concat' path' with rfl | ⟨path', c', rfl⟩
    · cases hx'
      exact absurd hc (h.root_top p hlive c)
    · obtain ⟨p', hp', hlive', hc'⟩ := h.last_cell hx'
      obtain ⟨rfl, rfl⟩ := h.one_cell p hlive p' hlive' c c' x hc hc'
      rw [ih hp hp']

end

variable [DecidableEq α]

/-! ## Allocation -/

/-- A new node, with empty cells. -/
def alloc (t : LazyTree α κ) (a : α) : LazyTree α κ :=
  ⟨insert a t.live, Function.update t.cells a fun _ => none⟩

section

variable {t : LazyTree α κ} {root a : α}

@[simp] theorem alloc_live (t : LazyTree α κ) (a : α) : (t.alloc a).live = insert a t.live := rfl

@[simp] theorem alloc_cells_self (t : LazyTree α κ) (a : α) (c : κ) :
    (t.alloc a).cells a c = none := by
  have hnew : (t.alloc a).cells a = fun _ => none := Function.update_self _ _ _
  rw [hnew]

theorem alloc_cells_other {p : α} (hp : p ≠ a) : (t.alloc a).cells p = t.cells p :=
  Function.update_of_ne hp _ _

/-- What a live node points to after an allocation, it pointed to before. -/
theorem alloc_cells {p x : α} {c : κ} (hx : (t.alloc a).cells p c = some x)
    (hp : p ∈ (t.alloc a).live) : p ∈ t.live ∧ p ≠ a ∧ t.cells p c = some x := by
  by_cases hpa : p = a
  · subst hpa
    rw [alloc_cells_self] at hx
    cases hx
  · rw [alloc_cells_other hpa] at hx
    exact ⟨(Finset.mem_insert.mp hp).resolve_left hpa, hpa, hx⟩

theorem Sound.alloc (h : t.Sound root) : (t.alloc a).Sound root where
  root_live := Finset.mem_insert_of_mem h.root_live
  child_live p hp c x hx := by
    obtain ⟨hlive, -, hcell⟩ := alloc_cells hx hp
    exact Finset.mem_insert_of_mem (h.child_live p hlive c x hcell)
  root_top p hp c hx := by
    obtain ⟨hlive, -, hcell⟩ := alloc_cells hx hp
    exact h.root_top p hlive c hcell
  one_cell p hp p' hp' c c' x hx hx' := by
    obtain ⟨hlive, -, hcell⟩ := alloc_cells hx hp
    obtain ⟨hlive', -, hcell'⟩ := alloc_cells hx' hp'
    exact h.one_cell p hlive p' hlive' c c' x hcell hcell'

theorem Sound.loose_alloc (h : t.Sound root) (ha : a ∉ t.live) : (t.alloc a).Loose root a where
  live := Finset.mem_insert_self a t.live
  ne_root hroot := ha (hroot ▸ h.root_live)
  no_cell p hp c hx := by
    obtain ⟨hlive, -, hcell⟩ := alloc_cells hx hp
    exact ha (h.child_live p hlive c a hcell)

theorem Loose.alloc {b : α} (hb : t.Loose root b) : (t.alloc a).Loose root b where
  live := Finset.mem_insert_of_mem hb.live
  ne_root := hb.ne_root
  no_cell p hp c hx := by
    obtain ⟨hlive, -, hcell⟩ := alloc_cells hx hp
    exact hb.no_cell p hlive c hcell

theorem Sound.walk_alloc (h : t.Sound root) (ha : a ∉ t.live) : t.Extends (t.alloc a) root := by
  intro path
  induction path using List.reverseRecOn with
  | nil => exact fun x hx => hx
  | append_singleton path c ih =>
    intro x hx
    obtain ⟨p, hp, hlive, hc⟩ := h.last_cell hx
    have hpa : p ≠ a := fun hpa => ha (hpa ▸ hlive)
    rw [walk_concat_eq_some (ih p hp), alloc_cells_other hpa]
    exact hc

end

/-! ## Freeing -/

/-- The node is freed, and what its cells `cs` point to. -/
def free (t : LazyTree α κ) (a : α) (cs : List κ) : LazyTree α κ :=
  { t with live := t.live.filter fun x => x ≠ a ∧ ∀ c ∈ cs, t.cells a c ≠ some x }

section

variable {t : LazyTree α κ} {root a : α} {cs : List κ}

theorem mem_free_live {x : α} : x ∈ (t.free a cs).live ↔
    x ∈ t.live ∧ x ≠ a ∧ ∀ c ∈ cs, t.cells a c ≠ some x := Finset.mem_filter

theorem walk_free (t : LazyTree α κ) (a : α) (cs : List κ) (path : List κ) : ∀ p : α,
    (t.free a cs).walk p path = t.walk p path := by
  induction path with
  | nil => exact fun _ => rfl
  | cons c path ih =>
    intro p
    rw [walk, walk]
    exact congrArg (Option.bind _) (funext ih)

/-- A loose node can be freed: what its cells point to, nothing else points to. -/
theorem Sound.free (h : t.Sound root) (ha : t.Loose root a) : (t.free a cs).Sound root where
  root_live := mem_free_live.mpr ⟨h.root_live, ha.ne_root.symm, fun c _ => h.root_top a ha.live c⟩
  child_live p hp c x hx := by
    obtain ⟨hlive, hne, -⟩ := mem_free_live.mp hp
    refine mem_free_live.mpr ⟨h.child_live p hlive c x hx, ?_, fun c' _ hx' => ?_⟩
    · rintro rfl
      exact ha.no_cell p hlive c hx
    · exact hne (h.one_cell p hlive a ha.live c c' x hx hx').1
  root_top p hp := h.root_top p (mem_free_live.mp hp).1
  one_cell p hp p' hp' := h.one_cell p (mem_free_live.mp hp).1 p' (mem_free_live.mp hp').1

theorem Loose.free {b : α} (hb : t.Loose root b) (ha : t.Loose root a) (hne : b ≠ a) :
    (t.free a cs).Loose root b where
  live := mem_free_live.mpr ⟨hb.live, hne, fun c _ => hb.no_cell a ha.live c⟩
  ne_root := hb.ne_root
  no_cell p hp := hb.no_cell p (mem_free_live.mp hp).1

end

variable [DecidableEq κ]

/-! ## Filling a cell -/

/-- The cell points to the node `x`. -/
def fill (t : LazyTree α κ) (p : α) (c : κ) (x : α) : LazyTree α κ :=
  { t with cells := Function.update t.cells p (Function.update (t.cells p) c (some x)) }

section

variable {t : LazyTree α κ} {root p x : α} {c : κ}

@[simp] theorem fill_live (t : LazyTree α κ) (p : α) (c : κ) (x : α) :
    (t.fill p c x).live = t.live := rfl

theorem fill_cells_node (t : LazyTree α κ) (p : α) (c : κ) (x : α) :
    (t.fill p c x).cells p = Function.update (t.cells p) c (some x) := Function.update_self _ _ _

theorem fill_cells_other {q : α} (hq : q ≠ p) : (t.fill p c x).cells q = t.cells q :=
  Function.update_of_ne hq _ _

@[simp] theorem fill_cells_self (t : LazyTree α κ) (p : α) (c : κ) (x : α) :
    (t.fill p c x).cells p c = some x := by
  rw [fill_cells_node, Function.update_self]

/-- What a cell points to behind a filling: the new node, from the one cell, or what it did. -/
theorem fill_cells {q y : α} {d : κ} (hy : (t.fill p c x).cells q d = some y) :
    (q = p ∧ d = c ∧ y = x) ∨ t.cells q d = some y := by
  by_cases hq : q = p
  · subst hq
    by_cases hd : d = c
    · subst hd
      rw [fill_cells_self] at hy
      exact .inl ⟨rfl, rfl, (Option.some.inj hy).symm⟩
    · rw [fill_cells_node, Function.update_of_ne hd] at hy
      exact .inr hy
  · rw [fill_cells_other hq] at hy
    exact .inr hy

/-- A filled cell stays as it is. -/
theorem cells_fill {q y : α} {d : κ} (hnull : t.cells p c = none) (hy : t.cells q d = some y) :
    (t.fill p c x).cells q d = some y := by
  by_cases hq : q = p
  · subst hq
    by_cases hd : d = c
    · subst hd
      rw [hnull] at hy
      cases hy
    · rw [fill_cells_node, Function.update_of_ne hd, hy]
  · rw [fill_cells_other hq, hy]

theorem walk_fill (hnull : t.cells p c = none) : t.Extends (t.fill p c x) root := by
  intro path
  induction path using List.reverseRecOn with
  | nil => exact fun y hy => hy
  | append_singleton path d ih =>
    intro y hy
    rw [walk_concat] at hy
    obtain ⟨q, hq, hc⟩ := Option.bind_eq_some_iff.mp hy
    exact (walk_concat_eq_some (ih q hq)).mpr (cells_fill hnull hc)

/-- A loose node is put into an empty cell. -/
theorem Sound.fill (h : t.Sound root) (hx : t.Loose root x) : (t.fill p c x).Sound root where
  root_live := h.root_live
  child_live q hq d y hy := by
    rcases fill_cells hy with ⟨-, -, rfl⟩ | hy
    · exact hx.live
    · exact h.child_live q hq d y hy
  root_top q hq d hy := by
    rcases fill_cells hy with ⟨-, -, hroot⟩ | hy
    · exact hx.ne_root hroot.symm
    · exact h.root_top q hq d hy
  one_cell q hq q' hq' d d' y hy hy' := by
    rcases fill_cells hy with ⟨rfl, rfl, rfl⟩ | hold
    · rcases fill_cells hy' with ⟨rfl, rfl, -⟩ | hold'
      · exact ⟨rfl, rfl⟩
      · exact absurd hold' (hx.no_cell q' hq' d')
    · rcases fill_cells hy' with ⟨-, -, rfl⟩ | hold'
      · exact absurd hold (hx.no_cell q hq d)
      · exact h.one_cell q hq q' hq' d d' y hold hold'

theorem Loose.fill {b : α} (hb : t.Loose root b) (hne : b ≠ x) :
    (t.fill p c x).Loose root b where
  live := hb.live
  ne_root := hb.ne_root
  no_cell q hq d hy := by
    rcases fill_cells hy with ⟨-, -, rfl⟩ | hy
    · exact hne rfl
    · exact hb.no_cell q hq d hy

end

end LazyTree

end Netplay
