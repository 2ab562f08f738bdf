import Netplay.ConcurrentIndex

/-!
# The pointers of an index under concurrent additions

Whatever the threads do, the objects are a tree from the index on. A thread is at the object
that its key leads to, and what it is about to put into a cell has been seen by no other.
-/

namespace Netplay

/-- The cells on the way to a key. -/
def Tier.path : (ss : List Nat) → (key : Nat) → List Nat
  | [], _ => []
  | _ :: ss, key => Tier.cell ss key :: Tier.path ss (key % span ss)

/-- Keys on the same way are the same. -/
theorem Tier.path_injective {ss : List Nat} (h : Tier.Selectable ss) : ∀ {key key' : Nat},
    key < span ss → key' < span ss → Tier.path ss key = Tier.path ss key' → key = key' := by
  induction ss with
  | nil =>
    intro key key' hk hk' _
    simp only [span] at hk hk'
    omega
  | cons s ss ih =>
    intro key key' hk hk' hpath
    obtain ⟨hcell, hrest⟩ := List.cons.inj hpath
    exact Tier.key_eq_of_cell_eq h hk hk' hcell (ih h.tail (Tier.rest_lt hk) (Tier.rest_lt hk') hrest)

namespace ConcurrentIndex

open BucketedLog

/-! ## A step on a cell -/

/-- Nothing changes in the entries, and what the index leads to it still does. -/
structure Heap.Quiet (h h' : Heap) : Prop where
  paths : h.tree.Extends h'.tree root
  tail : ∀ p ∈ h'.tree.live, (p ∈ h.tree.live ∧ h'.tail p = h.tail p) ∨
    (p ∉ h.tree.live ∧ h'.tail p = 0)
  slots : ∀ p ∈ h.tree.live, h'.slots p = h.slots p

theorem Heap.Quiet.refl (h : Heap) : h.Quiet h :=
  ⟨LazyTree.Extends.refl _ _, fun _ hp => .inl ⟨hp, rfl⟩, fun _ _ => rfl⟩

theorem Heap.Quiet.alloc {h : Heap} (hs : h.tree.Sound root) {a : Nat} (ha : a ∉ h.tree.live) :
    h.Quiet (h.alloc a) where
  paths := hs.walk_alloc ha
  tail p hp := by
    by_cases hpa : p = a
    · subst hpa
      exact .inr ⟨ha, Function.update_self _ _ _⟩
    · exact .inl ⟨(Finset.mem_insert.mp hp).resolve_left hpa, Function.update_of_ne hpa _ _⟩
  slots p hp := by
    have hpa : p ≠ a := by
      rintro rfl
      exact ha hp
    exact Function.update_of_ne hpa _ _

theorem Heap.Quiet.fill {h : Heap} {p c : Nat} (hnull : h.tree.cells p c = none) (x : Nat) :
    h.Quiet (h.fill p c x) :=
  ⟨LazyTree.walk_fill hnull, fun _ hp => .inl ⟨hp, rfl⟩, fun _ _ => rfl⟩

theorem Heap.Quiet.delete (h : Heap) (kind : Kind) (a : Nat) : h.Quiet (h.delete kind a) where
  paths path _ hx := (LazyTree.walk_free _ _ _ path root).trans hx
  tail _ hp := .inl ⟨(LazyTree.mem_free_live.mp hp).1, rfl⟩
  slots _ _ := rfl

theorem Heap.Quiet.trans {h h' h'' : Heap} (hq : h.Quiet h') (hq' : h'.Quiet h'')
    (hlive : h.tree.live ⊆ h'.tree.live) : h.Quiet h'' where
  paths := hq.paths.trans hq'.paths
  tail p hp := by
    rcases hq'.tail p hp with ⟨hp', htail'⟩ | ⟨hp', hzero⟩
    · rcases hq.tail p hp' with ⟨hlive, htail⟩ | ⟨hlive, hzero⟩
      · exact .inl ⟨hlive, htail'.trans htail⟩
      · exact .inr ⟨hlive, htail'.trans hzero⟩
    · exact .inr ⟨fun hp => hp' (hlive hp), hzero⟩
  slots p hp := (hq'.slots p (hlive hp)).trans (hq.slots p hp)

/-- `new` makes an object that nothing points to. -/
theorem Heap.new_spec {h h' : Heap} {kind : Kind} {a b : Nat} (hs : h.tree.Sound root)
    (hnew : h.new kind a b = some h') : h.Quiet h' ∧ h'.tree.Sound root ∧ a ∉ h.tree.live ∧
      h'.tree.Loose root a ∧ ∀ x, h.tree.Loose root x → h'.tree.Loose root x := by
  rw [Heap.new] at hnew
  split at hnew
  · split at hnew
    · next hfresh =>
      cases hnew
      obtain ⟨ha, hb⟩ := hfresh
      have hne : b ≠ a := by
        rintro rfl
        exact hb (Finset.mem_insert_self _ _)
      have hs1 : (h.alloc a).tree.Sound root := hs.alloc
      have hs2 : ((h.alloc a).alloc b).tree.Sound root := hs1.alloc
      have hloose : ((h.alloc a).alloc b).tree.Loose root b := hs1.loose_alloc hb
      have hnull : ((h.alloc a).alloc b).tree.cells a 0 = none := by
        have hcells : ((h.alloc a).alloc b).tree.cells a = (h.alloc a).tree.cells a :=
          LazyTree.alloc_cells_other hne.symm
        rw [hcells]
        exact LazyTree.alloc_cells_self _ _ _
      refine ⟨?_, hs2.fill hloose, ha, ((hs.loose_alloc ha).alloc).fill hne.symm, fun x hx => ?_⟩
      · have hsub : h.tree.live ⊆ (h.alloc a).tree.live := Finset.subset_insert _ _
        have hsub' : (h.alloc a).tree.live ⊆ ((h.alloc a).alloc b).tree.live :=
          Finset.subset_insert _ _
        exact ((Quiet.alloc hs ha).trans (Quiet.alloc hs1 hb) hsub).trans (Quiet.fill hnull b)
          (hsub.trans hsub')
      · refine (hx.alloc.alloc).fill ?_
        rintro rfl
        exact hb (Finset.mem_insert_of_mem hx.live)
    · cases hnew
  · split at hnew
    · next ha =>
      cases hnew
      exact ⟨Quiet.alloc hs ha, hs.alloc, ha, hs.loose_alloc ha, fun x hx => hx.alloc⟩
    · cases hnew

/-- What a step on cell `c` of `node` leaves behind. -/
structure Heap.Fetched (h h' : Heap) (f f' : Fetch) (node c : Nat) : Prop where
  quiet : h.Quiet h'
  sound : h'.tree.Sound root
  item : ∀ a, f'.item = some a → h'.tree.Loose root a ∧ a ∉ h.tree.live
  loose : ∀ x, h.tree.Loose root x → f.item ≠ some x → h'.tree.Loose root x
  filled : f' = .reload → ∃ x, h'.tree.cells node c = some x

theorem Heap.fetch_spec {h h' : Heap} {kind : Kind} {a b node c : Nat} {f f' : Fetch}
    (hs : h.tree.Sound root) (hitem : ∀ a, f.item = some a → h.tree.Loose root a)
    (hf : h.fetch kind a b node c f = some (h', f')) : h.Fetched h' f f' node c := by
  rcases fetch_cases hf with ⟨rfl, -, rfl, hcell⟩ | ⟨rfl, hnew, rfl⟩ | ⟨item, rfl, -, rfl, hcell⟩
  · refine ⟨Quiet.refl h', hs, fun a ha => ?_, fun x hx _ => hx, fun hreload => ?_⟩
    · rcases hcell with ⟨-, rfl⟩ | ⟨-, rfl⟩ <;> cases ha
    · rcases hcell with ⟨-, rfl⟩ | ⟨hfull, -⟩
      · cases hreload
      · exact hfull
  · obtain ⟨hquiet, hs', ha, hloose, hothers⟩ := new_spec hs hnew
    refine ⟨hquiet, hs', fun x hx => ?_, fun x hx _ => hothers x hx, fun hreload => by cases hreload⟩
    cases hx
    exact ⟨hloose, ha⟩
  · have hloose := hitem item rfl
    rcases hcell with ⟨hnull, rfl⟩ | ⟨⟨x, hx⟩, rfl⟩
    · refine ⟨Quiet.fill hnull item, hs.fill hloose, fun a ha => (by cases ha), fun x hx hne => ?_,
        fun _ => ⟨item, LazyTree.fill_cells_self _ _ _ _⟩⟩
      exact hx.fill fun heq => hne (congrArg some heq.symm)
    · refine ⟨Quiet.delete h kind item, hs.free hloose, fun a ha => (by cases ha),
        fun x hx hne => ?_, fun _ => ⟨x, hx⟩⟩
      exact hx.free hloose fun heq => hne (congrArg some heq.symm)

/-! ## Where the threads are -/

/-- The object that a path leads to has the cell that the thread is after. -/
def Goal.At (sizes : List Nat) (key : Nat) (path : List Nat) : Goal → Prop
  | .level size below rest => path ++ Tier.path (size :: below) rest = Tier.path sizes key ∧
      rest < span (size :: below) ∧ Tier.Selectable (size :: below)
  | .bucket idx => path = Tier.path sizes key ∧ idx < listCapacity

/-- The thread is at the object that its key leads to. -/
def Adder.Placed (sizes : List Nat) (t : LazyTree Nat Nat) : Adder → Prop
  | .idle => True
  | .fetching call node goal f => call.key < span sizes ∧ ∃ path, goal.At sizes call.key path ∧
      t.walk root path = some node ∧
      (f = .reload → ∃ c x, goal.cell = some c ∧ t.walk root (path ++ [c]) = some x)
  | .pushing call list => call.key < span sizes ∧
      t.walk root (Tier.path sizes call.key) = some list
  | .storing call list idx bucket => call.key < span sizes ∧ idx < listCapacity ∧
      t.walk root (Tier.path sizes call.key) = some list ∧
      ∃ p, locate idx = some p ∧ t.walk root (Tier.path sizes call.key ++ [p.1]) = some bucket

theorem Adder.Placed.mono {sizes : List Nat} {t t' : LazyTree Nat Nat} {x : Adder}
    (h : x.Placed sizes t) (ht : t.Extends t' root) : x.Placed sizes t' := by
  cases x with
  | idle => trivial
  | fetching call node goal f =>
    obtain ⟨hkey, path, hat, hnode, hreload⟩ := h
    refine ⟨hkey, path, hat, ht _ _ hnode, fun hf => ?_⟩
    obtain ⟨c, x, hc, hx⟩ := hreload hf
    exact ⟨c, x, hc, ht _ _ hx⟩
  | pushing call list => exact ⟨h.1, ht _ _ h.2⟩
  | storing call list idx bucket =>
    obtain ⟨hkey, hidx, hlist, p, hp, hbucket⟩ := h
    exact ⟨hkey, hidx, ht _ _ hlist, p, hp, ht _ _ hbucket⟩

/-- The place of an entry is in one of the buckets. -/
theorem locate_capacity {idx : Nat} (h : idx < listCapacity) :
    ∃ p, locate idx = some p ∧ p.1 < listBuckets ∧ p.2 < bucketElems p.1 := by
  have hcap : listCapacity + 16 = 2 ^ 28 := by decide
  have hlands : Lands listBuckets idx := lands_low (by omega) (by rw [listBuckets]; omega)
  obtain ⟨b, off, hp, hb, hoff⟩ := hlands
  exact ⟨(b, off), hp, hb, hoff⟩

theorem Goal.At.cell {sizes path : List Nat} {key : Nat} {goal : Goal}
    (h : goal.At sizes key path) : ∃ c, goal.cell = some c := by
  cases goal with
  | level size below rest =>
    obtain ⟨-, hrest, hsel⟩ := h
    obtain ⟨hcell, hlt⟩ := Tier.cell_eq hsel hrest
    exact ⟨Tier.cell below rest, if_pos (by rw [hcell]; exact hlt)⟩
  | bucket idx =>
    obtain ⟨p, hp, hb, -⟩ := locate_capacity h.2
    refine ⟨p.1, ?_⟩
    rw [Goal.cell, hp, Option.bind_some, if_pos hb]

/-- Behind the second load, the thread is at the object below. -/
theorem placed_reached {sizes path : List Nat} {t : LazyTree Nat Nat} {call : Call}
    {node c x : Nat} {goal : Goal} (hkey : call.key < span sizes) (hat : goal.At sizes call.key path)
    (hnode : t.walk root path = some node) (hc : goal.cell = some c)
    (hx : t.cells node c = some x) : (goal.reached call node x).Placed sizes t := by
  rw [← LazyTree.walk_concat_eq_some hnode] at hx
  cases goal with
  | level size below rest =>
    obtain ⟨hpath, hrest, hsel⟩ := hat
    have hcell : Tier.cell below rest = c := by
      rw [Goal.cell] at hc
      split at hc
      · exact Option.some.inj hc
      · cases hc
    rw [Tier.path, hcell] at hpath
    cases below with
    | nil =>
      rw [Tier.path] at hpath
      rw [hpath] at hx
      exact ⟨hkey, hx⟩
    | cons size' below =>
      refine ⟨hkey, path ++ [c], ⟨?_, Tier.rest_lt hrest, hsel.tail⟩, hx, fun hf => by cases hf⟩
      rw [List.append_assoc]
      exact hpath
  | bucket idx =>
    obtain ⟨rfl, hidx⟩ := hat
    obtain ⟨p, hp, hb, -⟩ := locate_capacity hidx
    rw [Goal.cell, hp, Option.bind_some, if_pos hb, Option.some.injEq] at hc
    subst hc
    exact ⟨hkey, hidx, hnode, p, hp, hx⟩

/-- The object that only the thread knows. -/
def Adder.item : Adder → Option Nat
  | .fetching _ _ _ f => f.item
  | _ => none

namespace Adding

variable {ω : Type}

/-- The objects are a tree, the objects that only one thread knows are loose in it, and the
threads are where their keys lead to. -/
structure Pointers (sizes : List Nat) (s : Adding ω) : Prop where
  sound : s.heap.tree.Sound root
  loose : ∀ w a, (s.adders w).item = some a → s.heap.tree.Loose root a
  apart : ∀ w w' a, (s.adders w).item = some a → (s.adders w').item = some a → w = w'
  placed : ∀ w, (s.adders w).Placed sizes s.heap.tree

theorem pointers_init (sizes : List Nat) : Pointers sizes (init : Adding ω) where
  sound := by
    refine ⟨Finset.mem_singleton_self _, fun _ _ _ _ h => ?_, fun _ _ _ h => ?_,
      fun _ _ _ _ _ _ _ h => ?_⟩ <;> cases h
  loose _ _ h := by cases h
  apart _ _ _ h := by cases h
  placed _ := trivial

variable [DecidableEq ω] {size : Nat} {below : List Nat} {s s' : Adding ω}

/-- A step of a thread that leaves the pointers as they are, and gives it nothing new. -/
theorem Pointers.moved {sizes : List Nat} (h : Pointers sizes s) {heap : Heap} {w : ω} {x : Adder}
    {ds : List Added} {cs : List Call} (htree : heap.tree = s.heap.tree) (hitem : x.item = none)
    (hx : x.Placed sizes s.heap.tree) :
    Pointers sizes ⟨heap, Function.update s.adders w x, ds, cs⟩ := by
  have hitems : ∀ v a, (Function.update s.adders w x v).item = some a →
      (s.adders v).item = some a := by
    intro v a hv
    by_cases hvw : v = w
    · subst hvw
      rw [Function.update_self, hitem] at hv
      cases hv
    · rwa [Function.update_of_ne hvw] at hv
  refine ⟨htree ▸ h.sound, fun v a hv => htree ▸ h.loose v a (hitems v a hv),
    fun v v' a hv hv' => h.apart v v' a (hitems v a hv) (hitems v' a hv'), fun v => ?_⟩
  dsimp only
  rw [htree]
  by_cases hvw : v = w
  · subst hvw
    rwa [Function.update_self]
  · rw [Function.update_of_ne hvw]
    exact h.placed v

/-- A step of a thread on a cell. -/
theorem Pointers.fetched {sizes : List Nat} (h : Pointers sizes s) {heap : Heap} {w : ω}
    {call : Call} {node c : Nat} {goal : Goal} {f f' : Fetch} {ds : List Added} {cs : List Call}
    (hw : s.adders w = .fetching call node goal f) (hc : goal.cell = some c)
    (hf : s.heap.Fetched heap f f' node c) :
    Pointers sizes ⟨heap, Function.update s.adders w (.fetching call node goal f'), ds,
      cs⟩ := by
  have hitem : ∀ v a, v ≠ w → (s.adders v).item = some a → f.item ≠ some a := by
    intro v a hvw hv hfa
    exact hvw (h.apart v w a hv (by rw [hw]; exact hfa))
  refine ⟨hf.sound, fun v a hv => ?_, fun v v' a hv hv' => ?_, fun v => ?_⟩
  · dsimp only at hv ⊢
    by_cases hvw : v = w
    · subst hvw
      rw [Function.update_self] at hv
      exact (hf.item a hv).1
    · rw [Function.update_of_ne hvw] at hv
      exact hf.loose a (h.loose v a hv) (hitem v a hvw hv)
  · -- a new object was not allocated before, the others' objects were
    have hnew : ∀ v a, v ≠ w → (s.adders v).item = some a → f'.item ≠ some a :=
      fun v a _ hv hfa => (hf.item a hfa).2 (h.loose v a hv).live
    dsimp only at hv hv'
    by_cases hvw : v = w
    · by_cases hvw' : v' = w
      · rw [hvw, hvw']
      · subst hvw
        rw [Function.update_self] at hv
        rw [Function.update_of_ne hvw'] at hv'
        exact absurd hv (hnew v' a hvw' hv')
    · rw [Function.update_of_ne hvw] at hv
      by_cases hvw' : v' = w
      · subst hvw'
        rw [Function.update_self] at hv'
        exact absurd hv' (hnew v a hvw hv)
      · rw [Function.update_of_ne hvw'] at hv'
        exact h.apart v v' a hv hv'
  · dsimp only
    by_cases hvw : v = w
    · subst hvw
      rw [Function.update_self]
      have hplaced := h.placed v
      rw [hw] at hplaced
      obtain ⟨hkey, path, hat, hnode, -⟩ := hplaced
      refine ⟨hkey, path, hat, hf.quiet.paths _ _ hnode, fun hreload => ?_⟩
      obtain ⟨x, hx⟩ := hf.filled hreload
      exact ⟨c, x, hc, (LazyTree.walk_concat_eq_some (hf.quiet.paths _ _ hnode)).mpr hx⟩
    · rw [Function.update_of_ne hvw]
      exact (h.placed v).mono hf.quiet.paths

/-- A call starts at the index. -/
theorem placed_call {sizes : List Nat} {size : Nat} {below : List Nat} {call : Call}
    {t : LazyTree Nat Nat} (hsizes : sizes = size :: below) (hsel : Tier.Selectable sizes)
    (hkey : call.key < span sizes) :
    (Adder.fetching call root (.level size below call.key) .check).Placed sizes t := by
  subst hsizes
  exact ⟨hkey, [], ⟨rfl, hkey, hsel⟩, rfl, fun hf => by cases hf⟩

theorem item_reached (call : Call) (node x : Nat) (goal : Goal) :
    (goal.reached call node x).item = none := by
  cases goal with
  | level size below rest => cases below <;> rfl
  | bucket idx => rfl

omit [DecidableEq ω] in
theorem fetched_of_pointers {sizes : List Nat} (h : Pointers sizes s) {heap : Heap} {w : ω}
    {call : Call} {node c a b : Nat} {goal : Goal} {f f' : Fetch}
    (hw : s.adders w = .fetching call node goal f)
    (hf : s.heap.fetch goal.kind a b node c f = some (heap, f')) :
    s.heap.Fetched heap f f' node c :=
  Heap.fetch_spec h.sound (fun x hx => h.loose w x (by rw [hw]; exact hx)) hf

theorem pointers_step (hsel : Tier.Selectable (size :: below)) (h : Pointers (size :: below) s)
    (hs : Step size below s s') : Pointers (size :: below) s' := by
  cases hs with
  | call w call hw hkey => exact h.moved rfl rfl (placed_call rfl hsel hkey)
  | run w a b heap x ret hx =>
    have hplaced := h.placed w
    rcases Adder.next_cases hx with ⟨call, node, goal, f, f', c, hw, hc, hf, rfl, -⟩ |
      ⟨call, node, goal, c, y, hw, hc, hy, rfl, rfl, -⟩ |
      ⟨call, list, hw, hlive, hcap, rfl, rfl, -⟩ |
      ⟨call, list, idx, bucket, p, hw, hp, hlive, hoff, rfl, rfl, -⟩
    · exact h.fetched hw hc (fetched_of_pointers h hw hf)
    · rw [hw] at hplaced
      obtain ⟨hkey, path, hat, hnode, -⟩ := hplaced
      exact h.moved rfl (item_reached call node y goal) (placed_reached hkey hat hnode hc hy)
    · rw [hw] at hplaced
      exact h.moved rfl rfl ⟨hplaced.1, _, ⟨rfl, hcap⟩, hplaced.2, fun hf => by cases hf⟩
    · exact h.moved rfl rfl trivial

theorem pointers_reached (hsel : Tier.Selectable (size :: below)) (h : Reached size below s) :
    Pointers (size :: below) s := by
  induction h with
  | refl => exact pointers_init _
  | tail _ hs ih => exact pointers_step hsel ih hs

end Adding

end ConcurrentIndex

end Netplay
