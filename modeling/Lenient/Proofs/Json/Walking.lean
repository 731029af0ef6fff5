import Lenient.Json.Document
import Mathlib.Data.List.Nodup
import Mathlib.Data.List.Perm.Subperm

/-! Walks over a document, whatever its nodes point to. The depth to which a walk may go is no part of its
answer: the nodes on a path that ends are all different, so that a walk which ends within any depth ends
within the number of nodes. Hence a walk goes on to the next nodes and puts together what it finds there;
`walk_eq` says so for every document. -/

namespace Lenient.Json

section MapM

variable {α β : Type} {f g : α → Option β} {xs : List α} {ys : List β}

theorem mapM_eq_some_iff : xs.mapM f = some ys ↔ xs.map f = ys.map some := by
  induction xs generalizing ys with
  | nil => cases ys <;> simp
  | cons x xs ih =>
    rcases ys with _ | ⟨y, ys⟩
    · simp [Option.bind_eq_some_iff]
    · simp only [List.mapM_cons, List.map_cons, List.cons.injEq, Option.bind_eq_bind,
        Option.bind_eq_some_iff, ih, Option.pure_def, Option.some.injEq]
      exact ⟨fun ⟨_, hx, _, hxs, hy, hys⟩ => ⟨by rw [hx, hy], by rw [hxs, hys]⟩,
        fun ⟨hx, hxs⟩ => ⟨y, hx, ys, hxs, rfl, rfl⟩⟩

theorem exists_of_mapM_eq_some (h : xs.mapM f = some ys) {x : α} (hx : x ∈ xs) : ∃ y, f x = some y := by
  have hm : f x ∈ ys.map some := mapM_eq_some_iff.1 h ▸ List.mem_map_of_mem hx
  obtain ⟨y, -, hy⟩ := List.mem_map.1 hm
  exact ⟨y, hy.symm⟩

theorem exists_mapM_eq_some (h : ∀ x ∈ xs, ∃ y, f x = some y) : ∃ ys, xs.mapM f = some ys := by
  simp only [mapM_eq_some_iff]
  induction xs with
  | nil => exact ⟨[], rfl⟩
  | cons x xs ih =>
    obtain ⟨⟨y, hy⟩, hxs⟩ := List.forall_mem_cons.1 h
    obtain ⟨ys, hys⟩ := ih hxs
    exact ⟨y :: ys, by rw [List.map_cons, List.map_cons, hy, hys]⟩

theorem mapM_eq_some_of_imp (h : xs.mapM f = some ys) (hfg : ∀ x y, f x = some y → g x = some y) :
    xs.mapM g = some ys := by
  have hg : ∀ x ∈ xs, g x = f x := by
    intro x hx
    obtain ⟨y, hy⟩ := exists_of_mapM_eq_some h hx
    rw [hy, hfg x y hy]
  rw [mapM_eq_some_iff] at h ⊢
  rw [List.map_congr_left hg, h]

end MapM

namespace Document

variable {α : Type} {d : Document} {next : Node → List NodeId} {join : NodeId → Node → List (List α) → List α}
  {id : NodeId} {xs : List α}

theorem walkWithin_of_none (h : d.node? id = none) (k : Nat) :
    d.walkWithin next join (k + 1) id = some [] := by
  rw [walkWithin, h]

theorem walkWithin_of_node? {n : Node} (h : d.node? id = some n) (k : Nat) :
    d.walkWithin next join (k + 1) id = ((next n).mapM (d.walkWithin next join k)).map (join id n) := by
  rw [walkWithin, h]

theorem walkWithin_of_le {k m : Nat} (h : d.walkWithin next join k id = some xs) (hk : k ≤ m) :
    d.walkWithin next join m id = some xs := by
  induction k generalizing id xs m with
  | zero => cases h
  | succ k ih =>
    obtain ⟨m, rfl⟩ := Nat.exists_eq_add_one_of_ne_zero (Nat.ne_zero_of_lt hk)
    rcases hn : d.node? id with _ | n
    · rw [walkWithin_of_none hn] at h ⊢
      exact h
    · rw [walkWithin_of_node? hn, Option.map_eq_some_iff] at h ⊢
      obtain ⟨parts, hp, hj⟩ := h
      exact ⟨parts, mapM_eq_some_of_imp hp fun c ys hc => ih hc (Nat.le_of_succ_le_succ hk), hj⟩

/-- A walk that needs its whole depth goes through as many nodes, no two of them the same: each of them
needs one step less than the one before. -/
theorem exists_path {m : Nat} (h : ∃ xs, d.walkWithin next join (m + 1) id = some xs)
    (hm : d.walkWithin next join m id = none) :
    ∃ path : List NodeId, path.length = m ∧ path.Nodup ∧
      ∀ c ∈ path, c.toNat < d.size ∧ ∃ xs, d.walkWithin next join (m + 1) c = some xs := by
  induction m generalizing id with
  | zero => exact ⟨[], rfl, List.nodup_nil, nofun⟩
  | succ m ih =>
    rcases hn : d.node? id with _ | n
    · rw [walkWithin_of_none hn] at hm
      cases hm
    · obtain ⟨xs, hxs⟩ := h
      obtain ⟨parts, hp, -⟩ := Option.map_eq_some_iff.1 ((walkWithin_of_node? hn _).symm.trans hxs)
      -- some next node needs as much depth as is left
      have hdeep : ∃ c ∈ next n, d.walkWithin next join m c = none := by
        by_contra hall
        have hends : ∀ c ∈ next n, ∃ ys, d.walkWithin next join m c = some ys :=
          fun c hc => Option.ne_none_iff_exists'.1 fun he => hall ⟨c, hc, he⟩
        obtain ⟨ys, hys⟩ := exists_mapM_eq_some hends
        rw [walkWithin_of_node? hn, hys] at hm
        cases hm
      obtain ⟨c, hc, hcm⟩ := hdeep
      obtain ⟨path, hlen, hnodup, hpath⟩ := ih (exists_of_mapM_eq_some hp hc) hcm
      refine ⟨id :: path, congrArg (· + 1) hlen, List.nodup_cons.2 ⟨fun hid => ?_, hnodup⟩, ?_⟩
      · obtain ⟨ys, hys⟩ := (hpath id hid).2
        rw [hm] at hys
        cases hys
      · refine List.forall_mem_cons.2 ⟨⟨(Array.getElem?_eq_some_iff.1 hn).1, xs, hxs⟩, fun c hc => ?_⟩
        obtain ⟨hlt, ys, hys⟩ := hpath c hc
        exact ⟨hlt, ys, walkWithin_of_le hys (Nat.le_succ _)⟩

theorem length_le_of_nodup {path : List NodeId} (h : path.Nodup) (hlt : ∀ c ∈ path, c.toNat < d.size) :
    path.length ≤ d.size := by
  have hnodup : (path.map UInt32.toNat).Nodup := h.map fun _ _ => UInt32.toNat_inj.1
  have hsub : path.map UInt32.toNat ⊆ List.range d.size := by
    intro i hi
    obtain ⟨c, hc, rfl⟩ := List.mem_map.1 hi
    exact List.mem_range.2 (hlt c hc)
  simpa using (List.subperm_of_subset hnodup hsub).length_le

/-- A walk ends exactly if it ends within some depth. -/
theorem walk_eq_some_iff : d.walk next join id = some xs ↔ ∃ depth, d.walkWithin next join depth id = some xs := by
  refine ⟨fun h => ⟨_, h⟩, ?_⟩
  rintro ⟨depth, h⟩
  induction depth with
  | zero => cases h
  | succ m ih =>
    rcases hm : d.walkWithin next join m id with _ | ys
    · obtain ⟨path, hlen, hnodup, hpath⟩ := exists_path ⟨xs, h⟩ hm
      have hle := length_le_of_nodup hnodup fun c hc => (hpath c hc).1
      exact walkWithin_of_le h (by omega)
    · rw [walkWithin_of_le hm (Nat.le_succ m)] at h
      exact ih (hm.trans h)

/-- A walk puts together what it finds from the next nodes on. -/
theorem walk_eq (d : Document) (next : Node → List NodeId) (join : NodeId → Node → List (List α) → List α)
    (id : NodeId) :
    d.walk next join id =
      match d.node? id with
      | none => some []
      | some n => ((next n).mapM (d.walk next join)).map (join id n) := by
  rcases hn : d.node? id with _ | n
  · exact walkWithin_of_none hn _
  · ext xs
    change d.walk next join id = some xs ↔ ((next n).mapM (d.walk next join)).map (join id n) = some xs
    rw [Option.map_eq_some_iff]
    constructor
    · intro h
      rw [walk, walkWithin_of_node? hn, Option.map_eq_some_iff] at h
      obtain ⟨parts, hp, hj⟩ := h
      exact ⟨parts, mapM_eq_some_of_imp hp fun c ys hc => walk_eq_some_iff.2 ⟨_, hc⟩, hj⟩
    · rintro ⟨parts, hp, rfl⟩
      -- one more than the depth that is enough from the next nodes on
      refine walk_eq_some_iff.2 ⟨d.size + 2, ?_⟩
      rw [walkWithin_of_node? hn]
      exact congrArg (Option.map (join id n)) hp

theorem replay_of_node? {n : Node} {parts : List (List Event)} (h : d.node? id = some n)
    (hp : (n.kind.shown n.children).mapM d.replay = some parts) :
    d.replay id = some (n.kind.spell parts) := by
  rw [replay, walk_eq, h]
  exact congrArg (Option.map n.kind.spell) hp

theorem preorder_of_node? {n : Node} {below : List (List NodeId)} (h : d.node? id = some n)
    (hb : n.children.mapM d.preorder = some below) : d.preorder id = some (id :: below.flatten) := by
  rw [preorder, walk_eq, h]
  exact congrArg (Option.map fun below => id :: below.flatten) hb

end Document

end Lenient.Json
