import Lenient.Proofs.Json.Layout
import Lenient.Proofs.Json.Walking

/-! The numbers of a document's nodes are the order of a walk over it. Whatever events a document was
grown from, as long as the numbers last, the walk from the root that visits a node before its children
meets the numbers in order, each once; parents have smaller numbers than their children, so that a replay
ends; and going from a first child on to the next sibling, again and again, lists the children of a
node. -/

namespace Lenient.Json

namespace Forest

theorem le_of_mem_roots {f : Forest} {i : Nat} {c : NodeId} (h : c ∈ f.roots i)
    (hs : i + f.size ≤ UInt32.size) : i ≤ c.toNat := by
  induction f generalizing i with
  | nil => cases h
  | tree kind below after _ ih =>
    rw [size] at hs
    rcases List.mem_cons.1 h with rfl | h
    · exact Nat.le_of_eq (NodeId.toNat_ofNat (by omega)).symm
    · have := ih h (by omega)
      omega

theorem nodup_roots (f : Forest) {i : Nat} (hs : i + f.size ≤ UInt32.size) : (f.roots i).Nodup := by
  induction f generalizing i with
  | nil => exact List.nodup_nil
  | tree kind below after _ ih =>
    rw [size] at hs
    refine List.nodup_cons.2 ⟨fun h => ?_, ih (by omega)⟩
    have := le_of_mem_roots h (by omega)
    rw [NodeId.toNat_ofNat (by omega)] at this
    omega

end Forest

namespace Document

variable {d : Document}

theorem children_of_node? {id : NodeId} {n : Node} (h : d.node? id = some n) :
    d.children id = n.children := by
  rw [children, h]
  rfl

theorem parent?_of_node? {id : NodeId} {n : Node} (h : d.node? id = some n) :
    d.parent? id = n.parent := by
  rw [parent?, h]
  rfl

theorem exists_node_of_mem_children {p c : NodeId} (h : c ∈ d.children p) :
    ∃ n, d.node? p = some n ∧ c ∈ n.children := by
  cases hn : d.node? p with
  | none =>
    rw [children, hn] at h
    cases h
  | some n =>
    rw [children_of_node? hn] at h
    exact ⟨n, rfl, h⟩

theorem lt_size_of_parent? {p c : NodeId} (h : d.parent? c = some p) : c.toNat < d.size := by
  obtain ⟨n, hn, -⟩ := Option.bind_eq_some_iff.1 h
  exact lt_size_of_nodes hn

end Document

theorem Kind.mem_of_mem_shown {α : Type} {kind : Kind} {xs : List α} {x : α} (h : x ∈ kind.shown xs) :
    x ∈ xs := by
  cases kind with
  | property name => exact List.mem_of_mem_take h
  | value text => cases h
  | document => exact h
  | object => exact h
  | array => exact h

namespace Document

variable {d : Document}

theorem exists_replay_of_children {id : NodeId} (h : ∀ c ∈ d.children id, ∃ es, d.replay c = some es) :
    ∃ es, d.replay id = some es := by
  cases hn : d.node? id with
  | none => exact ⟨[], by rw [replay, walk_eq, hn]⟩
  | some n =>
    rw [children_of_node? hn] at h
    obtain ⟨parts, hp⟩ := exists_mapM_eq_some fun c hc => h c (Kind.mem_of_mem_shown hc)
    exact ⟨_, replay_of_node? hn hp⟩

theorem nextSibling?_of_children {p c : NodeId} {before after : List NodeId} (hp : d.parent? c = some p)
    (hc : d.children p = before ++ c :: after) (hn : c ∉ before) : d.nextSibling? c = after.head? := by
  have hi : (before ++ c :: after).idxOf? c = some before.length := by
    refine List.idxOf?_eq_some_iff.2 ⟨by simp, by simp, fun j hj => ?_⟩
    rw [List.getElem_append_left hj]
    rintro rfl
    exact hn (List.getElem_mem hj)
  have hs : (before ++ c :: after)[before.length + 1]? = after.head? := by
    rw [List.getElem?_append_right (Nat.le_add_right _ 1), Nat.add_sub_cancel_left,
      List.getElem?_cons_succ, List.head?_eq_getElem?]
  simp only [nextSibling?, hp, hc, hi, Option.bind_eq_bind, Option.bind_some, hs]

end Document

section Laid

variable {d : Document} {p : NodeId} {i : Nat} {f : Forest}

theorem Laid.preorder (h : Laid d p i f) (hs : i + f.size ≤ UInt32.size) :
    ∃ parts, (f.roots i).mapM d.preorder = some parts ∧
      parts.flatten = (List.range' i f.size).map UInt32.ofNat := by
  induction h with
  | nil p i => exact ⟨[], rfl, rfl⟩
  | @tree p i kind f g node below after ihb iha =>
    rw [Forest.size] at hs
    obtain ⟨bs, hb, hbe⟩ := ihb (by omega)
    obtain ⟨as, ha, hae⟩ := iha (by omega)
    have hi : d.preorder (.ofNat i) = some (.ofNat i :: bs.flatten) :=
      Document.preorder_of_node? ((d.node?_ofNat (by omega)).trans node) hb
    refine ⟨(.ofNat i :: bs.flatten) :: as, ?_, ?_⟩
    · rw [mapM_eq_some_iff] at ha ⊢
      rw [Forest.roots, List.map_cons, List.map_cons, hi, ha]
    · have hr : List.range' i (Forest.tree kind f g).size =
          i :: (List.range' (i + 1) f.size ++ List.range' (i + 1 + f.size) g.size) := by
        rw [Forest.size, List.range'_append_1, Nat.add_assoc 1, Nat.add_comm 1, List.range'_succ]
      rw [hr, List.flatten_cons, hbe, hae, List.map_cons, List.map_append, List.cons_append]

theorem Laid.parent?_of_mem_roots {c : NodeId} (h : Laid d p i f) (hs : i + f.size ≤ UInt32.size)
    (hc : c ∈ f.roots i) : d.parent? c = some p := by
  induction h with
  | nil p i => cases hc
  | @tree p i kind f g node below after _ ih =>
    rw [Forest.size] at hs
    rcases List.mem_cons.1 hc with rfl | hc
    · exact Document.parent?_of_node? ((d.node?_ofNat (by omega)).trans node)
    · exact ih (by omega) hc

/-- Every place that the trees have is that of a node with trees below it. Its parent is `p`, or a node
of the trees that comes before it. -/
theorem Laid.find {j : Nat} (h : Laid d p i f) (hs : i + f.size ≤ UInt32.size) (hi : i ≤ j)
    (hj : j < i + f.size) :
    ∃ q kind b, d.nodes[j]? = some ⟨some q, b.roots (j + 1), kind⟩ ∧ Laid d (.ofNat j) (j + 1) b ∧
      j + 1 + b.size ≤ i + f.size ∧
      (q = p ∧ .ofNat j ∈ f.roots i ∨ q.toNat < j ∧ .ofNat j ∈ d.children q) := by
  induction h with
  | nil p i => simp only [Forest.size] at hj; omega
  | @tree p i kind f g node below after ihb iha =>
    simp only [Forest.size] at hj hs ⊢
    by_cases he : j = i
    · subst he
      exact ⟨p, kind, f, node, below, by omega, Or.inl ⟨rfl, List.mem_cons_self⟩⟩
    · by_cases hb : j < i + 1 + f.size
      -- below the first root, which is then the parent or has the parent behind it
      · obtain ⟨q, k, b, hn, hl, hle, hq⟩ := ihb (by omega) (by omega) hb
        refine ⟨q, k, b, hn, hl, by omega, Or.inr ?_⟩
        rcases hq with ⟨rfl, hm⟩ | hq
        · have hnode : d.node? (.ofNat i) = _ := (d.node?_ofNat (by omega)).trans node
          rw [Document.children_of_node? hnode, NodeId.toNat_ofNat (by omega)]
          exact ⟨by omega, hm⟩
        · exact hq
      · obtain ⟨q, k, b, hn, hl, hle, hq⟩ := iha (by omega) (by omega) (by omega)
        exact ⟨q, k, b, hn, hl, by omega, hq.imp_left (And.imp_right (List.mem_cons_of_mem _))⟩

end Laid

section Planted

variable {d : Document} {f : Forest}

theorem Planted.le (h : Planted d f) : 1 + f.size ≤ UInt32.size := by
  have := h.size_le
  rw [h.size_eq] at this
  omega

theorem Planted.children_zero (h : Planted d f) : d.children 0 = f.roots 1 :=
  Document.children_of_node? h.root

theorem Planted.preorder_zero (h : Planted d f) :
    (d.preorder 0).map (List.map UInt32.toNat) = some (List.range d.size) := by
  obtain ⟨parts, hp, hpe⟩ := h.laid.preorder h.le
  have hr : List.range d.size = 0 :: List.range' 1 f.size := by
    rw [h.size_eq, List.range_eq_range', List.range'_succ]
  have hid : ∀ j ∈ List.range' 1 f.size, (UInt32.toNat ∘ UInt32.ofNat) j = j := by
    intro j hj
    have := (List.mem_range'_1.1 hj).2
    exact NodeId.toNat_ofNat (Nat.lt_of_lt_of_le this h.le)
  rw [Document.preorder_of_node? h.root hp, hpe, hr, Option.map_some, List.map_cons, List.map_map,
    List.map_congr_left hid, List.map_id', UInt32.toNat_zero]

theorem Planted.exists_below {id : NodeId} (h : Planted d f) (hid : id.toNat < d.size) :
    ∃ b, d.children id = b.roots (id.toNat + 1) ∧ Laid d id (id.toNat + 1) b ∧
      id.toNat + 1 + b.size ≤ UInt32.size := by
  by_cases h0 : id.toNat = 0
  · obtain rfl : id = 0 := UInt32.toNat_inj.1 h0
    exact ⟨f, h.children_zero, h.laid, h.le⟩
  · rw [h.size_eq] at hid
    obtain ⟨q, kind, b, hn, hl, hle, -⟩ := h.laid.find (j := id.toNat) h.le (by omega) (by omega)
    rw [UInt32.ofNat_toNat] at hl
    exact ⟨b, Document.children_of_node? hn, hl, Nat.le_trans hle h.le⟩

theorem Planted.nodup_children (h : Planted d f) (id : NodeId) : (d.children id).Nodup := by
  cases hn : d.node? id with
  | none =>
    rw [Document.children, hn]
    exact List.nodup_nil
  | some n =>
    obtain ⟨b, hb, -, hle⟩ := h.exists_below (Document.lt_size_of_nodes hn)
    rw [hb]
    exact b.nodup_roots hle

theorem Planted.of_mem_children {p c : NodeId} (h : Planted d f) (hc : c ∈ d.children p) :
    d.parent? c = some p ∧ p.toNat < c.toNat := by
  obtain ⟨n, hn, -⟩ := Document.exists_node_of_mem_children hc
  obtain ⟨b, hb, hl, hle⟩ := h.exists_below (Document.lt_size_of_nodes hn)
  rw [hb] at hc
  exact ⟨hl.parent?_of_mem_roots hle hc, Forest.le_of_mem_roots hc hle⟩

theorem Planted.exists_parent {id : NodeId} (h : Planted d f) (h0 : 0 < id) (hid : id.toNat < d.size) :
    ∃ p, p < id ∧ d.parent? id = some p ∧ (d.children p).count id = 1 := by
  have h0' : 0 < id.toNat := UInt32.lt_iff_toNat_lt.1 h0
  rw [h.size_eq] at hid
  obtain ⟨q, kind, b, hn, -, -, hq⟩ := h.laid.find (j := id.toNat) h.le h0' (by omega)
  rw [UInt32.ofNat_toNat] at hq
  have hm : q.toNat < id.toNat ∧ id ∈ d.children q := by
    rcases hq with ⟨rfl, hm⟩ | hq
    · rw [h.children_zero]
      exact ⟨h0', hm⟩
    · exact hq
  exact ⟨q, UInt32.lt_iff_toNat_lt.2 hm.1, Document.parent?_of_node? hn,
    List.count_eq_one_of_mem (h.nodup_children q) hm.2⟩

/-- Walks go from smaller to greater numbers, so none goes down forever. -/
theorem Planted.grounded (h : Planted d f) : WellFounded fun c p => c ∈ d.children p := by
  refine Subrelation.wf (fun {c p} hc => ?_) (measure fun id : NodeId => d.size - id.toNat).wf
  obtain ⟨hp, hlt⟩ := h.of_mem_children hc
  have := Document.lt_size_of_parent? hp
  exact Nat.sub_lt_sub_left (Nat.lt_trans hlt this) hlt

theorem Planted.exists_replay (h : Planted d f) (id : NodeId) : ∃ es, d.replay id = some es :=
  h.grounded.induction id fun _ ih => Document.exists_replay_of_children ih

end Planted

namespace Document

/-- From a node on, or from none, the next siblings are the listed ones, and then there is none. -/
inductive Siblings (d : Document) : Option NodeId → List NodeId → Prop
  | done : Siblings d none []
  | next {id : NodeId} {ids : List NodeId} (rest : Siblings d (d.nextSibling? id) ids) :
    Siblings d (some id) (id :: ids)

theorem siblings_of_children {d : Document} {p : NodeId} {before after : List NodeId}
    (hp : ∀ c ∈ d.children p, d.parent? c = some p) (hn : (d.children p).Nodup)
    (hc : d.children p = before ++ after) : Siblings d after.head? after := by
  induction after generalizing before with
  | nil => exact .done
  | cons c after ih =>
    have hb : c ∉ before := by
      rw [hc] at hn
      exact fun hm => (List.nodup_append.1 hn).2.2 c hm c List.mem_cons_self rfl
    have hs : d.nextSibling? c = after.head? :=
      nextSibling?_of_children (hp c (by simp [hc])) hc hb
    have hc' : d.children p = (before ++ [c]) ++ after := by simp [hc]
    refine .next ?_
    rw [hs]
    exact ih hc'

/-- The numbers of the nodes are the order of a walk over the tree that they make. -/
structure Numbered (d : Document) : Prop where
  /-- Visiting each node before its children meets every number once, in order. -/
  preorder_root : (d.preorder 0).map (List.map UInt32.toNat) = some (List.range d.size)
  root : d.kind? 0 = some .document ∧ d.parent? 0 = none
  /-- Every other node has a parent with a smaller number, and is its child once. -/
  parent : ∀ id, 0 < id → id.toNat < d.size →
    ∃ p, p < id ∧ d.parent? id = some p ∧ (d.children p).count id = 1
  /-- The first child and the next siblings of it are the children. -/
  siblings : ∀ id, Siblings d (d.firstChild? id) (d.children id)
  child_lt : ∀ p, ∀ c ∈ d.children p, c.toNat < d.size
  grounded : WellFounded fun c p => c ∈ d.children p
  /-- A replay ends, whatever node it starts from. -/
  replays : ∀ id, ∃ es, d.replay id = some es

/-- Whatever events a document was grown from, its numbers are the order of a walk over it, if there is
one for each node. -/
theorem ofEvents_numbered (es : List Event) (hs : (ofEvents es).size ≤ UInt32.size) :
    (ofEvents es).Numbered := by
  obtain ⟨f, h⟩ := planted_ofEvents hs
  constructor
  · exact h.preorder_zero
  · exact ⟨by rw [kind?, h.root]; rfl, parent?_of_node? h.root⟩
  · exact fun id h0 hid => h.exists_parent h0 hid
  · intro id
    exact siblings_of_children (fun c hc => (h.of_mem_children hc).1) (h.nodup_children id)
      (List.nil_append _).symm
  · intro p c hc
    exact lt_size_of_parent? (h.of_mem_children hc).1
  · exact h.grounded
  · exact h.exists_replay

/-- Ends that close nothing, values where no container is, and a property that is never closed. -/
theorem unbalanced_numbered :
    (ofEvents [.endArray, .beginObject, .value none, .endProperty [], .value none,
        .beginProperty ['a']]).size = 5 ∧
      (ofEvents [.endArray, .beginObject, .value none, .endProperty [], .value none,
        .beginProperty ['a']]).Numbered :=
  ⟨by decide, ofEvents_numbered _ (by decide)⟩

end Document

end Lenient.Json
