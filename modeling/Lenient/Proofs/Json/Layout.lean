import Lenient.Json.Document

/-! How a document lies in its numbers. A document grows at its end: a new node gets the next number and
becomes the last child of the innermost open node. So a node is numbered right before what is below it,
and what is below it lies together; `Laid` says so of the trees below a node. While a document grows, its
open nodes are a chain in which each has the next one as its last child; `Layered` says so, and what it
says passes through every event, in whatever order events come, as long as the numbers last. Once all open
nodes are taken as closed, the document is a forest laid out from number one on. -/

namespace Lenient.Json

/-- Trees in a row: the root of the first one with the trees below it, and the trees after it. -/
inductive Forest
  | nil
  | tree (kind : Kind) (below after : Forest)

namespace Forest

def size : Forest → Nat
  | nil => 0
  | tree _ below after => 1 + below.size + after.size

/-- The numbers of the roots if the nodes stand from `i` on, each before what is below it. -/
def roots : Forest → Nat → List NodeId
  | nil, _ => []
  | tree _ below after, i => .ofNat i :: after.roots (i + 1 + below.size)

protected def append : Forest → Forest → Forest
  | nil, g => g
  | tree kind below after, g => tree kind below (after.append g)

instance : Append Forest := ⟨Forest.append⟩

@[simp] theorem nil_append (g : Forest) : nil ++ g = g := rfl

@[simp] theorem tree_append (kind : Kind) (below after g : Forest) :
    tree kind below after ++ g = tree kind below (after ++ g) := rfl

@[simp] theorem append_nil (f : Forest) : f ++ nil = f := by
  induction f with
  | nil => rfl
  | tree kind below after _ ih => rw [tree_append, ih]

theorem append_assoc (f g h : Forest) : f ++ g ++ h = f ++ (g ++ h) := by
  induction f with
  | nil => rfl
  | tree kind below after _ ih => rw [tree_append, tree_append, tree_append, ih]

theorem size_append (f g : Forest) : (f ++ g).size = f.size + g.size := by
  induction f with
  | nil => simp [size]
  | tree kind below after _ ih =>
    rw [tree_append, size, size, ih]
    omega

theorem roots_append (f g : Forest) (i : Nat) : (f ++ g).roots i = f.roots i ++ g.roots (i + f.size) := by
  induction f generalizing i with
  | nil => rfl
  | tree kind below after _ ih =>
    have hi : i + 1 + below.size + after.size = i + (1 + below.size + after.size) := by omega
    rw [tree_append, roots, roots, ih, size, hi, List.cons_append]

end Forest

theorem NodeId.toNat_ofNat {i : Nat} (h : i < UInt32.size) : (UInt32.ofNat i).toNat = i :=
  UInt32.toNat_ofNat_of_lt' h

namespace Document

variable {d : Document} {p : NodeId} {i : Nat}

@[simp] theorem size_add (d : Document) (p : NodeId) (kind : Kind) : (d.add p kind).size = d.size + 1 := by
  simp [size, add]

theorem lt_size_of_nodes {n : Node} (h : d.nodes[i]? = some n) : i < d.size :=
  (Array.getElem?_eq_some_iff.1 h).1

theorem node?_ofNat (d : Document) (h : i < UInt32.size) : d.node? (.ofNat i) = d.nodes[i]? := by
  rw [node?, NodeId.toNat_ofNat h]

theorem nodes_add_size (d : Document) (p : NodeId) (kind : Kind) :
    (d.add p kind).nodes[d.size]? = some ⟨some p, [], kind⟩ := by
  unfold add
  rw [Array.getElem?_push, if_pos (by rw [Array.size_modify, size])]

theorem nodes_add_parent {n : Node} (h : d.nodes[p.toNat]? = some n) (kind : Kind) :
    (d.add p kind).nodes[p.toNat]? = some { n with children := n.children ++ [.ofNat d.size] } := by
  have hne : p.toNat ≠ d.nodes.size := Nat.ne_of_lt (lt_size_of_nodes h)
  unfold add
  rw [Array.getElem?_push, if_neg (by rwa [Array.size_modify]), Array.getElem?_modify, if_pos rfl, h]
  rfl

theorem nodes_add_of_ne {n : Node} (h : d.nodes[i]? = some n) (hne : i ≠ p.toNat) (kind : Kind) :
    (d.add p kind).nodes[i]? = some n := by
  have hi : i ≠ d.nodes.size := Nat.ne_of_lt (lt_size_of_nodes h)
  unfold add
  rw [Array.getElem?_push, if_neg (by rwa [Array.size_modify]), Array.getElem?_modify,
    if_neg hne.symm, h]

end Document

/-- The trees stand from `i` on and are children of `p`. -/
inductive Laid (d : Document) : NodeId → Nat → Forest → Prop
  | nil (p : NodeId) (i : Nat) : Laid d p i .nil
  | tree {p : NodeId} {i : Nat} {kind : Kind} {f g : Forest}
    (node : d.nodes[i]? = some ⟨some p, f.roots (i + 1), kind⟩) (below : Laid d (.ofNat i) (i + 1) f)
    (after : Laid d p (i + 1 + f.size) g) : Laid d p i (.tree kind f g)

theorem Laid.append {d : Document} {p : NodeId} {i : Nat} {f g : Forest} (hf : Laid d p i f)
    (hg : Laid d p (i + f.size) g) : Laid d p i (f ++ g) := by
  induction hf with
  | nil p i => exact hg
  | @tree p i kind f f' node below after _ ih =>
    refine .tree node below (ih ?_)
    rwa [Forest.size, ← Nat.add_assoc, ← Nat.add_assoc] at hg

theorem Laid.add {d : Document} {p q : NodeId} {i : Nat} {f : Forest} (h : Laid d q i f)
    (hp : p.toNat < i ∨ i + f.size ≤ p.toNat) (kind : Kind) : Laid (d.add p kind) q i f := by
  induction h with
  | nil q i => exact .nil q i
  | @tree q i kind f g node below after ihb iha =>
    simp only [Forest.size] at hp
    have hne : i ≠ p.toNat := by omega
    exact .tree (d.nodes_add_of_ne node hne _) (ihb (by omega)) (iha (by omega))

/-- An open node with the trees that are complete below it. -/
structure Layer where
  id : NodeId
  kind : Kind
  below : Forest

/-- The layers are open, innermost first, and what is complete in them stands up to `stop`. The
last child of each layer is the layer inside it; `inner` has the last children of the innermost one. -/
inductive Layered (d : Document) : List Layer → List NodeId → Nat → Prop
  | start : Layered d [] [0] 0
  | layer {id : NodeId} {kind : Kind} {below : Forest} {outer : List Layer} {inner : List NodeId} {stop : Nat}
    (outside : Layered d outer [id] id.toNat)
    (node : d.node? id = some ⟨outer.head?.map Layer.id, below.roots (id.toNat + 1) ++ inner, kind⟩)
    (laid : Laid d id (id.toNat + 1) below) (kind_root : outer = [] → kind = .document)
    (stop_eq : id.toNat + 1 + below.size = stop) : Layered d (⟨id, kind, below⟩ :: outer) inner stop

section Layered

variable {d : Document} {l m : Layer} {outer : List Layer} {inner : List NodeId} {stop : Nat}

theorem Layered.add_behind {layers : List Layer} {p : NodeId} (h : Layered d layers inner stop)
    (hp : stop ≤ p.toNat) (kind : Kind) : Layered (d.add p kind) layers inner stop := by
  induction h with
  | start => exact .start
  | @layer id k below outer inner stop outside node laid kind_root stop_eq ih =>
    have hne : id.toNat ≠ p.toNat := by omega
    exact .layer (ih (by omega)) (d.nodes_add_of_ne node hne kind) (laid.add (by omega) kind) kind_root
      stop_eq

theorem Layered.add (h : Layered d (l :: outer) inner stop) (kind : Kind) :
    Layered (d.add l.id kind) (l :: outer) (inner ++ [.ofNat d.size]) stop := by
  cases h with
  | @layer id k below _ _ _ outside node laid kind_root stop_eq =>
    have hnode := d.nodes_add_parent node kind
    rw [List.append_assoc] at hnode
    exact .layer (outside.add_behind (Nat.le_refl _) kind) hnode
      (laid.add (Or.inl (Nat.lt_succ_self _)) kind) kind_root stop_eq

/-- A closed layer is one more tree of the layer around it. -/
theorem Layered.close (h : Layered d (l :: m :: outer) [] stop) :
    Layered d ({ m with below := m.below ++ .tree l.kind l.below .nil } :: outer) [] stop := by
  cases h with
  | @layer id kind below _ _ _ outside node laid _ stop_eq =>
    cases outside with
    | @layer id' kind' below' _ _ _ outside' node' laid' kind_root' stop_eq' =>
      -- the closed layer comes right behind what is complete below the one around it
      have hid : UInt32.ofNat (id'.toNat + 1 + below'.size) = id := by
        rw [stop_eq', UInt32.ofNat_toNat]
      have htree : Laid d id' (id'.toNat + 1 + below'.size) (.tree kind below .nil) := by
        rw [List.append_nil] at node
        refine .tree ?_ ?_ (.nil _ _)
        · rw [stop_eq']
          exact node
        · rw [hid, stop_eq']
          exact laid
      refine .layer outside' ?_ (laid'.append htree) kind_root' ?_
      · rw [node', Forest.roots_append, List.append_nil, Forest.roots, hid, Forest.roots]
      · simp only [Forest.size_append, Forest.size]
        omega

end Layered

/-- The document is a root with the trees of `f` below it, and there are numbers for all nodes. -/
structure Planted (d : Document) (f : Forest) : Prop where
  root : d.node? 0 = some ⟨none, f.roots 1, .document⟩
  laid : Laid d 0 1 f
  size_eq : d.size = f.size + 1
  size_le : d.size ≤ UInt32.size

namespace Growth

structure Grown (g : Growth) (layers : List Layer) : Prop where
  layered : Layered g.document layers [] g.document.size
  path_eq : layers.map Layer.id = g.path ++ [0]

section Grown

variable {g : Growth} {l m : Layer} {outer : List Layer}

theorem grown_empty : ({} : Growth).Grown [⟨0, .document, .nil⟩] :=
  ⟨.layer .start rfl (.nil _ _) (fun _ => rfl) rfl, rfl⟩

theorem Grown.headD_path (h : g.Grown (l :: outer)) : g.path.headD 0 = l.id := by
  have hp := h.path_eq
  cases hg : g.path with
  | nil =>
    rw [hg] at hp
    exact (List.cons.inj hp).1.symm
  | cons x path =>
    rw [hg] at hp
    exact (List.cons.inj hp).1.symm

theorem Grown.enter (h : g.Grown (l :: outer)) (hs : g.document.size < UInt32.size) (kind : Kind) :
    (g.enter kind).Grown (⟨.ofNat g.document.size, kind, .nil⟩ :: l :: outer) := by
  have ho := h.layered.add kind
  have hd : (g.enter kind).document = g.document.add l.id kind := by
    rw [← h.headD_path]
    rfl
  have hid : (UInt32.ofNat g.document.size).toNat = g.document.size := NodeId.toNat_ofNat hs
  constructor
  · rw [hd]
    refine .layer ?_ ?_ (.nil _ _) nofun ?_
    · rw [hid]
      exact ho
    · rw [Document.node?_ofNat _ hs, Document.nodes_add_size]
      rfl
    · rw [Document.size_add, hid]
      rfl
  · exact congrArg (UInt32.ofNat g.document.size :: ·) h.path_eq

theorem Grown.leave (h : g.Grown (l :: m :: outer)) :
    g.leave.Grown ({ m with below := m.below ++ .tree l.kind l.below .nil } :: outer) := by
  refine ⟨h.layered.close, ?_⟩
  have hp := h.path_eq
  cases hg : g.path with
  | nil => simp [hg] at hp
  | cons x path =>
    rw [hg] at hp
    simpa [Growth.leave, hg] using (List.cons.inj hp).2

theorem Grown.leave_root (h : g.Grown [l]) : g.leave.Grown [l] := by
  have hp : g.path = [] := by
    have := congrArg List.length h.path_eq
    simpa using this
  have : g.leave = g := by
    unfold Growth.leave
    rw [hp, List.tail_nil, ← hp]
  rwa [this]

/-- A leaf is a node that is left as soon as it is entered. -/
theorem Grown.add (h : g.Grown (l :: outer)) (hs : g.document.size < UInt32.size) (kind : Kind) :
    (g.add kind).Grown ({ l with below := l.below ++ .tree kind .nil .nil } :: outer) :=
  (h.enter hs kind).leave

end Grown

@[simp] theorem size_enter (g : Growth) (kind : Kind) :
    (g.enter kind).document.size = g.document.size + 1 := Document.size_add _ _ _

@[simp] theorem size_grow (g : Growth) (kind : Kind) :
    (g.add kind).document.size = g.document.size + 1 := Document.size_add _ _ _

/-- Whatever the next event is, the open nodes are layers again. -/
theorem Grown.emit {g : Growth} {l : Layer} {outer : List Layer} (h : g.Grown (l :: outer)) (e : Event)
    (hs : (g.emit e).document.size ≤ UInt32.size) : ∃ m outer', (g.emit e).Grown (m :: outer') := by
  have hleave : ∃ m outer', g.leave.Grown (m :: outer') := by
    rcases outer with _ | ⟨m, outer⟩
    · exact ⟨_, _, h.leave_root⟩
    · exact ⟨_, _, h.leave⟩
  cases e with
  | beginObject => exact ⟨_, _, h.enter (by rwa [Growth.emit, size_enter] at hs) _⟩
  | beginArray => exact ⟨_, _, h.enter (by rwa [Growth.emit, size_enter] at hs) _⟩
  | beginProperty name => exact ⟨_, _, h.enter (by rwa [Growth.emit, size_enter] at hs) _⟩
  | endObject => exact hleave
  | endArray => exact hleave
  | endProperty name => exact hleave
  | value text => exact ⟨_, _, h.add (by rwa [Growth.emit, size_grow] at hs) _⟩
  | beginElement => exact ⟨_, _, h⟩
  | endElement => exact ⟨_, _, h⟩

theorem size_le_size_emit (g : Growth) (e : Event) : g.document.size ≤ (g.emit e).document.size := by
  cases e <;> simp [Growth.emit, Growth.leave]

theorem size_le_size_emitAll (g : Growth) (es : List Event) :
    g.document.size ≤ (es.foldl Growth.emit g).document.size := by
  induction es generalizing g with
  | nil => exact Nat.le_refl _
  | cons e es ih => exact Nat.le_trans (size_le_size_emit g e) (ih (g.emit e))

theorem Grown.emitAll {g : Growth} {l : Layer} {outer : List Layer} (h : g.Grown (l :: outer))
    (es : List Event) (hs : (es.foldl Growth.emit g).document.size ≤ UInt32.size) :
    ∃ m outer', (es.foldl Growth.emit g).Grown (m :: outer') := by
  induction es generalizing g l outer with
  | nil => exact ⟨l, outer, h⟩
  | cons e es ih =>
    -- a document only grows, so there were numbers for the nodes before as well
    obtain ⟨m, outer', h'⟩ := h.emit e (Nat.le_trans (size_le_size_emitAll _ es) hs)
    exact ih h' hs

/-- With only the root open, the document is what is complete below it. -/
theorem Grown.planted {g : Growth} {l : Layer} (h : g.Grown [l]) (hs : g.document.size ≤ UInt32.size) :
    Planted g.document l.below := by
  cases h.layered with
  | layer outside node laid kind_root stop_eq =>
    cases outside
    rw [List.append_nil, kind_root rfl] at node
    refine ⟨node, laid, ?_, hs⟩
    rw [← stop_eq, UInt32.toNat_zero, Nat.zero_add, Nat.add_comm]

/-- A document is complete wherever its events end. -/
theorem Grown.exists_planted {g : Growth} {l : Layer} {outer : List Layer} (h : g.Grown (l :: outer))
    (hs : g.document.size ≤ UInt32.size) : ∃ f, Planted g.document f := by
  induction outer generalizing g l with
  | nil => exact ⟨_, h.planted hs⟩
  | cons m outer ih =>
    -- the document of `g.leave` is that of `g`
    have hleft : ∃ f, Planted g.leave.document f := ih h.leave hs
    exact hleft

end Growth

/-- Events in any order make a document that is laid out, if there are numbers for its nodes. -/
theorem planted_ofEvents {es : List Event} (hs : (Document.ofEvents es).size ≤ UInt32.size) :
    ∃ f, Planted (Document.ofEvents es) f := by
  obtain ⟨l, outer, h⟩ := Growth.grown_empty.emitAll es hs
  exact h.exists_planted hs

end Lenient.Json
