import Lenient.Proofs.Json.Numbering
import Lenient.Proofs.Json.RoundTrip

/-! Replaying a document gives back the events that it was grown from, if they spell a value. Growing is a
machine over events that forgets where elements begin and end; replaying is a recursion over numbers that
puts them in again. They meet in the forest of a value: its events add its tree to whatever node is open,
and a tree that is laid out replays as the events that it spells. The tree of a value has the trees of
the values in it, so every value inside is replayed from its own node. All this is about documents that
have a number for each node. -/

namespace Lenient.Json

namespace Value

def kind : Value → Kind
  | scalar text => .value text
  | object _ => .object
  | array _ => .array

mutual

def inside : Value → Forest
  | scalar _ => .nil
  | object properties => propertiesInside properties
  | array elements => elementsInside elements

def propertiesInside : List (Text × Value) → Forest
  | [] => .nil
  | (name, v) :: rest => .tree (.property name) (.tree v.kind (inside v) .nil) (propertiesInside rest)

def elementsInside : List Value → Forest
  | [] => .nil
  | v :: rest => .tree v.kind (inside v) (elementsInside rest)

end

def forest (v : Value) : Forest := .tree v.kind v.inside .nil

end Value

def Shape.kind : Shape → Kind
  | object => .object
  | array => .array

/-- An element has no node of its own. -/
def Entry.forest (e : Entry) : Forest :=
  match e.slot with
  | .property name => .tree (.property name) e.value.forest .nil
  | .element => e.value.forest

def entriesForest : List Entry → Forest
  | [] => .nil
  | e :: es => e.forest ++ entriesForest es

namespace Value

theorem propertiesInside_eq (ps : List (Text × Value)) :
    propertiesInside ps = entriesForest (ps.map Entry.property) := by
  induction ps with
  | nil => rfl
  | cons p ps ih =>
    obtain ⟨name, v⟩ := p
    rw [propertiesInside, ih]
    rfl

theorem elementsInside_eq (vs : List Value) : elementsInside vs = entriesForest (vs.map Entry.element) := by
  induction vs with
  | nil => rfl
  | cons v vs ih =>
    rw [elementsInside, ih]
    rfl

theorem forest_gather {shape : Shape} {es : List Entry} (h : Fits shape es) :
    (gather shape es).forest = .tree shape.kind (entriesForest es) .nil := by
  cases shape with
  | object =>
    obtain ⟨ps, rfl⟩ := fits_object_iff.1 h
    rw [gather_properties, ← propertiesInside_eq, forest, inside]
    rfl
  | array =>
    obtain ⟨vs, rfl⟩ := fits_array_iff.1 h
    rw [gather_elements, ← elementsInside_eq, forest, inside]
    rfl

end Value

namespace Growth

/-- Whatever is open, the events add the trees to the innermost open node and change no other, as long
as there are numbers for the new nodes. -/
structure Adds (es : List Event) (f : Forest) : Prop where
  size_eq : ∀ g : Growth, (es.foldl emit g).document.size = g.document.size + f.size
  grown : ∀ (g : Growth) (l : Layer) (outer : List Layer), g.Grown (l :: outer) →
    g.document.size + f.size ≤ UInt32.size →
    (es.foldl emit g).Grown ({ l with below := l.below ++ f } :: outer)

theorem adds_nil : Adds [] .nil where
  size_eq _ := rfl
  grown g l outer h _ := by
    rw [Forest.append_nil]
    exact h

theorem Adds.append {es es' : List Event} {f f' : Forest} (h : Adds es f) (h' : Adds es' f') :
    Adds (es ++ es') (f ++ f') where
  size_eq g := by
    rw [List.foldl_append, h'.size_eq, h.size_eq, Forest.size_append, Nat.add_assoc]
  grown g l outer hg hs := by
    rw [Forest.size_append] at hs
    rw [List.foldl_append, ← Forest.append_assoc]
    refine h'.grown _ _ _ (h.grown _ _ _ hg (by omega)) ?_
    rw [h.size_eq]
    omega

theorem adds_value (text : Option Text) : Adds [.value text] (.tree (.value text) .nil .nil) where
  size_eq g := size_grow g (.value text)
  grown _ _ _ h hs := h.add hs (.value text)

/-- What is added between opening and closing a node is added below the node. -/
theorem Adds.node {e e' : Event} {kind : Kind} {es : List Event} {f : Forest}
    (ho : ∀ g : Growth, g.emit e = g.enter kind) (hc : ∀ g : Growth, g.emit e' = g.leave)
    (h : Adds es f) : Adds (e :: es ++ [e']) (.tree kind f .nil) := by
  have hfold : ∀ g : Growth, (e :: es ++ [e']).foldl emit g = (es.foldl emit (g.enter kind)).leave := by
    intro g
    rw [List.cons_append, List.foldl_cons, List.foldl_append, ho, List.foldl_cons, hc, List.foldl_nil]
  constructor
  · intro g
    have hin := h.size_eq (g.enter kind)
    rw [size_enter] at hin
    rw [hfold, Forest.size, Forest.size]
    change (es.foldl emit (g.enter kind)).document.size = _
    omega
  · intro g l outer hg hs
    simp only [Forest.size] at hs
    rw [hfold]
    refine (h.grown _ _ _ (hg.enter (by omega) kind) ?_).leave
    rw [size_enter]
    omega

theorem Adds.element {es : List Event} {f : Forest} (h : Adds es f) :
    Adds (.beginElement :: es ++ [.endElement]) f := by
  have hfold : ∀ g : Growth, (Event.beginElement :: es ++ [Event.endElement]).foldl emit g = es.foldl emit g := by
    intro g
    rw [List.cons_append, List.foldl_cons, List.foldl_append]
    rfl
  constructor
  · intro g
    rw [hfold, h.size_eq]
  · intro g l outer hg hs
    rw [hfold]
    exact h.grown _ _ _ hg hs

theorem Adds.entry {e : Entry} (h : Adds e.value.events e.value.forest) : Adds e.events e.forest := by
  obtain ⟨slot, v⟩ := e
  cases slot with
  | property name => exact h.node (fun _ => rfl) (fun _ => rfl)
  | element => exact h.element

end Growth

theorem Growth.Adds.planted {es : List Event} {f : Forest} (h : Growth.Adds es f)
    (hs : (Document.ofEvents es).size ≤ UInt32.size) : Planted (Document.ofEvents es) f := by
  have he : (Document.ofEvents es).size = 1 + f.size := h.size_eq {}
  exact (h.grown _ _ _ Growth.grown_empty (he ▸ hs)).planted hs

/-! What laid out trees replay as. -/

/-- The events that spell each of the trees. -/
def Forest.parts : Forest → List (List Event)
  | nil => []
  | tree kind below after => kind.spell below.parts :: after.parts

theorem Forest.parts_append (f g : Forest) : (f ++ g).parts = f.parts ++ g.parts := by
  induction f with
  | nil => rfl
  | tree kind below after _ ih => rw [tree_append, parts, parts, ih, List.cons_append]

theorem Kind.map_shown {α β : Type} (g : α → β) (xs : List α) (kind : Kind) :
    (kind.shown xs).map g = kind.shown (xs.map g) := by
  cases kind with
  | property name => exact List.map_take
  | value text => rfl
  | document => rfl
  | object => rfl
  | array => rfl

/-- The events of a node are told by the children that it shows. -/
theorem Kind.spell_shown (parts : List (List Event)) (kind : Kind) :
    kind.spell (kind.shown parts) = kind.spell parts := by
  cases kind with
  | property name => cases parts <;> rfl
  | value text => rfl
  | document => rfl
  | object => rfl
  | array => rfl

theorem Document.replay_of_parts {d : Document} {id : NodeId} {n : Node} {parts : List (List Event)}
    (h : d.node? id = some n) (hp : n.children.map d.replay = parts.map some) :
    d.replay id = some (n.kind.spell parts) := by
  have hs : (n.kind.shown n.children).mapM d.replay = some (n.kind.shown parts) := by
    rw [mapM_eq_some_iff, Kind.map_shown, Kind.map_shown, hp]
  rw [replay_of_node? h hs, Kind.spell_shown]

theorem Laid.replay {d : Document} {p : NodeId} {i : Nat} {f : Forest} (h : Laid d p i f)
    (hs : i + f.size ≤ UInt32.size) : (f.roots i).map d.replay = f.parts.map some := by
  induction h with
  | nil p i => rfl
  | @tree p i kind f g node below after ihb iha =>
    rw [Forest.size] at hs
    have hnode : d.node? (.ofNat i) = _ := (d.node?_ofNat (by omega)).trans node
    rw [Forest.roots, List.map_cons, Document.replay_of_parts hnode (ihb (by omega)), iha (by omega),
      Forest.parts, List.map_cons]

theorem Planted.events {d : Document} {f : Forest} (h : Planted d f) :
    d.events = some f.parts.flatten :=
  Document.replay_of_parts h.root (h.laid.replay h.le)

/-- What an entry adds to the events of its container. -/
def Entry.part (e : Entry) : List Event :=
  match e.slot with
  | .property _ => e.events
  | .element => e.value.events

theorem parts_entriesForest {es : List Entry} (h : ∀ e ∈ es, e.value.forest.parts = [e.value.events]) :
    (entriesForest es).parts = es.map Entry.part := by
  induction es with
  | nil => rfl
  | cons e es ih =>
    obtain ⟨he, hes⟩ := List.forall_mem_cons.1 h
    have hpart : e.forest.parts = [e.part] := by
      obtain ⟨slot, v⟩ := e
      cases slot with
      | property name =>
        simp only [Entry.forest, Forest.parts, he]
        rfl
      | element => exact he
    rw [entriesForest, Forest.parts_append, hpart, ih hes, List.map_cons, List.singleton_append]

theorem spell_entries {shape : Shape} {es : List Entry} (h : Fits shape es) :
    shape.kind.spell (es.map Entry.part) =
      shape.opening :: es.flatMap Entry.events ++ [shape.closing] := by
  cases shape with
  | object =>
    obtain ⟨ps, rfl⟩ := fits_object_iff.1 h
    simp only [Shape.kind, Kind.spell, List.flatMap_def, List.map_map]
    rfl
  | array =>
    obtain ⟨vs, rfl⟩ := fits_array_iff.1 h
    simp only [Shape.kind, Kind.spell, List.flatMap_def, List.map_map]
    rfl

theorem parts_forest (v : Value) : v.forest.parts = [v.events] := by
  induction v using Value.gather_induction with
  | scalar text => rfl
  | gather shape es hf ih =>
    rw [Value.forest_gather hf, Forest.parts, parts_entriesForest ih, spell_entries hf,
      Value.events_gather hf]
    rfl

/-! The values inside a value, and their nodes. -/

def Value.slot? : Value → Nat → Option Value
  | scalar _, _ => none
  | object properties, i => properties[i]?.map Prod.snd
  | array elements, i => elements[i]?

/-- The value that a path of slot numbers leads to. -/
def Value.at? (v : Value) : List Nat → Option Value
  | [] => some v
  | i :: path => (v.slot? i).bind fun w => w.at? path

namespace Document

/-- The node of the value in the slot number `i` of a container: the value of a property, or an
element. -/
def slot? (d : Document) (id : NodeId) (i : Nat) : Option NodeId :=
  if d.kind? id = some .object then (d.children id)[i]?.bind d.firstChild? else d.element? id i

def descend? (d : Document) (id : NodeId) : List Nat → Option NodeId
  | [] => some id
  | i :: path => (d.slot? id i).bind fun c => d.descend? c path

def at? (d : Document) (path : List Nat) : Option NodeId :=
  (d.firstChild? 0).bind fun c => d.descend? c path

end Document

/-- The node `id` stands for the value: its tree is laid out from there. -/
def Stands (d : Document) (id : NodeId) (v : Value) : Prop :=
  ∃ p i, id = .ofNat i ∧ Laid d p i v.forest ∧ i + v.forest.size ≤ UInt32.size

section Stands

variable {d : Document} {id : NodeId} {v : Value}

theorem Stands.replay (h : Stands d id v) : d.replay id = some v.events := by
  obtain ⟨p, i, rfl, hl, hs⟩ := h
  have hr := hl.replay hs
  rw [parts_forest] at hr
  exact (List.cons.inj hr).1

theorem rel_elementsInside {vs : List Value} {p : NodeId} {i : Nat}
    (h : Laid d p i (Value.elementsInside vs)) (hs : i + (Value.elementsInside vs).size ≤ UInt32.size)
    (k : Nat) :
    Option.Rel (Stands d) ((Value.elementsInside vs).roots i)[k]? vs[k]? := by
  induction vs generalizing i k with
  | nil => exact .none
  | cons v vs ih =>
    rw [Value.elementsInside] at h hs ⊢
    rw [Forest.size] at hs
    cases h with
    | tree node below after =>
      rcases k with _ | k
      · refine .some ⟨p, i, rfl, .tree node below (.nil _ _), ?_⟩
        simp only [Value.forest, Forest.size]
        omega
      · exact ih after (by omega) k

theorem rel_propertiesInside {ps : List (Text × Value)} {p : NodeId} {i : Nat}
    (h : Laid d p i (Value.propertiesInside ps)) (hs : i + (Value.propertiesInside ps).size ≤ UInt32.size)
    (k : Nat) :
    Option.Rel (Stands d) (((Value.propertiesInside ps).roots i)[k]?.bind d.firstChild?)
      (ps[k]?.map Prod.snd) := by
  induction ps generalizing i k with
  | nil => exact .none
  | cons q ps ih =>
    obtain ⟨name, v⟩ := q
    rw [Value.propertiesInside] at h hs ⊢
    rw [Forest.size] at hs
    cases h with
    | tree node below after =>
      rcases k with _ | k
      · have hnode : d.node? (.ofNat i) = _ := (d.node?_ofNat (by omega)).trans node
        have hc : d.firstChild? (.ofNat i) = some (.ofNat (i + 1)) := by
          rw [Document.firstChild?, Document.children_of_node? hnode]
          rfl
        rw [Forest.roots, List.getElem?_cons_zero, Option.bind_some, hc]
        refine .some ⟨.ofNat i, i + 1, rfl, below, ?_⟩
        change i + 1 + (Forest.tree v.kind v.inside .nil).size ≤ UInt32.size
        omega
      · exact ih after (by omega) k

theorem Stands.slot? (h : Stands d id v) (k : Nat) : Option.Rel (Stands d) (d.slot? id k) (v.slot? k) := by
  obtain ⟨p, i, rfl, hl, hs⟩ := h
  simp only [Value.forest, Forest.size] at hs
  cases hl with
  | tree node below after =>
    have hnode : d.node? (.ofNat i) = _ := (d.node?_ofNat (by omega)).trans node
    have hk : d.kind? (.ofNat i) = some v.kind := by
      rw [Document.kind?, hnode]
      rfl
    have hc := Document.children_of_node? hnode
    unfold Document.slot? Document.element?
    rw [hk, hc]
    cases v with
    | scalar text => exact .none
    | object ps => exact rel_propertiesInside below (by rw [Value.inside] at hs; omega) k
    | array vs => exact rel_elementsInside below (by rw [Value.inside] at hs; omega) k

theorem Stands.descend? (h : Stands d id v) (path : List Nat) :
    Option.Rel (Stands d) (d.descend? id path) (v.at? path) := by
  induction path generalizing id v with
  | nil => exact .some h
  | cons k path ih =>
    have hs := h.slot? k
    rw [Document.descend?, Value.at?]
    cases hd : d.slot? id k with
    | none =>
      rw [hd] at hs
      cases hv : v.slot? k with
      | none => exact .none
      | some w => rw [hv] at hs; cases hs
    | some c =>
      rw [hd] at hs
      cases hv : v.slot? k with
      | none => rw [hv] at hs; cases hs
      | some w =>
        rw [hv] at hs
        cases hs with
        | some hw => exact ih hw

end Stands

namespace Document

section

variable {v : Value} (hv : (ofEvents v.events).size ≤ UInt32.size)
include hv

end

end Document

end Lenient.Json
