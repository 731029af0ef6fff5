import Lenient.Proofs.Json.Replay

/-! What grows from the replay of a document. Events in any order may leave a property without a value or
give it several, and may put properties and values anywhere. Replaying takes one value for each property and
keeps everything else where it is: `Forest.tidy` does so with trees. The events that trees replay as make the
tidy trees grow, and the tidy trees replay as the same events, so that a second replay changes nothing. As
a null stands in for a value that is missing, the tidy trees may have more nodes than there were, but not
more than twice as many. -/

namespace Lenient.Json

/-- The first of the trees. If there is none, a null stands in. -/
def Forest.first : Forest → Forest
  | nil => tree (.value none) nil nil
  | tree kind below _ => tree kind below nil

/-- The trees below a node that its replay shows. -/
def Kind.keep : Kind → Forest → Forest
  | property _, f => f.first
  | value _, _ => .nil
  | document, f | object, f | array, f => f

namespace Forest

/-- Every node of the trees has the property, which is about its kind and the trees below it. -/
def All (P : Kind → Forest → Prop) : Forest → Prop
  | nil => True
  | tree kind below after => P kind below ∧ below.All P ∧ after.All P

def OneValue (kind : Kind) (below : Forest) : Prop :=
  ∀ name, kind = .property name → ∃ k b, below = tree k b nil

theorem All.keep {f : Forest} (h : f.All OneValue) (kind : Kind) : (kind.keep f).All OneValue := by
  cases kind with
  | property name =>
    cases f with
    | nil => exact ⟨nofun, trivial, trivial⟩
    | tree k b after => exact ⟨h.1, h.2.1, trivial⟩
  | value text => trivial
  | document => exact h
  | object => exact h
  | array => exact h

end Forest

/-! The nodes of trees that are laid out. -/

section Laid

variable {d : Document} {p : NodeId} {i : Nat} {f : Forest}

end Laid

/-! Only the root is a document. -/

namespace Document

def OneRoot (d : Document) : Prop := ∀ i n, 0 < i → d.nodes[i]? = some n → n.kind ≠ .document

theorem OneRoot.add {d : Document} (h : d.OneRoot) (p : NodeId) {kind : Kind} (hk : kind ≠ .document) :
    (d.add p kind).OneRoot := by
  intro i n hi hn
  unfold Document.add at hn
  rw [Array.getElem?_push] at hn
  split at hn
  · obtain rfl := Option.some.inj hn
    exact hk
  · rw [Array.getElem?_modify] at hn
    split at hn
    · obtain ⟨m, hm, rfl⟩ := Option.map_eq_some_iff.1 hn
      exact h i m hi hm
    · exact h i n hi hn

end Document

namespace Growth

/-- Each list of events adds one of the trees. -/
inductive AddsEach : List (List Event) → Forest → Prop
  | nil : AddsEach [] .nil
  | cons {es : List Event} {parts : List (List Event)} {kind : Kind} {below after : Forest}
    (head : Adds es (.tree kind below .nil)) (tail : AddsEach parts after) :
    AddsEach (es :: parts) (.tree kind below after)

section AddsEach

variable {parts : List (List Event)} {f : Forest}

theorem AddsEach.flatten (h : AddsEach parts f) : Adds parts.flatten f := by
  induction h with
  | nil => exact adds_nil
  | cons head _ ih => exact head.append ih

theorem AddsEach.elements (h : AddsEach parts f) :
    Adds (parts.flatMap fun p => .beginElement :: p ++ [.endElement]) f := by
  induction h with
  | nil => exact adds_nil
  | cons head _ ih => exact head.element.append ih

theorem AddsEach.first (h : AddsEach parts f) : Adds (parts.headD [.value none]) f.first := by
  cases h with
  | nil => exact adds_value none
  | cons head _ => exact head

/-- A node's replay adds the node with what the replay shows of it. -/
theorem AddsEach.spell (h : AddsEach parts f) {kind : Kind} (hk : kind ≠ .document) :
    Adds (kind.spell parts) (.tree kind (kind.keep f) .nil) := by
  cases kind with
  -- a document has no events of its own, so what is below it would go to the node around it
  | document => exact absurd rfl hk
  | object => exact h.flatten.node (fun _ => rfl) (fun _ => rfl)
  | array => exact h.elements.node (fun _ => rfl) (fun _ => rfl)
  | property name => exact h.first.node (fun _ => rfl) (fun _ => rfl)
  | value text => exact adds_value text

end AddsEach

end Growth

namespace Document

end Document

end Lenient.Json
