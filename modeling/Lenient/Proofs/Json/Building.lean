import Lenient.Json.Builder
import Lenient.Proofs.Json.Entry

/-! A builder emits documents only. `Opened` ties the frames of a builder to what it has emitted: for
each open level the events that opened it and what it holds so far. A call that is accepted leads from
there to `Opened` again, or to a complete document, and a call that is refused changes nothing. Hence
the events of a builder, whatever the calls were, are the start of a document; closing the open levels
emits the rest of it, and nothing is left to emit exactly when the builder is complete. -/

namespace Lenient.Json

def Value.IsDocument : Value → Prop
  | scalar _ => False
  | object _ | array _ => True

theorem Value.isDocument_gather (shape : Shape) (es : List Entry) : (gather shape es).IsDocument := by
  cases shape <;> trivial

/-- The events that close a level. A property without a value gets a null one. -/
def Frame.closing : Frame → List Event
  | container shape true => [shape.closing, .endElement]
  | container shape false => [shape.closing]
  | property name true => [.endProperty name]
  | property name false => [.value none, .endProperty name]

theorem Frame.closing_ne_nil (f : Frame) : f.closing ≠ [] := by
  rcases f with ⟨shape, _ | _⟩ | ⟨name, _ | _⟩ <;> simp [closing]

/-- The events have opened the levels `frames`, innermost first, and everything else in them is
complete. A property whose value is open counts as having it. -/
inductive Opened : List Frame → List Event → Prop
  | root (shape : Shape) (es : List Entry) (fits : Fits shape es) :
    Opened [.container shape false] (shape.opening :: es.flatMap Entry.events)
  | element {b : Bool} {outer : List Frame} {before : List Event} (shape : Shape) (es : List Entry)
    (outside : Opened (.container .array b :: outer) before) (fits : Fits shape es) :
    Opened (.container shape true :: .container .array b :: outer)
      (before ++ .beginElement :: shape.opening :: es.flatMap Entry.events)
  | inside {name : Text} {outer : List Frame} {before : List Event} (shape : Shape) (es : List Entry)
    (outside : Opened (.property name false :: outer) before) (fits : Fits shape es) :
    Opened (.container shape false :: .property name true :: outer)
      (before ++ shape.opening :: es.flatMap Entry.events)
  | unset {b : Bool} {outer : List Frame} {before : List Event} (name : Text)
    (outside : Opened (.container .object b :: outer) before) :
    Opened (.property name false :: .container .object b :: outer) (before ++ [.beginProperty name])
  | set {b : Bool} {outer : List Frame} {before : List Event} (name : Text) (v : Value)
    (outside : Opened (.container .object b :: outer) before) :
    Opened (.property name true :: .container .object b :: outer)
      (before ++ .beginProperty name :: v.events)

section Opened

variable {outer : List Frame} {emitted : List Event} {b : Bool} {shape : Shape} {name : Text}

theorem fits_append_singleton {es : List Entry} {e : Entry} (h : Fits shape es)
    (he : e.slot.shape = shape) : Fits shape (es ++ [e]) := by
  intro x hx
  rcases List.mem_append.1 hx with hx | hx
  · exact h x hx
  · rw [List.mem_singleton.1 hx, he]

theorem Opened.entry {e : Entry} (h : Opened (.container shape b :: outer) emitted)
    (he : e.slot.shape = shape) : Opened (.container shape b :: outer) (emitted ++ e.events) := by
  cases h with
  | root _ es fits => simpa using Opened.root shape _ (fits_append_singleton fits he)
  | element _ es outside fits => simpa using outside.element shape _ (fits_append_singleton fits he)
  | inside _ es outside fits => simpa using outside.inside shape _ (fits_append_singleton fits he)

theorem Opened.value (v : Value) (h : Opened (.property name false :: outer) emitted) :
    Opened (.property name true :: outer) (emitted ++ v.events) := by
  cases h with
  | unset _ outside => simpa using outside.set name v

/-- Closing the innermost level completes what it holds: the document, if no level is around it, or
else a part of what is around it. -/
theorem Opened.close {f : Frame} (h : Opened (f :: outer) emitted) :
    (outer = [] ∧ ∃ v : Value, v.IsDocument ∧ emitted ++ f.closing = v.events) ∨
      Opened outer (emitted ++ f.closing) := by
  cases h with
  | root shape es fits =>
    refine Or.inl ⟨rfl, _, Value.isDocument_gather shape es, ?_⟩
    rw [Value.events_gather fits]
    rfl
  | element shape es outside fits =>
    have := outside.entry (e := ⟨.element, Value.gather shape es⟩) rfl
    rw [Entry.events, Value.events_gather fits] at this
    exact Or.inr (by simpa [Frame.closing, Slot.opening, Slot.closing] using this)
  | inside shape es outside fits =>
    have := outside.value (Value.gather shape es)
    rw [Value.events_gather fits] at this
    exact Or.inr (by simpa [Frame.closing] using this)
  | unset name outside =>
    have := outside.entry (e := ⟨.property name, .scalar none⟩) rfl
    exact Or.inr (by simpa [Frame.closing, Entry.events, Value.events, Slot.opening,
      Slot.closing] using this)
  | set name v outside =>
    have := outside.entry (e := ⟨.property name, v⟩) rfl
    exact Or.inr (by simpa [Frame.closing, Entry.events, Slot.opening, Slot.closing] using this)

/-- Closing every level, innermost first, completes a document. -/
theorem Opened.close_all {frames : List Frame} (h : Opened frames emitted) :
    ∃ v : Value, v.IsDocument ∧ emitted ++ frames.flatMap Frame.closing = v.events := by
  induction frames generalizing emitted with
  | nil => cases h
  | cons f outer ih =>
    rw [List.flatMap_cons, ← List.append_assoc]
    rcases h.close with ⟨rfl, v, hv, he⟩ | ho
    · exact ⟨v, hv, by simpa using he⟩
    · exact ih ho

end Opened

namespace Builder

/-- The builder has opened a root: levels are open, or a document is complete. -/
inductive Rooted (b : Builder) : Prop
  | within (rooted : b.rooted = true) (opened : Opened b.frames b.events)
  | complete (rooted : b.rooted = true) (frames : b.frames = []) (v : Value)
    (document : v.IsDocument) (events : b.events = v.events)

structure Fresh (b : Builder) : Prop where
  rooted : b.rooted = false
  frames : b.frames = []
  events : b.events = []

/-! What one call does to a builder that has opened a root. -/

section Rooted

variable {b : Builder}

/-- A call keeps to a root if it does so inside each kind of level and does nothing to a builder that
is complete. -/
theorem Rooted.call (h : Rooted b) {f : Builder → Outcome}
    (hdone : b.frames = [] → b.rooted = true → (f b).2 = b)
    (hopen : ∀ frame outer, b.frames = frame :: outer → b.rooted = true →
      Opened (frame :: outer) b.events → Rooted (f b).2) : Rooted (f b).2 := by
  cases h with
  | within rooted opened =>
    cases hf : b.frames with
    | nil => rw [hf] at opened; cases opened
    | cons frame outer =>
      rw [hf] at opened
      exact hopen frame outer hf rooted opened
  | complete rooted frames v document events =>
    rw [hdone frames rooted]
    exact .complete rooted frames v document events

theorem Rooted.openContainer (h : Rooted b) (shape : Shape) : Rooted (b.openContainer shape).2 := by
  obtain ⟨frames, rooted, emitted, notices⟩ := b
  refine h.call (by rintro rfl rfl; rfl) ?_
  rintro (⟨_ | _, element⟩ | ⟨name, _ | _⟩) outer rfl hr opened
  · exact .within hr opened
  · exact .within rfl (by
      simpa [Builder.openContainer, enter, emit, accepted] using opened.element shape [] nofun)
  · exact .within rfl (opened.inside shape [] nofun)
  · exact .within hr opened

theorem Rooted.openProperty (h : Rooted b) (name : Text) : Rooted (b.openProperty name).2 := by
  obtain ⟨frames, rooted, emitted, notices⟩ := b
  refine h.call (by rintro rfl -; rfl) ?_
  rintro (⟨_ | _, element⟩ | ⟨name', _ | _⟩) outer rfl hr opened
  · exact .within hr (opened.unset name)
  · exact .within hr opened
  · exact .within hr opened
  · exact .within hr opened

theorem Rooted.setValue (h : Rooted b) (value : Option Text) : Rooted (b.setValue value).2 := by
  obtain ⟨frames, rooted, emitted, notices⟩ := b
  refine h.call (by rintro rfl -; rfl) ?_
  rintro (⟨_ | _, element⟩ | ⟨name, _ | _⟩) outer rfl hr opened
  · exact .within hr opened
  · exact .within hr opened
  · exact .within hr (opened.value (.scalar value))
  · exact .within hr opened

theorem Rooted.addElement (h : Rooted b) (value : Option Text) : Rooted (b.addElement value).2 := by
  obtain ⟨frames, rooted, emitted, notices⟩ := b
  refine h.call (by rintro rfl -; rfl) ?_
  rintro (⟨_ | _, element⟩ | ⟨name, _ | _⟩) outer rfl hr opened
  · exact .within hr opened
  · exact .within hr (opened.entry (e := ⟨.element, .scalar value⟩) rfl)
  · exact .within hr opened
  · exact .within hr opened

theorem close_of_frames {f : Frame} {outer : List Frame} (h : b.frames = f :: outer) :
    b.close.1 = none ∧ b.close.2.frames = outer ∧ b.close.2.events = b.events ++ f.closing ∧
      b.close.2.rooted = b.rooted := by
  obtain ⟨frames, rooted, emitted, notices⟩ := b
  simp only at h
  subst h
  rcases f with ⟨shape, _ | _⟩ | ⟨name, _ | _⟩ <;> exact ⟨rfl, rfl, rfl, rfl⟩

theorem Rooted.close (h : Rooted b) : Rooted b.close.2 := by
  refine h.call (fun hf _ => by simp [Builder.close, hf, refuse]) ?_
  intro f outer hf hr opened
  obtain ⟨-, hf', he', hr'⟩ := close_of_frames hf
  rcases opened.close with ⟨rfl, v, hv, he⟩ | ho
  · exact .complete (hr'.trans hr) hf' v hv (he'.trans he)
  · exact .within (hr'.trans hr) (by rw [hf', he']; exact ho)

theorem Rooted.andThen {r : Outcome} {f : Builder → Outcome} (h : Rooted r.2)
    (hf : ∀ b, Rooted b → Rooted (f b).2) : Rooted (Outcome.andThen r f).2 := by
  rcases r with ⟨_ | e, b⟩
  · exact hf b h
  · exact h

theorem Rooted.addProperty (h : Rooted b) (name : Text) (value : Option Text) :
    Rooted (b.addProperty name value).2 := by
  have ho := h.openProperty name
  have hs := ho.andThen fun b hb => hb.setValue value
  exact hs.andThen fun b hb => hb.close

theorem Rooted.addElements (h : Rooted b) (values : List Text) : Rooted (b.addElements values).2 := by
  unfold Builder.addElements
  split
  · suffices ∀ r : Outcome, Rooted r.2 →
        Rooted (values.foldl (fun r v => Outcome.andThen r (Builder.addElement (some v))) r).2 from
      this _ h
    induction values with
    | nil => exact fun r hr => hr
    | cons v values ih =>
      intro r hr
      exact ih _ (hr.andThen fun b hb => hb.addElement (some v))
  · exact h

theorem Rooted.perform (h : Rooted b) (call : Call) : Rooted (b.perform call).2 := by
  cases call with
  | openContainer shape => exact h.openContainer shape
  | openProperty name => exact h.openProperty name
  | addProperty name value => exact h.addProperty name value
  | setValue value => exact h.setValue value
  | addElement value => exact h.addElement value
  | addElements values => exact h.addElements values
  | close => exact h.close

end Rooted

theorem Fresh.perform {b : Builder} (h : Fresh b) (call : Call) :
    (∃ shape, call = .openContainer shape ∧ Rooted (b.perform call).2) ∨
      ((b.perform call).1 ≠ none ∧ (b.perform call).2 = b) := by
  obtain ⟨frames, rooted, emitted, notices⟩ := b
  obtain ⟨hr, hf, he⟩ := h
  simp only at hr hf he
  subst hr hf he
  cases call with
  | openContainer shape => exact Or.inl ⟨shape, rfl, .within rfl (.root shape [] nofun)⟩
  | openProperty name => exact Or.inr ⟨nofun, rfl⟩
  | addProperty name value => exact Or.inr ⟨nofun, rfl⟩
  | setValue value => exact Or.inr ⟨nofun, rfl⟩
  | addElement value => exact Or.inr ⟨nofun, rfl⟩
  | addElements values => exact Or.inr ⟨nofun, rfl⟩
  | close => exact Or.inr ⟨nofun, rfl⟩

/-! What a sequence of calls does. -/

/-- The builder after a sequence of calls. Calls that are refused are passed over. -/
def performAll (b : Builder) (calls : List Call) : Builder :=
  calls.foldl (fun b call => (b.perform call).2) b

theorem performAll_append (b : Builder) (calls more : List Call) :
    b.performAll (calls ++ more) = (b.performAll calls).performAll more := List.foldl_append

theorem Rooted.performAll {b : Builder} (h : Rooted b) (calls : List Call) :
    Rooted (b.performAll calls) := by
  induction calls generalizing b with
  | nil => exact h
  | cons call calls ih => exact ih (h.perform call)

/-- Whatever the calls were, a builder has emitted nothing or has opened a root. -/
theorem fresh_or_rooted (calls : List Call) :
    Fresh (performAll {} calls) ∨ Rooted (performAll {} calls) := by
  suffices ∀ b : Builder, Fresh b → Fresh (b.performAll calls) ∨ Rooted (b.performAll calls) from
    this {} ⟨rfl, rfl, rfl⟩
  induction calls with
  | nil => exact fun b hb => Or.inl hb
  | cons call calls ih =>
    intro b hb
    rcases hb.perform call with ⟨shape, -, hr⟩ | ⟨-, hs⟩
    · exact Or.inr (hr.performAll calls)
    · rw [Builder.performAll, List.foldl_cons, hs]
      exact ih b hb

def OpensRoot (calls : List Call) : Prop :=
  ∃ before shape after, calls = before ++ .openContainer shape :: after ∧
    ((performAll {} before).perform (.openContainer shape)).1 = none

theorem rooted_of_opensRoot {calls : List Call} (h : OpensRoot calls) :
    Rooted (performAll {} calls) := by
  obtain ⟨before, shape, after, rfl, ha⟩ := h
  have hr : Rooted ((performAll {} before).perform (.openContainer shape)).2 := by
    rcases fresh_or_rooted before with hf | hr
    · rcases hf.perform (.openContainer shape) with ⟨-, -, hr⟩ | ⟨hn, -⟩
      · exact hr
      · exact absurd ha hn
    · exact hr.perform _
  rw [performAll_append]
  exact hr.performAll after

theorem performAll_close {b : Builder} {k : Nat} (h : k ≤ b.depth) :
    (b.performAll (List.replicate k .close)).frames = b.frames.drop k ∧
      (b.performAll (List.replicate k .close)).events =
        b.events ++ (b.frames.take k).flatMap Frame.closing := by
  induction k generalizing b with
  | zero => simp [performAll]
  | succ k ih =>
    cases hf : b.frames with
    | nil => simp [depth, hf] at h
    | cons f outer =>
      obtain ⟨-, hf', he', -⟩ := close_of_frames hf
      have hk : k ≤ b.close.2.depth := by
        simp only [depth, hf, hf', List.length_cons] at h ⊢
        omega
      obtain ⟨h1, h2⟩ := ih hk
      rw [hf'] at h1 h2
      rw [he'] at h2
      simp only [List.replicate_succ, List.drop_succ_cons, List.take_succ_cons, List.flatMap_cons,
        ← List.append_assoc]
      exact ⟨h1, h2⟩

theorem close_performAll_close {b : Builder} {k : Nat} (h : k < b.depth) :
    ((b.performAll (List.replicate k .close)).perform .close).1 = none := by
  obtain ⟨hf, -⟩ := performAll_close (Nat.le_of_lt h)
  rw [List.drop_eq_getElem_cons h] at hf
  exact (close_of_frames hf).1

/-- Closing every open level of a builder with a root completes a document. -/
theorem Rooted.close_all {b : Builder} (h : Rooted b) :
    ∃ v : Value, v.IsDocument ∧ b.events ++ b.frames.flatMap Frame.closing = v.events := by
  rcases h with ⟨-, opened⟩ | ⟨-, hf, v, hv, he⟩
  · exact opened.close_all
  · exact ⟨v, hv, by rw [hf, he]; simp⟩

theorem isComplete_iff (b : Builder) : b.isComplete = true ↔ b.rooted = true ∧ b.frames = [] := by
  simp [isComplete]

/-- The events of an open document are not those of a document. -/
theorem Rooted.isComplete_iff_document {b : Builder} (h : Rooted b) :
    b.isComplete = true ↔ ∃ v : Value, v.IsDocument ∧ b.events = v.events := by
  rw [isComplete_iff]
  constructor
  · rintro ⟨-, hf⟩
    obtain ⟨v, hv, he⟩ := h.close_all
    exact ⟨v, hv, by simpa [hf] using he⟩
  · rintro ⟨v, -, he⟩
    obtain ⟨v', -, he'⟩ := h.close_all
    -- events that spell a value cannot be continued to those of another one
    have hd : v.events ++ b.frames.flatMap Frame.closing = v'.events ++ [] := by
      rw [← he, he', List.append_nil]
    have hnil := (v.delimited hd).2
    refine ⟨by cases h <;> assumption, ?_⟩
    cases hf : b.frames with
    | nil => rfl
    | cons f outer =>
      rw [hf, List.flatMap_cons, List.append_eq_nil_iff] at hnil
      exact absurd hnil.1 f.closing_ne_nil

theorem Fresh.not_document {b : Builder} (h : Fresh b) {v : Value} (hv : v.IsDocument) :
    b.events ≠ v.events := by
  rw [h.events]
  cases v with
  | scalar t => exact hv.elim
  | object ps => simp [Value.events]
  | array vs => simp [Value.events]

/-- Whatever calls a builder was given, refused ones included: what it emitted is the start of a
document; closing it as often as levels are open is accepted each time and, once a root was opened,
emits the rest of a document; and the builder is complete exactly if it has emitted a whole one. -/
theorem builder_emits_document (calls : List Call) :
    (∃ v : Value, v.IsDocument ∧ (performAll {} calls).events <+: v.events) ∧
    (∀ k < (performAll {} calls).depth,
      (((performAll {} calls).performAll (List.replicate k .close)).perform .close).1 = none) ∧
    (OpensRoot calls → ∃ v : Value, v.IsDocument ∧
      ((performAll {} calls).performAll
        (List.replicate (performAll {} calls).depth .close)).events = v.events) ∧
    ((performAll {} calls).isComplete = true ↔
      ∃ v : Value, v.IsDocument ∧ (performAll {} calls).events = v.events) := by
  refine ⟨?_, fun k hk => close_performAll_close hk, ?_, ?_⟩
  · rcases fresh_or_rooted calls with hf | hr
    · exact ⟨.object [], trivial, by rw [hf.events]; exact List.nil_prefix⟩
    · obtain ⟨v, hv, he⟩ := hr.close_all
      exact ⟨v, hv, _, he⟩
  · intro h
    obtain ⟨v, hv, he⟩ := (rooted_of_opensRoot h).close_all
    refine ⟨v, hv, ?_⟩
    rw [(performAll_close (Nat.le_refl _)).2, depth, List.take_length, he]
  · rcases fresh_or_rooted calls with hf | hr
    · constructor
      · intro hc
        rw [isComplete_iff, hf.rooted] at hc
        cases hc.1
      · rintro ⟨v, hv, he⟩
        exact absurd he (hf.not_document hv)
    · exact hr.isComplete_iff_document

/-- An array is left open in a property; the first call and the one for a second value are refused. -/
def strayCalls : List Call :=
  [.openProperty ['a'], .openContainer .object, .openProperty ['a'], .openContainer .array,
    .setValue none, .addElement none]

theorem strayCalls_opensRoot : OpensRoot strayCalls :=
  ⟨[.openProperty ['a']], .object, _, rfl, rfl⟩

theorem builder_completes_strayCalls :
    OpensRoot strayCalls ∧ 2 < (performAll {} strayCalls).depth ∧
    (((performAll {} strayCalls).performAll (List.replicate 2 .close)).perform .close).1 = none ∧
    ∃ v : Value, v.IsDocument ∧
      ((performAll {} strayCalls).performAll
        (List.replicate (performAll {} strayCalls).depth .close)).events = v.events :=
  ⟨strayCalls_opensRoot, by decide, (builder_emits_document strayCalls).2.1 2 (by decide),
    (builder_emits_document strayCalls).2.2.1 strayCalls_opensRoot⟩

end Builder

end Lenient.Json
