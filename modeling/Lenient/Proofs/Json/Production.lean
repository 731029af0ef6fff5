import Lenient.Proofs.Json.Refusal

/-! Every document can be built. `Makes` lists the calls that a walk over a document may make, with a choice
at most places: a scalar property can be added at once or opened, set and closed, a null one can be left
unset, and elements that are texts can be added several at a time. Whatever is chosen, no call is refused and
the events are those of the document. The walk may pass anywhere, so what it does to a builder is told for
any levels around it: `Leads` says which levels calls find and leave and what they emit in between. -/

namespace Lenient.Json

theorem Value.scalar_or_document (v : Value) : (∃ text, v = .scalar text) ∨ v.IsDocument := by
  cases v with
  | scalar text => exact Or.inl ⟨text, rfl⟩
  | object ps => exact Or.inr trivial
  | array vs => exact Or.inr trivial

namespace Builder

/-- What a walk over a document goes through: a container, some properties of an object, or some elements of
an array. -/
inductive Part
  | container (v : Value)
  | properties (ps : List (Text × Value))
  | elements (vs : List Value)

/-- The calls of a walk over a part of a document. -/
inductive Makes : Part → List Call → Prop
  | object {ps : List (Text × Value)} {calls : List Call} (inside : Makes (.properties ps) calls) :
    Makes (.container (.object ps)) (.openContainer .object :: calls ++ [.close])
  | array {vs : List Value} {calls : List Call} (inside : Makes (.elements vs) calls) :
    Makes (.container (.array vs)) (.openContainer .array :: calls ++ [.close])
  | noProperties : Makes (.properties []) []
  | addProperty {ps : List (Text × Value)} {calls : List Call} (name : Text) (text : Option Text)
    (more : Makes (.properties ps) calls) :
    Makes (.properties ((name, .scalar text) :: ps)) (.addProperty name text :: calls)
  | setProperty {ps : List (Text × Value)} {calls : List Call} (name : Text) (text : Option Text)
    (more : Makes (.properties ps) calls) :
    Makes (.properties ((name, .scalar text) :: ps))
      (.openProperty name :: .setValue text :: .close :: calls)
  | unsetProperty {ps : List (Text × Value)} {calls : List Call} (name : Text)
    (more : Makes (.properties ps) calls) :
    Makes (.properties ((name, .scalar none) :: ps)) (.openProperty name :: .close :: calls)
  | openProperty {v : Value} {ps : List (Text × Value)} {inner calls : List Call} (name : Text)
    (inside : Makes (.container v) inner) (more : Makes (.properties ps) calls) :
    Makes (.properties ((name, v) :: ps)) (.openProperty name :: inner ++ .close :: calls)
  | noElements : Makes (.elements []) []
  | addElement {vs : List Value} {calls : List Call} (text : Option Text)
    (more : Makes (.elements vs) calls) :
    Makes (.elements (.scalar text :: vs)) (.addElement text :: calls)
  | addElements {vs : List Value} {calls : List Call} (texts : List Text)
    (more : Makes (.elements vs) calls) :
    Makes (.elements (texts.map (fun t => .scalar (some t)) ++ vs)) (.addElements texts :: calls)
  | openElement {v : Value} {vs : List Value} {inner calls : List Call}
    (inside : Makes (.container v) inner) (more : Makes (.elements vs) calls) :
    Makes (.elements (v :: vs)) (inner ++ calls)

/-! Every document has such calls. -/

theorem exists_makes_properties {ps : List (Text × Value)}
    (h : ∀ p ∈ ps, p.2.IsDocument → ∃ calls, Makes (.container p.2) calls) :
    ∃ calls, Makes (.properties ps) calls := by
  induction ps with
  | nil => exact ⟨[], .noProperties⟩
  | cons p ps ih =>
    obtain ⟨hp, hps⟩ := List.forall_mem_cons.1 h
    obtain ⟨calls, hc⟩ := ih hps
    obtain ⟨name, v⟩ := p
    rcases v.scalar_or_document with ⟨text, rfl⟩ | hv
    · exact ⟨_, .addProperty name text hc⟩
    · obtain ⟨inner, hi⟩ := hp hv
      exact ⟨_, .openProperty name hi hc⟩

theorem exists_makes_elements {vs : List Value}
    (h : ∀ v ∈ vs, v.IsDocument → ∃ calls, Makes (.container v) calls) :
    ∃ calls, Makes (.elements vs) calls := by
  induction vs with
  | nil => exact ⟨[], .noElements⟩
  | cons v vs ih =>
    obtain ⟨hv, hvs⟩ := List.forall_mem_cons.1 h
    obtain ⟨calls, hc⟩ := ih hvs
    rcases v.scalar_or_document with ⟨text, rfl⟩ | hd
    · exact ⟨_, .addElement text hc⟩
    · obtain ⟨inner, hi⟩ := hv hd
      exact ⟨_, .openElement hi hc⟩

theorem exists_makes (v : Value) : v.IsDocument → ∃ calls, Makes (.container v) calls := by
  induction v using Value.gather_induction with
  | scalar text => exact False.elim
  | gather shape es hf ih =>
    intro _
    cases shape with
    | object =>
      obtain ⟨ps, rfl⟩ := fits_object_iff.1 hf
      have hp : ∀ p ∈ ps, p.2.IsDocument → ∃ calls, Makes (.container p.2) calls :=
        fun p hp => ih _ (List.mem_map_of_mem hp)
      obtain ⟨calls, hc⟩ := exists_makes_properties hp
      rw [Value.gather_properties]
      exact ⟨_, .object hc⟩
    | array =>
      obtain ⟨vs, rfl⟩ := fits_array_iff.1 hf
      have hv : ∀ v ∈ vs, v.IsDocument → ∃ calls, Makes (.container v) calls :=
        fun v hv => ih _ (List.mem_map_of_mem hv)
      obtain ⟨calls, hc⟩ := exists_makes_elements hv
      rw [Value.gather_elements]
      exact ⟨_, .array hc⟩

/-! What calls do to the levels. -/

theorem andThen_assoc (r : Outcome) (f g : Builder → Outcome) :
    Outcome.andThen (Outcome.andThen r f) g = Outcome.andThen r fun b => Outcome.andThen (f b) g := by
  rcases r with ⟨_ | e, b⟩
  · rfl
  · rfl

theorem performEach_append (b : Builder) (calls more : List Call) :
    b.performEach (calls ++ more) =
      Outcome.andThen (b.performEach calls) fun b' => b'.performEach more := by
  induction calls generalizing b with
  | nil => rfl
  | cons call calls ih =>
    rw [List.cons_append, performEach, performEach, andThen_assoc]
    simp only [ih]

/-- The builder `b'` has emitted `es` more than `b`, and the levels `left` are open in it. -/
structure Went (b b' : Builder) (left : List Frame) (es : List Event) : Prop where
  rooted : b'.rooted = true
  frames : b'.frames = left
  events : b'.events = b.events ++ es

/-- A builder with the levels `frames`, which has a root or not as `rooted` says, accepts each of the calls;
they emit `es` and leave the levels `left`. -/
def Leads (rooted : Bool) (frames : List Frame) (calls : List Call) (left : List Frame)
    (es : List Event) : Prop :=
  ∀ b : Builder, b.rooted = rooted → b.frames = frames →
    ∃ b' : Builder, b.performEach calls = b'.accepted ∧ Went b b' left es

section Leads

variable {rooted : Bool} {frames left last : List Frame} {calls more : List Call} {es es' : List Event}

theorem leads_nil (frames : List Frame) : Leads true frames [] frames [] := by
  intro b hr hf
  exact ⟨b, rfl, hr, hf, (List.append_nil _).symm⟩

theorem Leads.append (h : Leads rooted frames calls left es) (h' : Leads true left more last es') :
    Leads rooted frames (calls ++ more) last (es ++ es') := by
  intro b hr hf
  obtain ⟨b₁, hp₁, h₁⟩ := h b hr hf
  obtain ⟨b₂, hp₂, h₂⟩ := h' b₁ h₁.rooted h₁.frames
  refine ⟨b₂, ?_, h₂.rooted, h₂.frames, ?_⟩
  · rw [performEach_append, hp₁]
    exact hp₂
  · rw [h₂.events, h₁.events, List.append_assoc]

theorem leads_call {call : Call} (h : ∀ b : Builder, b.rooted = rooted → b.frames = frames →
    ∃ b' : Builder, b.perform call = b'.accepted ∧ Went b b' left es) :
    Leads rooted frames [call] left es := by
  intro b hr hf
  obtain ⟨b', hp, hb'⟩ := h b hr hf
  refine ⟨b', ?_, hb'⟩
  rw [performEach, hp]
  rfl

end Leads

/-! The calls of a walk. -/

/-- Room for a container: as the root, in an array, or in a property without a value. The last two indices
say whether the container is an element and which levels are around it once it is open. -/
inductive Room : Bool → List Frame → Bool → List Frame → Prop
  | root : Room false [] false []
  | element (b : Bool) (outer : List Frame) :
    Room true (.container .array b :: outer) true (.container .array b :: outer)
  | property (name : Text) (outer : List Frame) :
    Room true (.property name false :: outer) false (.property name true :: outer)

def asElement (element : Bool) (es : List Event) : List Event :=
  if element then .beginElement :: es ++ [.endElement] else es

theorem leads_openContainer {rooted element : Bool} {frames outer : List Frame}
    (h : Room rooted frames element outer) (shape : Shape) :
    Leads rooted frames [.openContainer shape] (.container shape element :: outer)
      ((if element then [.beginElement] else []) ++ [shape.opening]) := by
  apply leads_call
  rintro ⟨frames', rooted', emitted, notices⟩ rfl rfl
  cases h with
  | root => exact ⟨_, rfl, rfl, rfl, rfl⟩
  | element b outer => exact ⟨_, rfl, rfl, rfl, by simp [enter, emit]⟩
  | property name outer => exact ⟨_, rfl, rfl, rfl, rfl⟩

theorem leads_close (f : Frame) (outer : List Frame) :
    Leads true (f :: outer) [.close] outer f.closing := by
  apply leads_call
  intro b hr hf
  obtain ⟨ha, hf', he', hr'⟩ := close_of_frames hf
  exact ⟨b.close.2, Prod.ext ha rfl, hr'.trans hr, hf', he'⟩

/-- What is made inside a container makes the container, wherever there is room for it. -/
theorem leads_container {rooted element : Bool} {frames outer : List Frame} {shape : Shape}
    {calls : List Call} {es : List Event} (h : Room rooted frames element outer)
    (hi : Leads true (.container shape element :: outer) calls (.container shape element :: outer) es) :
    Leads rooted frames (.openContainer shape :: calls ++ [.close]) outer
      (asElement element (shape.opening :: es ++ [shape.closing])) := by
  have hl := ((leads_openContainer h shape).append hi).append (leads_close _ outer)
  cases element with
  | true => simpa [asElement, Frame.closing] using hl
  | false => simpa [asElement, Frame.closing] using hl

section Object

variable (name : Text) (b : Bool) (outer : List Frame)

theorem leads_openProperty : Leads true (.container .object b :: outer) [.openProperty name]
    (.property name false :: .container .object b :: outer) [.beginProperty name] := by
  apply leads_call
  rintro ⟨frames, rooted, emitted, notices⟩ rfl rfl
  exact ⟨_, rfl, rfl, rfl, rfl⟩

theorem leads_setValue (text : Option Text) : Leads true (.property name false :: outer)
    [.setValue text] (.property name true :: outer) [.value text] := by
  apply leads_call
  rintro ⟨frames, rooted, emitted, notices⟩ rfl rfl
  exact ⟨_, rfl, rfl, rfl, rfl⟩

theorem leads_addProperty (text : Option Text) : Leads true (.container .object b :: outer)
    [.addProperty name text] (.container .object b :: outer)
    [.beginProperty name, .value text, .endProperty name] := by
  apply leads_call
  intro b' hr hf
  exact ⟨_, addProperty_of_object hf name text, hr, hf, rfl⟩

end Object

section Array

variable (b : Bool) (outer : List Frame)

theorem leads_addElement (text : Option Text) : Leads true (.container .array b :: outer)
    [.addElement text] (.container .array b :: outer) [.beginElement, .value text, .endElement] := by
  apply leads_call
  intro b' hr hf
  exact ⟨_, addElement_of_array hf text, hr, hf, rfl⟩

theorem leads_addElements (texts : List Text) : Leads true (.container .array b :: outer)
    [.addElements texts] (.container .array b :: outer)
    (texts.flatMap fun t => [.beginElement, .value (some t), .endElement]) := by
  apply leads_call
  intro b' hr hf
  exact ⟨_, addElements_of_array hf texts, hr, hf, rfl⟩

end Array

theorem elementEvents_texts (texts : List Text) (vs : List Value) :
    Value.elementEvents (texts.map (fun t => .scalar (some t)) ++ vs) =
      texts.flatMap (fun t => [.beginElement, .value (some t), .endElement]) ++
        Value.elementEvents vs := by
  induction texts with
  | nil => rfl
  | cons t texts ih => simp [Value.elementEvents, Value.events, ih]

/-- The calls make the part wherever it can stand. -/
def Made : Part → List Call → Prop
  | .container v, calls => ∀ rooted frames element outer, Room rooted frames element outer →
    Leads rooted frames calls outer (asElement element v.events)
  | .properties ps, calls => ∀ b outer, Leads true (.container .object b :: outer) calls
    (.container .object b :: outer) (Value.propertyEvents ps)
  | .elements vs, calls => ∀ b outer, Leads true (.container .array b :: outer) calls
    (.container .array b :: outer) (Value.elementEvents vs)

theorem Makes.made {part : Part} {calls : List Call} (h : Makes part calls) : Made part calls := by
  -- over the walk; `Made` leaves open which levels are around a part, so it applies further inside as well
  induction h with
  | object _ ih =>
    intro rooted frames element outer room
    exact leads_container room (ih element outer)
  | array _ ih =>
    intro rooted frames element outer room
    exact leads_container room (ih element outer)
  | noProperties => exact fun b outer => leads_nil _
  | addProperty name text _ ih =>
    intro b outer
    exact (leads_addProperty name b outer text).append (ih b outer)
  | setProperty name text _ ih =>
    intro b outer
    have hs := (leads_openProperty name b outer).append (leads_setValue name _ text)
    exact (hs.append (leads_close _ _)).append (ih b outer)
  | unsetProperty name _ ih =>
    intro b outer
    exact ((leads_openProperty name b outer).append (leads_close _ _)).append (ih b outer)
  | openProperty name _ _ ihv ih =>
    intro b outer
    have hv := (leads_openProperty name b outer).append (ihv _ _ _ _ (.property name _))
    have := (hv.append (leads_close _ _)).append (ih b outer)
    simpa [asElement, Frame.closing, Value.propertyEvents] using this
  | noElements => exact fun b outer => leads_nil _
  | addElement text _ ih =>
    intro b outer
    exact (leads_addElement b outer text).append (ih b outer)
  | addElements texts _ ih =>
    intro b outer
    rw [elementEvents_texts]
    exact (leads_addElements b outer texts).append (ih b outer)
  | openElement _ _ ihv ih =>
    intro b outer
    have := (ihv _ _ _ _ (.element b outer)).append (ih b outer)
    simpa [asElement, Value.elementEvents] using this

/-- Every document can be built: a walk over it has calls to make, and whatever choices it makes, a builder
that was given nothing yet accepts each call, has emitted the events of the document at the end, and is
complete with no level open. -/
theorem makes_every_document (v : Value) (hv : v.IsDocument) :
    (∃ calls, Makes (.container v) calls) ∧
      ∀ calls, Makes (.container v) calls → ∃ b, performEach {} calls = (none, b) ∧
        b.events = v.events ∧ b.isComplete = true ∧ b.depth = 0 := by
  refine ⟨exists_makes v hv, fun calls hc => ?_⟩
  obtain ⟨b, hp, hr, hf, he⟩ := hc.made false [] false [] .root {} rfl rfl
  refine ⟨b, hp, ?_, (isComplete_iff b).2 ⟨hr, hf⟩, ?_⟩
  · simpa [asElement] using he
  · rw [depth, hf]
    rfl

/-- Scalars and a null in an object, and an array with a null, two texts and an object. -/
def mixedDocument : Value :=
  .object [(['a'], .scalar (some ['x'])), (['b'], .scalar (some ['y'])), (['c'], .scalar none),
    (['d'], .array [.scalar none, .scalar (some ['p']), .scalar (some ['q']), .object []])]

/-- The properties are made in four ways, and the texts of the array together. -/
def mixedCalls : List Call :=
  [.openContainer .object, .addProperty ['a'] (some ['x']), .openProperty ['b'], .setValue (some ['y']),
    .close, .openProperty ['c'], .close, .openProperty ['d'], .openContainer .array, .addElement none,
    .addElements [['p'], ['q']], .openContainer .object, .close, .close, .close, .close]

theorem makes_mixed : Makes (.container mixedDocument) mixedCalls := by
  have hd := Makes.array (.addElement none (.addElements [['p'], ['q']]
    (.openElement (.object .noProperties) .noElements)))
  have ho := Makes.object (.addProperty ['a'] (some ['x']) (.setProperty ['b'] (some ['y'])
    (.unsetProperty ['c'] (.openProperty ['d'] hd .noProperties))))
  exact ho

theorem mixedCalls_make_document :
    mixedDocument.IsDocument ∧ Makes (.container mixedDocument) mixedCalls ∧
      ∃ b, performEach {} mixedCalls = (none, b) ∧ b.events = mixedDocument.events ∧
        b.isComplete = true ∧ b.depth = 0 :=
  ⟨trivial, makes_mixed, (makes_every_document mixedDocument trivial).2 mixedCalls makes_mixed⟩

end Builder

end Lenient.Json
