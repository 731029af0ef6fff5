import Lenient.Proofs.Json.Nesting
import Lenient.Proofs.Json.StepReading

/-! The reader accepts the grammar: what is written for an object is read as the events of the object,
and the reader stops right behind it. The induction goes over the derivation, with one case for each
rule; what it shows of a phrase depends on the kind of the phrase. -/

namespace Lenient.Json

open Cursor Lexeme

/-- What follows an entry ends it: it is not read as a part of the entry's name or value. -/
structure Separated (colon : Bool) (r : Text) : Prop where
  bounded : Bounded r
  no_colon : (bared r).head? ≠ some ':'
  no_value : colon = true → ∃ c w, bared r = c :: w ∧ isStructural c = true ∧ Shape.ofBracket? c = none

theorem separated_of_ending {c : Char} {a w : Text} (colon : Bool) (ha : Blanks a)
    (hc : isStructural c = true) (hn : c ≠ ':') (hb : Shape.ofBracket? c = none)
    (hs : isSpace c = false) : Separated colon (a ++ c :: w) := by
  have h : bared (a ++ c :: w) = c :: w := by rw [bared_append ha, bared_cons hs]
  refine ⟨Bounded.append ha ⟨c, w, rfl, by simp [hc]⟩, ?_, fun _ => ⟨c, w, h, hc, hb⟩⟩
  rw [h]
  simpa using hn

/-! The first character of what is written. -/

theorem starts_value {v : Value} {t : Text} (h : Written (.value v) t) :
    ∃ c w, t = c :: w ∧ Starts c := by
  cases h with
  | scalar scalar =>
    obtain ⟨c, w, rfl, hc⟩ := scalar.ordinary
    exact ⟨c, w, rfl, hc.starts⟩
  | object inside => exact ⟨_, _, rfl, starts_left .object⟩
  | array inside => exact ⟨_, _, rfl, starts_left .array⟩

theorem Named.starts {n name : Text} (h : Named n name) (r : Text) :
    ∃ c w, n ++ r = c :: w ∧ Starts c := by
  obtain ⟨c, w, rfl, hc⟩ := h.ordinary
  exact ⟨c, w ++ r, rfl, hc.starts⟩

theorem starts_entry {e : Entry} {colon : Bool} {t : Text} (h : Written (.entry e colon) t) :
    ∃ c w, t = c :: w ∧ Starts c := by
  cases h with
  | element value => exact starts_value value
  | property named _ _ _ => simpa only [List.append_assoc] using named.starts _
  | noColon named => simpa using named.starts []
  | noValue named _ => simpa only [List.append_assoc] using named.starts _

theorem starts_entries {shape : Shape} {e : Entry} {es : List Entry} {t : Text}
    (h : Written (.entries shape (e :: es)) t) (r : Text) :
    ∃ c w, bared (t ++ r) = c :: w ∧ Starts c := by
  cases h with
  | first blanks entry others =>
    obtain ⟨c, w, rfl, hc⟩ := starts_entry entry
    rw [List.append_assoc, List.append_assoc, bared_append blanks]
    exact ⟨c, _, bared_cons hc.not_space _, hc⟩

section Reading

variable (σ : Type) [Cursor σ]

/-- In front of an entry that is written as `t`, the reader emits the events of the entry and goes on
behind the comma that may follow it. -/
def ReadsEntry (e : Entry) (colon : Bool) (t : Text) : Prop :=
  ∀ {limit : Nat} {slots : List Slot} {s : σ} {r : Text}, Separated colon r →
    e.value.nesting + slots.length + 1 ≤ limit → bared (unread s) = t ++ r →
    ∃ u : σ, unread u = afterComma r ∧
      events limit e.slot.shape slots s = onto e.events (events limit e.slot.shape slots u)

/-- From `s` the reader emits the events of the entries and comes to the closing bracket before `r`. -/
def ReachesEnd (limit : Nat) (shape : Shape) (slots : List Slot) (es : List Entry) (s : σ)
    (r : Text) : Prop :=
  ∃ u : σ, bared (unread u) = shape.right :: r ∧
    events limit shape slots s = onto (es.flatMap Entry.events) (events limit shape slots u)

def ReadsEntries (shape : Shape) (es : List Entry) (t : Text) : Prop :=
  ∀ {limit : Nat} {slots : List Slot} {s : σ} {r : Text}, Body limit shape slots es →
    bared (unread s) = bared (t ++ r) → ReachesEnd σ limit shape slots es s r

def ReadsMore (shape : Shape) (es : List Entry) (colon : Bool) (t : Text) : Prop :=
  ∀ {r : Text}, Separated colon (t ++ r) ∧
    ∀ {limit : Nat} {slots : List Slot} {s : σ}, Body limit shape slots es →
      unread s = afterComma (t ++ r) → ReachesEnd σ limit shape slots es s r

/-- A value is a scalar, or a container whose inside is read. -/
inductive ReadsValue : Value → Text → Prop
  | scalar {m : Option Text} {t : Text} (scalar : Scalar t m) : ReadsValue (.scalar m) t
  | container {shape : Shape} {es : List Entry} {t : Text} (fits : Fits shape es)
    (inside : ReadsEntries σ shape es t) : ReadsValue (Value.gather shape es) (shape.left :: t)

def ReadsPhrase : Phrase → Text → Prop
  | .value v => ReadsValue σ v
  | .entry e colon => ReadsEntry σ e colon
  | .entries shape es => ReadsEntries σ shape es
  | .more shape es colon => ReadsMore σ shape es colon

variable {σ} {limit : Nat} {slots : List Slot} {s : σ}

/-- A step that finds the value `v` behind the slot's name reads on to the end of the value. -/
theorem events_fill {slot : Slot} {v : Value} {t r : Text} (hv : ReadsValue σ v t) (hb : Bounded r)
    (hn : v.nesting + slots.length + 1 ≤ limit)
    (hstep : ∀ {a : Content} {w : Text},
      (∀ u : σ, bared (unread u) = t ++ r → Reads (content limit (slots.length + 1) u) a w) →
      Reads (step limit slot.shape slots s) (.fill slot a) w) :
    ∃ u : σ, unread u = afterComma r ∧
      events limit slot.shape slots s =
        onto (Entry.events ⟨slot, v⟩) (events limit slot.shape slots u) := by
  cases hv with
  | @scalar m t scalar =>
    have hst := hstep fun u hu => reads_content_scalar scalar hb hu
    exact ⟨_, by rw [unread_skipComma, hst.rest], events_scalar hst.eq⟩
  | @container shape es t fits inside =>
    have hpos := Value.nesting_gather_pos shape es
    have hst := hstep fun u hu => reads_content_container hu (by omega)
    have hbody : Body limit shape (slot :: slots) es := Body.of_gather fits hn
    obtain ⟨u, hu, he⟩ := inside hbody (congrArg bared hst.rest)
    have hcl : Reads (step limit shape (slot :: slots) u) .close r := reads_step_close hu
    refine ⟨_, by rw [unread_skipComma, hcl.rest], ?_⟩
    rw [events_container hst.eq, he, events_close hcl.eq, onto_onto, onto_onto]
    simp [Entry.events, Value.events_gather fits]

theorem readsEntry_element {v : Value} {t : Text} (hw : Written (.value v) t) (hv : ReadsValue σ v t) :
    ReadsEntry σ ⟨.element, v⟩ false t := by
  intro limit slots s r hs hn h
  obtain ⟨c, w, rfl, hc⟩ := starts_value hw
  apply events_fill hv hs.bounded hn
  intro a w' ha
  exact reads_step_element hc h ha

theorem readsEntry_property {n name a b t : Text} {v : Value} (hn : Named n name) (ha : Blanks a)
    (hb : Blanks b) (hw : Written (.value v) t) (hv : ReadsValue σ v t) :
    ReadsEntry σ ⟨.property name, v⟩ false (n ++ a ++ ':' :: b ++ t) := by
  intro limit slots s r hs hd h
  obtain ⟨c, w, hcw, hc⟩ := starts_value hw
  apply events_fill hv hs.bounded hd
  intro content r' hcontent
  simp only [List.append_assoc, List.cons_append] at h
  apply reads_step_property hn (Bounded.append ha ⟨':', _, rfl, rfl⟩) h
  intro u hu
  apply reads_propertyContent_colon (by rw [hu, bared_append ha, bared_cons rfl])
  intro u' hu'
  apply hcontent
  rw [hu', bared_append hb, hcw]
  exact bared_cons hc.not_space _

theorem readsEntry_noColon {n name : Text} (hn : Named n name) :
    ReadsEntry σ ⟨.property name, .scalar none⟩ false n := by
  intro limit slots s r hs hd h
  have hst : Reads (step limit .object slots s) (.fill (.property name) (.scalar none)) r := by
    apply reads_step_property hn hs.bounded h
    intro u hu
    rw [← hu] at hs ⊢
    exact reads_propertyContent_none hs.no_colon
  exact ⟨_, by rw [unread_skipComma, hst.rest], events_scalar hst.eq⟩

theorem readsEntry_noValue {n name a : Text} (hn : Named n name) (ha : Blanks a) :
    ReadsEntry σ ⟨.property name, .scalar none⟩ true (n ++ a ++ [':']) := by
  intro limit slots s r hs hd h
  obtain ⟨c, w, hcw, hc, hb⟩ := hs.no_value rfl
  simp only [List.append_assoc, List.cons_append, List.nil_append] at h
  have hst : Reads (step limit .object slots s) (.fill (.property name) (.scalar none)) (c :: w) := by
    apply reads_step_property hn (Bounded.append ha ⟨':', r, rfl, rfl⟩) h
    intro u hu
    apply reads_propertyContent_colon (by rw [hu, bared_append ha, bared_cons rfl])
    intro u' hu'
    exact reads_content_none hc hb (by rw [hu', hcw])
  refine ⟨_, ?_, events_scalar hst.eq⟩
  rw [unread_skipComma, hst.rest, ← hcw, afterComma_bared]

theorem right_ending (shape : Shape) :
    isStructural shape.right = true ∧ shape.right ≠ ':' ∧ Shape.ofBracket? shape.right = none ∧
      isSpace shape.right = false ∧ shape.right ≠ ',' := by
  cases shape <;> decide

theorem readsEntries_empty {shape : Shape} {a : Text} (ha : Blanks a) :
    ReadsEntries σ shape [] (a ++ [shape.right]) := by
  intro limit slots s r _ h
  obtain ⟨-, -, -, hs, -⟩ := right_ending shape
  refine ⟨s, ?_, rfl⟩
  rw [h, List.append_assoc, bared_append ha]
  exact bared_cons hs r

theorem readsEntries_first {shape : Shape} {a t r : Text} {e : Entry} {es : List Entry} {colon : Bool}
    (ha : Blanks a) (hw : Written (.entry e colon) t) (he : ReadsEntry σ e colon t)
    (hm : ReadsMore σ shape es colon r) : ReadsEntries σ shape (e :: es) (a ++ t ++ r) := by
  intro limit slots s r' hb h
  obtain ⟨hs, hfs⟩ := fits_cons.1 hb.fits
  obtain ⟨hne, hns⟩ := List.forall_mem_cons.1 hb.nesting_le
  obtain ⟨hsep, hmore⟩ := @hm r'
  have h' : bared (unread s) = t ++ (r ++ r') := by
    obtain ⟨c, w, rfl, hc⟩ := starts_entry hw
    rw [h, List.append_assoc, List.append_assoc, bared_append ha]
    exact bared_cons hc.not_space _
  obtain ⟨u, hu, hev⟩ := he hsep hne h'
  obtain ⟨w, hw, hew⟩ := hmore ⟨hfs, hns⟩ hu
  rw [hs] at hev
  exact ⟨w, hw, by rw [hev, hew, onto_onto, List.flatMap_cons]⟩

theorem readsMore_last {shape : Shape} {a : Text} {colon : Bool} (ha : Blanks a) :
    ReadsMore σ shape [] colon (a ++ [shape.right]) := by
  intro r
  obtain ⟨hc, hn, hb, hs, hne⟩ := right_ending shape
  have h : bared (a ++ shape.right :: r) = shape.right :: r := by
    rw [bared_append ha, bared_cons hs]
  rw [List.append_assoc, List.singleton_append]
  refine ⟨separated_of_ending colon ha hc hn hb hs, ?_⟩
  intro limit slots s _ hu
  refine ⟨s, ?_, rfl⟩
  rw [hu, afterComma, h, if_neg (by simpa using hne), bared_cons hs]

theorem readsMore_comma {shape : Shape} {a t : Text} {es : List Entry} {colon : Bool} (ha : Blanks a)
    (he : ReadsEntries σ shape es t) : ReadsMore σ shape es colon (a ++ ',' :: t) := by
  intro r
  rw [List.append_assoc, List.cons_append]
  refine ⟨separated_of_ending colon ha rfl (by decide) rfl rfl, ?_⟩
  intro limit slots s hb hu
  apply he hb
  rw [hu, afterComma, bared_append ha, bared_cons rfl, List.head?_cons, if_pos rfl, List.tail_cons]

theorem readsMore_blank {shape : Shape} {a t : Text} {e : Entry} {es : List Entry} (ha : Blanks a)
    (hne : a ≠ []) (hw : Written (.entries shape (e :: es)) t)
    (he : ReadsEntries σ shape (e :: es) t) : ReadsMore σ shape (e :: es) false (a ++ t) := by
  intro r
  obtain ⟨c, w, hcw, hc⟩ := starts_entries hw r
  have h : bared (a ++ t ++ r) = c :: w := by rw [List.append_assoc, bared_append ha, hcw]
  have hf := hc.not_filler
  simp only [isFiller, Bool.or_eq_false_iff, decide_eq_false_iff_not] at hf
  refine ⟨⟨?_, by rw [h]; simpa using hf.1.2, fun h => absurd h Bool.false_ne_true⟩, ?_⟩
  · cases a with
    | nil => exact absurd rfl hne
    | cons d a => exact ⟨d, _, rfl, by simp [ha d List.mem_cons_self]⟩
  · intro limit slots s hb hu
    apply he hb
    rw [hu, afterComma, h, if_neg (by simpa using hf.2), bared_cons hc.not_space, hcw]

theorem readsPhrase {p : Phrase} {t : Text} (h : Written p t) : ReadsPhrase σ p t := by
  induction h with
  | scalar scalar => exact .scalar scalar
  | @object ps t inside ih =>
    have : ReadsValue σ (Value.gather .object (ps.map Entry.property)) (Shape.object.left :: t) :=
      .container (fits_object_iff.2 ⟨ps, rfl⟩) ih
    rwa [Value.gather_properties] at this
  | @array vs t inside ih =>
    have : ReadsValue σ (Value.gather .array (vs.map Entry.element)) (Shape.array.left :: t) :=
      .container (fits_array_iff.2 ⟨vs, rfl⟩) ih
    rwa [Value.gather_elements] at this
  | element value ih => exact readsEntry_element value ih
  | property named blanks blanks' value ih => exact readsEntry_property named blanks blanks' value ih
  | noColon named => exact readsEntry_noColon named
  | noValue named blanks => exact readsEntry_noValue named blanks
  | empty blanks => exact readsEntries_empty blanks
  | first blanks entry others ihe iho => exact readsEntries_first blanks entry ihe iho
  | last blanks => exact readsMore_last blanks
  | comma blanks others ih => exact readsMore_comma blanks ih
  | blank blanks some_blank others ih => exact readsMore_blank blanks some_blank others ih

end Reading

/-- What is written for an object, between any text without an opening brace and any text at all, is
read as the events of the object; what follows it is left. -/
theorem reads_written {σ : Type} [Cursor σ] {limit : Nat} {ps : List (Text × Value)} {t g r : Text}
    {s : σ} (hw : Written (.value (.object ps)) t) (hn : (Value.object ps).nesting ≤ limit)
    (hg : '\x7b' ∉ g) (h : unread s = g ++ t ++ r) :
    Reads (read limit s) (Value.object ps).events r := by
  cases hw with
  | @object _ t inside =>
    have hf : Fits .object (ps.map Entry.property) := fits_object_iff.2 ⟨ps, rfl⟩
    have hi : ReadsEntries σ .object (ps.map Entry.property) t := readsPhrase inside
    rw [← Value.gather_properties] at hn ⊢
    have hb : Body limit .object [] (ps.map Entry.property) := Body.of_gather hf hn
    have hu : unread (skipGarbage s) = '\x7b' :: (t ++ r) := by
      rw [unread_skipGarbage, h, List.append_assoc, dropWhile_isGarbage hg]
      simp [isGarbage]
    obtain ⟨u, hcl, he⟩ := hi hb (congrArg bared (unread_advance_of hu))
    have hst : Reads (step limit .object [] u) .close r := reads_step_close hcl
    unfold read
    rw [head?_of_unread hu]
    simp only [he, events_root hst.eq]
    exact ⟨by simp [Value.events_gather hf, Shape.opening], hst.rest⟩

/-- The reader accepts every text of the grammar for an object: wherever a stream stands, behind any
text without an opening brace and in front of any text, it emits the events of the object and moves
the cursor right behind it. -/
theorem read_accepts_grammar (ps : List (Text × Value)) (limit : Nat) (s : Stream) (g t r : Text)
    (hw : Written (.value (.object ps)) t) (hn : (Value.object ps).nesting ≤ limit)
    (hg : '\x7b' ∉ g) (hu : s.unread = g ++ t ++ r) :
    (read limit s).1 = (Value.object ps).events ∧
      (read limit s).2.cursor.offset = s.cursor.offset + (g ++ t).length := by
  have h : Reads (read limit s) (Value.object ps).events r := reads_written hw hn hg hu
  exact ⟨h.answer, h.offset_eq (forward_read limit s) hu⟩

/-- A property without a colon, one with blanks, escapes and an array, and one that ends in its colon;
a blank for a comma, and a comma behind the last entry. -/
def looseText : Text :=
  ['\x7b', ' ', 'a', '\t', '\x27', 'b', '\\', 'n', '\\', 'u', '0', '0', 'e', '9', '\x27', '\n', ':',
    '[', 'n', 'u', 'l', 'l', ' ', '\x22', '\x27', '\x22', ',', ']', ',', 'c', ':', ',', '\x7d']

def looseProperties : List (Text × Value) :=
  [(['a'], .scalar none), (['b', '\n', 'é'], .array [.scalar none, .scalar (some ['\x27'])]),
    (['c'], .scalar none)]

theorem written_loose : Written (.value (.object looseProperties)) looseText := by
  have hn : Quoted ['\x27', 'b', '\\', 'n', '\\', 'u', '0', '0', 'e', '9', '\x27'] ['b', '\n', 'é'] := by
    have hc : CodePoint ['0', '0', 'e', '9'] 'é' := ⟨rfl, by simp [hexDigit?], .inl rfl⟩
    exact .intro (t := ['b', '\\', 'n', '\\', 'u', '0', '0', 'e', '9']) rfl
      (.plain (by decide) (by decide) (.control (by decide) (.code (t := []) hc .nil)))
  have hq : Quoted ['\x22', '\x27', '\x22'] ['\x27'] :=
    .intro (t := ['\x27']) rfl (.plain (by decide) (by decide) .nil)
  have hvs : Written (.value (.array [.scalar none, .scalar (some ['\x27'])]))
      ['[', 'n', 'u', 'l', 'l', ' ', '\x22', '\x27', '\x22', ',', ']'] := by
    have hlast : Written (.more .array [] false) [',', ']'] :=
      .comma (a := []) blanks_nil (.empty (a := []) blanks_nil)
    have hmore : Written (.more .array [.element (.scalar (some ['\x27']))] false)
        [' ', '\x22', '\x27', '\x22', ',', ']'] :=
      .blank (a := [' ']) (by decide) (by decide)
        (.first (a := []) blanks_nil (.element (.scalar (.quoted hq))) hlast)
    exact .array (.first (a := []) blanks_nil (.element (.scalar .null)) hmore)
  have hc : Written (.entries .object [.property (['c'], .scalar none)]) ['c', ':', ',', '\x7d'] := by
    have hbare : Bareword ['c'] := ⟨by simp, by simp [isQuote], by simp [isSpace, isStructural]⟩
    exact .first (a := []) blanks_nil (.noValue (a := []) (.bare hbare) blanks_nil)
      (.comma (a := []) blanks_nil (.empty (a := []) blanks_nil))
  have hb := Written.property (a := ['\n']) (b := []) (.quoted hn) (by decide) blanks_nil hvs
  have ha : Bareword ['a'] := ⟨by simp, by simp [isQuote], by simp [isSpace, isStructural]⟩
  exact .object (.first (a := [' ']) (by decide) (.noColon (.bare ha))
    (.blank (a := ['\t']) (by decide) (by decide)
      (.first (a := []) blanks_nil hb (.comma (a := []) blanks_nil hc))))

theorem read_accepts_looseText :
    Written (.value (.object looseProperties)) looseText ∧
      (Value.object looseProperties).nesting ≤ 2 ∧ '\x7b' ∉ ['x', '\x7d'] ∧
      (Stream.sized 0 (['x', '\x7d'] ++ looseText ++ ['\x7b'])).unread =
        ['x', '\x7d'] ++ looseText ++ ['\x7b'] ∧
      (read 2 (Stream.sized 0 (['x', '\x7d'] ++ looseText ++ ['\x7b']))).1 =
        (Value.object looseProperties).events ∧
      (read 2 (Stream.sized 0 (['x', '\x7d'] ++ looseText ++ ['\x7b']))).2.cursor.offset = 35 := by
  have hn : (Value.object looseProperties).nesting ≤ 2 := by decide
  exact ⟨written_loose, hn, by decide, rfl,
    read_accepts_grammar _ _ _ ['x', '\x7d'] _ _ written_loose hn (by decide) rfl⟩

end Lenient.Json
