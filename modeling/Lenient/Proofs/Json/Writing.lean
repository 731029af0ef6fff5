import Lenient.Json.Writer
import Lenient.Proofs.Json.Entry

/-! The writer is a machine over events: it knows no tree and finds the commas by counting. Fed with
the events of a value, from whatever state it is in, it writes the canonical text of the value and
leaves its counts as they were. So what was done with a writer before does not show in what it writes
for a value, and a writer that was cleared is as good as a new one: between two events nothing is left
in the scratch, and a page refuses nothing. -/

namespace Lenient.Json

namespace Writer

section Place

variable {ω : Type} [Place ω]

@[simp] theorem counts_print (w : Writer ω) (piece : Text) : (w.print piece).counts = w.counts := by
  unfold print
  split <;> rfl

@[simp] theorem scratch_print (w : Writer ω) (piece : Text) : (w.print piece).scratch = w.scratch := by
  unfold print
  split <;> rfl

@[simp] theorem counts_printQuoted (w : Writer ω) (t : Text) : (w.printQuoted t).counts = w.counts := by
  simp [printQuoted]

@[simp] theorem scratch_printQuoted (w : Writer ω) (t : Text) :
    (w.printQuoted t).scratch = w.scratch := by
  simp [printQuoted]

theorem print_scratch (w : Writer ω) (t piece : Text) :
    print { w with scratch := t } piece = { w.print piece with scratch := t } := by
  unfold print
  split <;> rfl

theorem printQuoted_scratch (w : Writer ω) (t t' : Text) :
    printQuoted { w with scratch := t } t' = { w.printQuoted t' with scratch := t } := by
  simp only [printQuoted, print_scratch]

theorem flush_scribble {w : Writer ω} (h : w.scratch = []) (spaces : Bool) (t : Text) (quoted : Bool) :
    (w.scribble spaces t).flush quoted =
      if quoted then w.printQuoted (escape spaces t) else w.print (escape spaces t) := by
  rw [flush, scribble, h, List.nil_append, print_scratch, printQuoted_scratch]
  have hq := scratch_printQuoted w (escape spaces t)
  have hp := scratch_print w (escape spaces t)
  rw [h] at hq hp
  cases quoted with
  | true => simp only [if_true, ← hq]
  | false => simp only [Bool.false_eq_true, if_false, ← hp]

@[simp] theorem scratch_separate (w : Writer ω) : w.separate.scratch = w.scratch := by
  unfold separate
  split <;> simp

theorem scratch_emit {w : Writer ω} (h : w.scratch = []) (e : Event) : (w.emit e).scratch = [] := by
  cases e with
  | beginObject => simpa [emit, enter] using h
  | endObject => simpa [emit, leave] using h
  | beginArray => simpa [emit, enter] using h
  | endArray => simpa [emit, leave] using h
  | beginElement => simpa [emit] using h
  | endElement => exact h
  | beginProperty name => simp [emit, writeName, flush]
  | endProperty name => exact h
  | value text =>
    cases text with
    | none => simpa [emit, writeScalar] using h
    | some t => rfl

@[simp] theorem emitAll_nil (w : Writer ω) : w.emitAll [] = w := rfl

@[simp] theorem emitAll_cons (w : Writer ω) (e : Event) (es : List Event) :
    w.emitAll (e :: es) = (w.emit e).emitAll es := rfl

@[simp] theorem emitAll_append (w : Writer ω) (es es' : List Event) :
    w.emitAll (es ++ es') = (w.emitAll es).emitAll es' := List.foldl_append

/-- Whatever is printed or counted, and whatever is in the scratch, `P` goes on to hold. -/
structure Stable (P : Writer ω → Prop) : Prop where
  print : ∀ {w} piece, P w → P (w.print piece)
  counts : ∀ {w : Writer ω} counts, P w → P { w with counts }
  scratch : ∀ {w : Writer ω} scratch, P w → P { w with scratch }

namespace Stable

variable {P : Writer ω → Prop} {w : Writer ω}

theorem printQuoted (hP : Stable P) (t : Text) (h : P w) : P (w.printQuoted t) :=
  hP.print _ (hP.print _ (hP.print _ h))

theorem flush (hP : Stable P) (quoted : Bool) (h : P w) : P (w.flush quoted) := by
  apply hP.scratch
  split
  · exact hP.printQuoted _ h
  · exact hP.print _ h

theorem separate (hP : Stable P) (h : P w) : P w.separate := by
  unfold Writer.separate
  split
  · exact h
  · exact hP.counts _ h
  · exact hP.print _ (hP.counts _ h)

theorem emit (hP : Stable P) (e : Event) (h : P w) : P (w.emit e) := by
  cases e with
  | beginObject => exact hP.counts _ (hP.print _ h)
  | endObject => exact hP.counts _ (hP.print _ h)
  | beginArray => exact hP.counts _ (hP.print _ h)
  | endArray => exact hP.counts _ (hP.print _ h)
  | beginElement => exact hP.separate h
  | endElement => exact h
  | beginProperty name => exact hP.print _ (hP.flush _ (hP.scratch _ (hP.separate h)))
  | endProperty name => exact h
  | value text =>
    cases text with
    | none => exact hP.print _ h
    | some t => exact hP.flush _ (hP.scratch _ h)

theorem emitAll (hP : Stable P) (es : List Event) (h : P w) : P (w.emitAll es) := by
  induction es generalizing w with
  | nil => exact h
  | cons e es ih => exact ih (hP.emit e h)

end Stable

end Place

@[simp] theorem refused_print (w : Writer) (piece : Text) : (w.print piece).refused = w.refused := by
  unfold print
  split
  · rfl
  · next h =>
    rw [Bool.not_eq_true] at h
    rw [h]
    rfl

@[simp] theorem refused_printQuoted (w : Writer) (t : Text) : (w.printQuoted t).refused = w.refused := by
  simp [printQuoted]

theorem stable_not_refused : Stable fun w : Writer => w.refused = false where
  print piece h := by simpa using h
  counts _ h := h
  scratch _ h := h

structure Idle (w : Writer) : Prop where
  scratch : w.scratch = []
  refused : w.refused = false

theorem idle_new : Idle {} := ⟨rfl, rfl⟩

namespace Idle

variable {w : Writer}

theorem emit (h : w.Idle) (e : Event) : (w.emit e).Idle :=
  ⟨scratch_emit h.scratch e, stable_not_refused.emit e h.refused⟩

theorem emitAll (h : w.Idle) (es : List Event) : (w.emitAll es).Idle := by
  induction es generalizing w with
  | nil => exact h
  | cons e es ih => exact ih (h.emit e)

theorem separate (h : w.Idle) : w.separate.Idle :=
  ⟨by simpa using h.scratch, stable_not_refused.separate h.refused⟩

/-- A writer with no text and no open container is as good as a new one. -/
theorem clear (h : w.Idle) : w.clear = {} := by
  rw [Writer.clear, h.scratch, h.refused]
  rfl

end Idle

theorem text_print {w : Writer} (h : w.refused = false) (piece : Text) :
    (w.print piece).text = w.text ++ piece := by
  simp [text, print, h, Place.put, Page.text]

theorem text_printQuoted {w : Writer} (h : w.refused = false) (t : Text) :
    (w.printQuoted t).text = w.text ++ '\x27' :: t ++ ['\x27'] := by
  simp [printQuoted, text_print, h]

theorem text_enter {w : Writer} (h : w.refused = false) (c : Char) : (w.enter c).text = w.text ++ [c] :=
  text_print h [c]

@[simp] theorem counts_enter (w : Writer) (c : Char) : (w.enter c).counts = 0 :: w.counts := rfl

theorem text_leave {w : Writer} (h : w.refused = false) (c : Char) : (w.leave c).text = w.text ++ [c] :=
  text_print h [c]

@[simp] theorem counts_leave (w : Writer) (c : Char) : (w.leave c).counts = w.counts.tail := rfl

theorem writeName_eq {w : Writer} (h : w.Idle) (name : Text) :
    (w.writeName name).text = w.text ++ Value.renderName name ∧
      (w.writeName name).counts = w.counts ∧ (w.writeName name).refused = false := by
  rw [writeName, flush_scribble h.scratch, Value.renderName]
  split
  · simp [text_printQuoted h.refused, h.refused]
  · simp [text_print h.refused, h.refused]

theorem writeScalar_eq {w : Writer} (h : w.Idle) (text : Option Text) :
    (w.writeScalar text).text = w.text ++ Value.renderScalar text ∧
      (w.writeScalar text).counts = w.counts := by
  cases text with
  | none => simp [writeScalar, text_print h.refused, Value.renderScalar]
  | some t =>
    rw [writeScalar, flush_scribble h.scratch, if_pos rfl]
    simp [text_printQuoted h.refused, Value.renderScalar]

/-- What goes in front of the next slot when `k` slots of the container were written. -/
def comma (k : Nat) : Text := if k = 0 then [] else [',']

theorem separate_of_counts {w : Writer} {k : Nat} {outer : List Nat} (hw : w.Idle)
    (h : w.counts = k :: outer) :
    w.separate.text = w.text ++ comma k ∧ w.separate.counts = (k + 1) :: outer := by
  unfold separate comma
  rw [h]
  cases k with
  | zero => simp [text]
  | succ k =>
    have ht := text_print (w := { w with counts := (k + 2) :: outer }) hw.refused [',']
    exact ⟨ht, counts_print _ _⟩

/-- From any state between two events, the events of `v` add the canonical text of `v` and change no
count. -/
def Writes (v : Value) : Prop :=
  ∀ {w : Writer}, w.Idle →
    (w.emitAll v.events).text = w.text ++ v.render ∧ (w.emitAll v.events).counts = w.counts

theorem emit_slot_opening {w : Writer} {k : Nat} {outer : List Nat} (slot : Slot) (hw : w.Idle)
    (h : w.counts = k :: outer) :
    (w.emit slot.opening).text = w.text ++ comma k ++ slot.lead ∧
      (w.emit slot.opening).counts = (k + 1) :: outer := by
  obtain ⟨ht, hc⟩ := separate_of_counts hw h
  cases slot with
  | property name =>
    obtain ⟨htn, hcn, hrn⟩ := writeName_eq hw.separate name
    simp [Slot.opening, emit, Slot.lead, text_print hrn, htn, hcn, ht, hc]
  | element => simp [Slot.opening, emit, Slot.lead, ht, hc]

theorem emit_slot_closing (w : Writer) (slot : Slot) : w.emit slot.closing = w := by
  cases slot <;> rfl

theorem emitAll_entry {w : Writer} {e : Entry} {k : Nat} {outer : List Nat} (hv : Writes e.value)
    (hw : w.Idle) (h : w.counts = k :: outer) :
    (w.emitAll e.events).text = w.text ++ comma k ++ e.render ∧
      (w.emitAll e.events).counts = (k + 1) :: outer := by
  obtain ⟨ht, hc⟩ := emit_slot_opening e.slot hw h
  obtain ⟨hvt, hvc⟩ := hv (hw.emit e.slot.opening)
  simp [Entry.events, Entry.render, emit_slot_closing, hvt, hvc, ht, hc]

theorem emitAll_entries {e : Entry} {es : List Entry} (hv : ∀ x ∈ e :: es, Writes x.value) :
    ∀ {w : Writer} {k : Nat} {outer : List Nat}, w.Idle → w.counts = k :: outer →
      (w.emitAll ((e :: es).flatMap Entry.events)).text = w.text ++ comma k ++ renderEntries (e :: es) ∧
      (w.emitAll ((e :: es).flatMap Entry.events)).counts = (k + 1 + es.length) :: outer := by
  induction es generalizing e with
  | nil =>
    intro w k outer hw h
    obtain ⟨ht, hc⟩ := emitAll_entry (hv e (by simp)) hw h
    rw [List.flatMap_singleton, renderEntries_singleton]
    exact ⟨ht, hc⟩
  | cons e' es ih =>
    intro w k outer hw h
    obtain ⟨he, hes⟩ := List.forall_mem_cons.1 hv
    obtain ⟨ht, hc⟩ := emitAll_entry he hw h
    obtain ⟨hts, hcs⟩ := ih hes (hw.emitAll e.events) hc
    rw [List.flatMap_cons, emitAll_append, hts, hcs, ht, renderEntries_cons_cons]
    refine ⟨by simp [comma], ?_⟩
    rw [List.length_cons, Nat.add_right_comm, Nat.add_assoc (k + 1)]

/-- The writer needs no tree: the events of a value make it write the value. -/
theorem writes (v : Value) : Writes v := by
  induction v using Value.gather_induction with
  | scalar t =>
    intro w hw
    exact writeScalar_eq hw t
  | gather shape es hf ih =>
    intro w hw
    have ho : w.emit shape.opening = w.enter shape.left := by cases shape <;> rfl
    have hcl : ∀ w' : Writer, w'.emit shape.closing = w'.leave shape.right := by
      intro w'
      cases shape <;> rfl
    have he : (w.enter shape.left).Idle := ho ▸ hw.emit shape.opening
    rw [Value.events_gather hf, Value.render_gather hf]
    cases es with
    | nil => simp [ho, hcl, text_enter hw.refused, text_leave he.refused]
    | cons e es =>
      obtain ⟨ht, hc⟩ := emitAll_entries ih he (counts_enter w shape.left)
      have hes := he.emitAll ((e :: es).flatMap Entry.events)
      rw [List.cons_append, emitAll_cons, emitAll_append, ho, emitAll_cons, hcl, emitAll_nil,
        text_leave hes.refused, counts_leave, ht, hc, text_enter hw.refused]
      simp [comma]

inductive Call
  | emit (event : Event)
  | clear
  deriving Repr, DecidableEq

def perform (w : Writer) : Call → Writer
  | .emit event => w.emit event
  | .clear => w.clear

def performAll (w : Writer) (calls : List Call) : Writer := calls.foldl perform w

theorem performAll_append (w : Writer) (calls calls' : List Call) :
    w.performAll (calls ++ calls') = (w.performAll calls).performAll calls' := List.foldl_append

theorem performAll_emit (w : Writer) (es : List Event) :
    w.performAll (es.map .emit) = w.emitAll es := List.foldl_map

theorem Idle.perform {w : Writer} (h : w.Idle) (call : Call) : (w.perform call).Idle := by
  cases call with
  | emit event => exact h.emit event
  | clear => exact ⟨h.scratch, h.refused⟩

theorem Idle.performAll {w : Writer} (h : w.Idle) (calls : List Call) : (w.performAll calls).Idle := by
  induction calls generalizing w with
  | nil => exact h
  | cons call calls ih => exact ih (h.perform call)

theorem performAll_clear (calls more : List Call) :
    performAll {} (calls ++ .clear :: more) = performAll {} more := by
  rw [performAll_append]
  exact congrArg (performAll · more) (idle_new.performAll calls).clear

/-- Whatever events a writer was given before, and whenever it was cleared: the events of a value add
the canonical text of the value and leave the counts as they were, and a writer that is cleared goes on
as a new one. -/
theorem value_renders_behind_any_calls (calls : List Call) (v : Value) :
    (performAll {} (calls ++ v.events.map .emit)).text = (performAll {} calls).text ++ v.render ∧
      (performAll {} (calls ++ v.events.map .emit)).counts = (performAll {} calls).counts ∧
      ∀ more, performAll {} (calls ++ .clear :: more) = performAll {} more := by
  rw [performAll_append, performAll_emit]
  obtain ⟨ht, hc⟩ := writes v (idle_new.performAll calls)
  exact ⟨ht, hc, performAll_clear calls⟩

end Writer

theorem write_events (v : Value) : write v.events = v.render := by
  rw [write, writeTo, (Writer.writes v ⟨rfl, rfl⟩).1]
  rfl

end Lenient.Json
