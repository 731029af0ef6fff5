import Lenient.Proofs.Json.Acceptance
import Lenient.Proofs.Json.Escaping
import Lenient.Proofs.Json.Writing

/-! Reading undoes writing. The canonical text of a value is one of the texts that the grammar has for
it, so the canonical text of an object, between any text without an opening brace and any text at all,
is read as the events that it was written from, and the cursor stops right behind it. As every text is
read as nothing or as an object within the limit, a text and its canonical form are read as the same
events. -/

namespace Lenient.Json

open Cursor Lexeme

theorem written_gather {shape : Shape} {es : List Entry} {t : Text} (hf : Fits shape es)
    (h : Written (.entries shape es) t) : Written (.value (Value.gather shape es)) (shape.left :: t) := by
  cases shape with
  | object =>
    obtain ⟨ps, rfl⟩ := fits_object_iff.1 hf
    rw [Value.gather_properties]
    exact .object h
  | array =>
    obtain ⟨vs, rfl⟩ := fits_array_iff.1 hf
    rw [Value.gather_elements]
    exact .array h

theorem written_entry {e : Entry} (h : Written (.value e.value) e.value.render) :
    Written (.entry e false) e.render := by
  obtain ⟨slot, v⟩ := e
  cases slot with
  | property name => simpa [Entry.render, Slot.lead] using
      Written.property (named_renderName name) blanks_nil blanks_nil h
  | element => exact .element h

theorem written_entries {shape : Shape} {es : List Entry}
    (h : ∀ e ∈ es, Written (.entry e false) e.render) :
    Written (.entries shape es) (renderEntries es ++ [shape.right]) := by
  induction es with
  | nil => exact .empty blanks_nil
  | cons e es ih =>
    obtain ⟨he, hes⟩ := List.forall_mem_cons.1 h
    cases es with
    | nil =>
      rw [renderEntries_singleton]
      exact .first (a := []) blanks_nil he (.last blanks_nil)
    | cons e' es =>
      rw [renderEntries_cons_cons, List.append_assoc, List.cons_append]
      exact .first (a := []) blanks_nil he (.comma (a := []) blanks_nil (ih hes))

/-- The canonical text of a value is written for the value. -/
theorem written_render (v : Value) : Written (.value v) v.render := by
  induction v using Value.gather_induction with
  | scalar m =>
    rw [Value.render]
    exact .scalar (scalar_renderScalar m)
  | gather shape es hf ih =>
    rw [Value.render_gather hf, List.cons_append]
    exact written_gather hf (written_entries fun e he => written_entry (ih e he))

theorem reads_render {σ : Type} [Cursor σ] {limit : Nat} {ps : List (Text × Value)} {g r : Text} {s : σ}
    (hn : (Value.object ps).nesting ≤ limit) (hg : '\x7b' ∉ g)
    (h : unread s = g ++ (Value.object ps).render ++ r) :
    Reads (read limit s) (Value.object ps).events r :=
  reads_written (written_render _) hn hg h

/-- Writing an object and reading it again gives its events, behind any text without an opening
brace and in front of any text; the cursor stops where the written object ends. -/
theorem read_write_object (ps : List (Text × Value)) (limit capacity : Nat) (g r : Text)
    (hn : (Value.object ps).nesting ≤ limit) (hg : '\x7b' ∉ g) :
    (read limit (Stream.sized capacity (g ++ write (Value.object ps).events ++ r))).1 =
        (Value.object ps).events ∧
      (read limit (Stream.sized capacity (g ++ write (Value.object ps).events ++ r))).2.cursor.offset =
        g.length + (write (Value.object ps).events).length := by
  rw [write_events]
  generalize hs : Stream.sized capacity (g ++ (Value.object ps).render ++ r) = s
  have hu : unread s = g ++ (Value.object ps).render ++ r := by rw [← hs]; rfl
  have h := reads_render hn hg hu
  refine ⟨h.answer, ?_⟩
  have ho := (forward_read limit s).offset_eq
  have h0 : (position s).offset = 0 := by rw [← hs]; rfl
  change (position (read limit s).2).offset = _
  rw [remaining, remaining, h.rest, hu, h0] at ho
  simp only [List.length_append] at ho
  omega

/-- An object with an empty name, a name of blanks, and a quote and a backslash in its text. -/
def oddProperties : List (Text × Value) :=
  [([], .array [.scalar none, .object [([' ', '\n'], .scalar (some ['\x27', '\\']))]])]

theorem read_write_oddProperties :
    (Value.object oddProperties).nesting ≤ 3 ∧ '\x7b' ∉ ['x', '\x7d'] ∧
    (read 3 (Stream.sized 0
      (['x', '\x7d'] ++ write (Value.object oddProperties).events ++ ['\x7b']))).1 =
        (Value.object oddProperties).events ∧
    (read 3 (Stream.sized 0
      (['x', '\x7d'] ++ write (Value.object oddProperties).events ++ ['\x7b']))).2.cursor.offset =
        2 + (write (Value.object oddProperties).events).length :=
  ⟨by decide, by decide,
    read_write_object oddProperties 3 0 ['x', '\x7d'] ['\x7b'] (by decide) (by decide)⟩

theorem parse_value (t : Text) :
    (parse t).value = (read defaultLimit (Stream.ofText (t.dropWhile isGarbage))).1 := rfl

theorem canonicalize_value (t : Text) : (canonicalize t).value = write (parse t).value := rfl

theorem unread_ofText (t : Text) : unread (Stream.ofText t) = t := rfl

theorem parse_render {ps : List (Text × Value)} (hn : (Value.object ps).nesting ≤ defaultLimit) :
    (parse (Value.object ps).render).value = (Value.object ps).events := by
  have hd : (Value.object ps).render.dropWhile isGarbage = (Value.object ps).render := by
    simp [Value.render, isGarbage]
  rw [parse_value, hd]
  refine (reads_render (g := []) (r := []) hn (by simp) ?_).answer
  rw [unread_ofText, List.nil_append, List.append_nil]

theorem parse_eq_nil {t : Text} (h : '\x7b' ∉ t.dropWhile isGarbage) : (parse t).value = [] := by
  rw [parse_value]
  apply read_eq_nil
  rwa [unread_ofText]

theorem parse_eq_nil_or_object (t : Text) :
    (parse t).value = [] ∨
      ∃ ps, (parse t).value = (Value.object ps).events ∧ (Value.object ps).nesting ≤ defaultLimit := by
  by_cases h : '\x7b' ∈ t.dropWhile isGarbage
  · rw [← unread_ofText (t.dropWhile isGarbage)] at h
    exact Or.inr (read_eq_object defaultLimit h)
  · exact Or.inl (parse_eq_nil h)

/-- A text is read as nothing, or as an object within the limit; either is read again from what is
written for it. -/
theorem parse_write_parse (t : Text) : (parse (write (parse t).value)).value = (parse t).value := by
  rcases parse_eq_nil_or_object t with h | ⟨ps, h, hn⟩
  · rw [h]
    exact parse_eq_nil (t := []) (by simp)
  · rw [h, write_events]
    exact parse_render hn

/-- The canonical form of a text is read as the text is. So it is its own canonical form, and two
texts share it exactly if they are read as the same events. -/
theorem canonicalize_keeps_events (t u : Text) :
    (parse (canonicalize t).value).value = (parse t).value ∧
    (canonicalize (canonicalize t).value).value = (canonicalize t).value ∧
    ((canonicalize t).value = (canonicalize u).value ↔ (parse t).value = (parse u).value) := by
  have ht := parse_write_parse t
  have hu := parse_write_parse u
  simp only [canonicalize_value]
  refine ⟨ht, by rw [ht], ?_, ?_⟩
  · intro h
    rw [← ht, h, hu]
  · intro h
    rw [h]

end Lenient.Json
