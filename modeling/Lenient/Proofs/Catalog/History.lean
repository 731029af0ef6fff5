import Lenient.Catalog

/-! What a catalogue holds after any changes. A change writes templates to places: an insertion writes one,
a message file that is accepted writes its entries line by line, and a file that is refused writes nothing.
A place holds what was written to it last. So a look-up answers with the last template for the locale, or
else for its language, or else for the fallback locale, however the changes were mixed. -/

namespace Lenient

namespace Properties

/-- The entry of a line that is no comment: what is in front of its first equals sign and what is behind. -/
def entryOf? (line : Text) : Option Entry :=
  if isComment line.trim then none
  else some ⟨Text.trim (line.trim.takeWhile notEquals), Text.trim (line.trim.dropWhile notEquals).tail⟩

def lineEntries (t : Text) : List Entry := t.lines.filterMap entryOf?

theorem entryOf?_eq {n : Nat} {line : Text} {o : Option Entry} (h : entry? n line = .ok o) :
    entryOf? line = o := by
  unfold entry? at h
  unfold entryOf?
  simp only at h
  split at h
  · next hc =>
    rw [if_pos hc]
    exact Except.ok.inj h
  · next hc =>
    rw [if_neg hc]
    split at h
    · cases h
    · split at h
      · cases h
      · exact Except.ok.inj h

theorem entriesFrom_eq {n : Nat} {ls : List Text} {es : List Entry} (h : entriesFrom n ls = .ok es) :
    es = ls.filterMap entryOf? := by
  induction ls generalizing n es with
  | nil => exact (Except.ok.inj h).symm
  | cons line rest ih =>
    unfold entriesFrom at h
    split at h
    · cases h
    · next ho =>
      rw [List.filterMap_cons_none (entryOf?_eq ho)]
      exact ih h
    · next e ho =>
      rw [List.filterMap_cons_some (entryOf?_eq ho)]
      cases hr : entriesFrom (n + 1) rest with
      | error err =>
        rw [hr] at h
        cases h
      | ok es' =>
        rw [hr] at h
        rw [← ih hr]
        exact (Except.ok.inj h).symm

end Properties

namespace Catalog

inductive Change
  | insert (locale key template : Text)
  | load (locale text : Text)
  deriving Repr, DecidableEq

def change (c : Catalog) : Change → Catalog
  | .insert locale key template => c.insert locale key template
  | .load locale text => (c.load locale text).value.2

def changeAll (c : Catalog) (changes : List Change) : Catalog := changes.foldl change c

structure Place where
  locale : Text
  key : Text
  deriving Repr, DecidableEq

structure Writing where
  place : Place
  template : Text
  deriving Repr, DecidableEq

/-- What a change writes, in order. A file that is not accepted writes nothing. -/
def written (c : Catalog) : Change → List Writing
  | .insert locale key template => [⟨⟨locale, key⟩, template⟩]
  | .load locale text =>
    match (c.load locale text).value.1 with
    | .ok _ => (Properties.lineEntries text).map fun e => ⟨⟨locale, e.key⟩, e.value⟩
    | .error _ => []

def history (c : Catalog) : List Change → List Writing
  | [] => []
  | x :: xs => c.written x ++ (c.change x).history xs

/-- The template that was written to a place last. -/
def latest? (ws : List Writing) (p : Place) : Option Text :=
  (ws.filter fun w => w.place = p).getLast?.map Writing.template

theorem latest?_append (ws ws' : List Writing) (p : Place) :
    latest? (ws ++ ws') p = (latest? ws' p).or (latest? ws p) := by
  rw [latest?, List.filter_append, List.getLast?_append, Option.map_or]
  rfl

theorem latest?_singleton (w : Writing) (p : Place) :
    latest? [w] p = if w.place = p then some w.template else none := by
  unfold latest?
  by_cases h : w.place = p
  · simp [h]
  · simp [h]

theorem latest?_eq_none {ws : List Writing} {p : Place} (h : ∀ w ∈ ws, w.place ≠ p) :
    latest? ws p = none := by
  have hf : ws.filter (fun w => w.place = p) = [] := by
    rw [List.filter_eq_nil_iff]
    intro w hw
    simpa using h w hw
  rw [latest?, hf]
  rfl

/-! What one change does to the places. -/

theorem at?_insert (c : Catalog) (locale key template : Text) (p : Place) :
    (c.insert locale key template).at? p.locale p.key =
      (latest? [⟨⟨locale, key⟩, template⟩] p).or (c.at? p.locale p.key) := by
  obtain ⟨l, k⟩ := p
  rw [latest?_singleton]
  simp only [at?, insert, Std.HashMap.getElem?_insert, beq_iff_eq]
  by_cases hl : locale = l
  · subst hl
    rw [if_pos rfl, Option.bind_some, Std.HashMap.getElem?_insert, Std.HashMap.getD_eq_getD_getElem?]
    by_cases hk : key = k
    · simp [hk]
    · -- another key of the locale: a locale without templates has none for it either
      cases c.templates[locale]? <;> simp [hk]
  · simp [hl]

theorem at?_insertAll (c : Catalog) (locale : Text) (es : List Properties.Entry) (p : Place) :
    (c.insertAll locale es).at? p.locale p.key =
      (latest? (es.map fun e => ⟨⟨locale, e.key⟩, e.value⟩) p).or (c.at? p.locale p.key) := by
  induction es generalizing c with
  | nil => rfl
  | cons e es ih =>
    rw [insertAll, List.foldl_cons, List.map_cons, ← List.singleton_append, latest?_append, Option.or_assoc,
      ← at?_insert]
    exact ih _

/-- A file is refused and the catalogue stays as it is, or all its entries are put in, line by line. -/
theorem load_cases (c : Catalog) (locale text : Text) :
    (∃ e, (c.load locale text).value = (.error e, c)) ∨
      ∃ n, (c.load locale text).value = (.ok n, c.insertAll locale (Properties.lineEntries text)) := by
  unfold load
  cases he : Properties.entries text with
  | error e => exact Or.inl ⟨e, rfl⟩
  | ok es =>
    have hes : es = Properties.lineEntries text := Properties.entriesFrom_eq he
    exact Or.inr ⟨es.length, by rw [← hes]⟩

/-- After a change a place holds the last template that the change wrote to it, or what it held before. -/
theorem at?_change (c : Catalog) (x : Change) (p : Place) :
    (c.change x).at? p.locale p.key = (latest? (c.written x) p).or (c.at? p.locale p.key) := by
  cases x with
  | insert locale key template => exact c.at?_insert locale key template p
  | load locale text =>
    rcases c.load_cases locale text with ⟨e, he⟩ | ⟨n, hn⟩
    · simp only [change, written, he]
      rfl
    · simp only [change, written, hn]
      exact c.at?_insertAll locale _ p

theorem fallback_insertAll (c : Catalog) (locale : Text) (es : List Properties.Entry) :
    (c.insertAll locale es).fallback = c.fallback := by
  induction es generalizing c with
  | nil => rfl
  | cons e es ih => exact ih _

theorem fallback_change (c : Catalog) (x : Change) : (c.change x).fallback = c.fallback := by
  cases x with
  | insert locale key template => rfl
  | load locale text =>
    rcases c.load_cases locale text with ⟨e, he⟩ | ⟨n, hn⟩
    · rw [change, he]
    · rw [change, hn]
      exact c.fallback_insertAll locale _

/-! What a sequence of changes does. -/

theorem at?_changeAll (c : Catalog) (xs : List Change) (p : Place) :
    (c.changeAll xs).at? p.locale p.key = (latest? (c.history xs) p).or (c.at? p.locale p.key) := by
  induction xs generalizing c with
  | nil => rfl
  | cons x xs ih =>
    rw [history, latest?_append, Option.or_assoc, ← at?_change]
    exact ih _

theorem fallback_changeAll (c : Catalog) (xs : List Change) : (c.changeAll xs).fallback = c.fallback := by
  induction xs generalizing c with
  | nil => rfl
  | cons x xs ih => exact (ih _).trans (c.fallback_change x)

theorem at?_changeAll_empty (fallback : Text) (xs : List Change) (locale key : Text) :
    (changeAll { fallback } xs).at? locale key = latest? (history { fallback } xs) ⟨locale, key⟩ := by
  rw [at?_changeAll _ xs ⟨locale, key⟩, at?_empty, Option.or_none]

theorem language_append {lang rest : Text} (hl : '-' ∉ lang ∧ '_' ∉ lang)
    (hr : ∀ c ∈ rest.head?, c = '-' ∨ c = '_') : language (lang ++ rest) = lang := by
  have hlang : ∀ c ∈ lang, (c != '-' && c != '_') = true := by
    intro c hc
    simp only [Bool.and_eq_true, bne_iff_ne]
    exact ⟨by rintro rfl; exact hl.1 hc, by rintro rfl; exact hl.2 hc⟩
  rw [language, List.takeWhile_append_of_pos hlang]
  cases rest with
  | nil => simp
  | cons c rest =>
    rcases hr c rfl with rfl | rfl
    · simp
    · simp

/-- However a catalogue was changed since it was empty, a look-up gives the template written last for the
locale, or else for its language, or else for the fallback locale, and nothing if none of them was written.
A change leaves every place alone that it does not write to. -/
theorem template?_gives_latest (fallback : Text) (xs : List Change) (lang rest key : Text)
    (hl : '-' ∉ lang ∧ '_' ∉ lang) (hr : ∀ c ∈ rest.head?, c = '-' ∨ c = '_') :
    (changeAll { fallback } xs).template? (lang ++ rest) key =
        (latest? (history { fallback } xs) ⟨lang ++ rest, key⟩).or
          ((latest? (history { fallback } xs) ⟨lang, key⟩).or
            (latest? (history { fallback } xs) ⟨fallback, key⟩)) ∧
      ∀ (x : Change) (p : Place), (∀ w ∈ (changeAll { fallback } xs).written x, w.place ≠ p) →
        ((changeAll { fallback } xs).change x).at? p.locale p.key =
          (changeAll { fallback } xs).at? p.locale p.key := by
  constructor
  · rw [template?, language_append hl hr, fallback_changeAll, at?_changeAll_empty, at?_changeAll_empty,
      at?_changeAll_empty]
  · intro x p hp
    rw [at?_change, latest?_eq_none hp, Option.none_or]

/-- French messages over English ones: a file that gives one key twice, then one with a bad line. -/
def frenchOverEnglish : List Change :=
  [.insert ['e', 'n'] ['k'] ['a'], .load ['f', 'r'] ['k', '=', 'b', '\n', 'k', ' ', '=', 'c'],
    .load ['f', 'r'] ['k', '=', 'd', '\n', 'x'], .insert ['f', 'r', '-', 'C', 'A'] ['q'] ['e']]

theorem frenchOverEnglish_gives_latest :
    (changeAll { fallback := ['e', 'n'] } frenchOverEnglish).template? ['f', 'r', '-', 'C', 'A'] ['k'] =
        some ['c'] ∧
      ((changeAll { fallback := ['e', 'n'] } frenchOverEnglish).change
          (.insert ['f', 'r'] ['q'] ['g'])).at? ['f', 'r'] ['k'] =
        (changeAll { fallback := ['e', 'n'] } frenchOverEnglish).at? ['f', 'r'] ['k'] := by
  have h := template?_gives_latest ['e', 'n'] frenchOverEnglish ['f', 'r'] ['-', 'C', 'A'] ['k'] (by decide)
    (by simp)
  exact ⟨h.1.trans (by decide), h.2 (.insert ['f', 'r'] ['q'] ['g']) ⟨['f', 'r'], ['k']⟩ (by decide)⟩

end Catalog

end Lenient
