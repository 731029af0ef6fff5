import Lenient.Json.Event
import Lenient.Lexeme.Literal
import Lenient.Lexeme.Word

/-! One step of the relaxed JSON reader: what comes next in an object or an array. Commas, quotes
and values may be missing. A step that fills a slot consumes at least one character, unless it
meets a container that is nested too deep. -/

namespace Lenient.Json

open Cursor Lexeme

inductive Content
  | scalar (text : Option Text)
  | container (shape : Shape)
  | tooDeep
  deriving Repr, DecidableEq

/-- What comes next in a container: its end, or a slot with its content. -/
inductive Step
  | close
  | fill (slot : Slot) (content : Content)
  deriving Repr, DecidableEq

variable {σ : Type} [Cursor σ]

def bareword (s : σ) : Text × σ := run (fun c => isSpace c || isStructural c) s

def scalarOf (word : Text) : Option Text :=
  if word = [] ∨ word = ['n', 'u', 'l', 'l'] then none else some word

/-- Reads a name, if there is one. A quoted name may be empty, an unquoted one may not. -/
def name? (s : σ) : Option Text × σ :=
  match literal? backslash .json s with
  | (some name, t) => (some name, t)
  | (none, t) =>
    if (bareword t).1 = [] then
      (none, note (.nameMissing (position (bareword t).2)) (bareword t).2)
    else (bareword t).map some id

def scalar (s : σ) : Option Text × σ :=
  match literal? backslash .json s with
  | (some text, t) => (some text, t)
  | (none, t) => (bareword t).map scalarOf id

/-- Reads a scalar, or the bracket that opens a container. The bracket of a container that would be
nested deeper than `limit` is left unread; `depth` containers are open already. -/
def content (limit depth : Nat) (s : σ) : Content × σ :=
  match (head? (skipSpaces s)).bind Shape.ofBracket? with
  | some shape =>
    if limit ≤ depth then
      (.tooDeep, note (.nestingTooDeep limit (position (skipSpaces s))) (skipSpaces s))
    else (.container shape, advance (skipSpaces s))
  | none => (scalar (skipSpaces s)).map .scalar id

/-- Reads what a property holds: null, unless a colon follows the name. -/
def propertyContent (limit depth : Nat) (s : σ) : Content × σ :=
  match accept ':' s with
  | (true, t) => content limit depth t
  | (false, t) => (.scalar none, t)

def objectStep (limit depth : Nat) (s : σ) : Step × σ :=
  match head? (skipSpaces s) with
  | none => (.close, note .objectUnclosed (skipSpaces s))
  | some c =>
    if c = '\x7d' then (.close, advance (skipSpaces s))
    else
      match name? (skipSpaces s) with
      | (none, t) => (.close, t)
      | (some name, t) => (propertyContent limit depth t).map (.fill (.property name)) id

def isFiller (c : Char) : Bool := isSpace c || c = ':' || c = ','

/-- A closing brace in an array is left for an object around it. -/
def arrayStep (limit depth : Nat) (s : σ) : Step × σ :=
  match head? (skipWhile isFiller s) with
  | none => (.close, note .arrayUnclosed (skipWhile isFiller s))
  | some c =>
    if c = ']' then (.close, advance (skipWhile isFiller s))
    else if c = '\x7d' then (.close, skipWhile isFiller s)
    else (content limit depth (skipWhile isFiller s)).map (.fill .element) id

def step (limit : Nat) (shape : Shape) (slots : List Slot) (s : σ) : Step × σ :=
  match shape with
  | .object => objectStep limit (slots.length + 1) s
  | .array => arrayStep limit (slots.length + 1) s

/-- Reads over the comma behind a filled slot, if there is one. -/
def skipComma (s : σ) : σ :=
  if head? (skipSpaces s) = some ',' then advance (skipSpaces s) else skipSpaces s

theorem forward_bareword (s : σ) : Forward s (bareword s).2 := forward_run _ s

theorem forward_name? (s : σ) : Forward s (name? s).2 := by
  have h := forward_literal? backslash .json s
  unfold name?
  split
  · next ht => rw [ht] at h; exact h
  · next ht =>
    rw [ht] at h
    split
    · exact (h.trans (forward_bareword _)).trans (forward_note _ _)
    · exact h.trans (forward_bareword _)

theorem remaining_name?_lt {s : σ} {name : Text} (h : (name? s).1 = some name) :
    remaining (name? s).2 < remaining s := by
  have hle := (forward_literal? backslash .json s).le
  unfold name? at h ⊢
  split
  · next ht =>
    have := remaining_literal?_lt (congrArg Prod.fst ht)
    rwa [ht] at this
  · next ht =>
    rw [ht] at h hle
    split
    · next hr => simp [hr] at h
    · next hr => exact Nat.lt_of_lt_of_le (remaining_run_lt hr) hle

theorem forward_scalar (s : σ) : Forward s (scalar s).2 := by
  have h := forward_literal? backslash .json s
  unfold scalar
  split
  · next ht => rw [ht] at h; exact h
  · next ht => rw [ht] at h; exact h.trans (forward_bareword _)

theorem remaining_scalar_lt {s : σ} {c : Char} (h : head? s = some c) (hs : isSpace c = false)
    (hc : isStructural c = false) : remaining (scalar s).2 < remaining s := by
  unfold scalar
  split
  · next ht =>
    have := remaining_literal?_lt (congrArg Prod.fst ht)
    rwa [ht] at this
  · next t ht =>
    have hq : t = look s := by
      unfold literal? at ht
      simp only [h] at ht
      split at ht
      · cases ht
      · exact (congrArg Prod.snd ht).symm
    have hh : head? (look s) = some c := by simpa using h
    subst hq
    have hb : (bareword (look s)).1 ≠ [] := run_ne_nil hh (by simp [hs, hc])
    simpa [remaining, bareword] using remaining_run_lt hb

theorem forward_content (limit depth : Nat) (s : σ) : Forward s (content limit depth s).2 := by
  have h := forward_skipSpaces s
  unfold content
  split
  · split
    · exact h.trans (forward_note _ _)
    · exact h.trans (forward_advance _)
  · exact h.trans (forward_scalar _)

theorem remaining_content_lt {limit depth : Nat} {s : σ} {c : Char}
    (h : head? (skipSpaces s) = some c)
    (hc : isStructural c = false ∨ (Shape.ofBracket? c).isSome = true)
    (hd : (content limit depth s).1 ≠ .tooDeep) :
    remaining (content limit depth s).2 < remaining s := by
  have hle := (forward_skipSpaces s).le
  unfold content at hd ⊢
  split
  · split
    · next shape hb hlim => simp [hb, hlim] at hd
    · exact Nat.lt_of_lt_of_le (remaining_advance_lt h) hle
  · next hb =>
    rw [h, Option.bind_some] at hb
    exact Nat.lt_of_lt_of_le
      (remaining_scalar_lt h (head?_skipWhile h) (hc.resolve_right (by simp [hb]))) hle

theorem forward_propertyContent (limit depth : Nat) (s : σ) :
    Forward s (propertyContent limit depth s).2 := by
  have h := forward_accept ':' s
  unfold propertyContent
  split
  · next ht => rw [ht] at h; exact h.trans (forward_content _ _ _)
  · next ht => rw [ht] at h; exact h

theorem forward_objectStep (limit depth : Nat) (s : σ) : Forward s (objectStep limit depth s).2 := by
  have h := forward_skipSpaces s
  have hn := forward_name? (skipSpaces s)
  unfold objectStep
  split
  · exact h.trans (forward_note _ _)
  · split
    · exact h.trans (forward_advance _)
    · split
      · next ht => rw [ht] at hn; exact h.trans hn
      · next ht => rw [ht] at hn; exact (h.trans hn).trans (forward_propertyContent _ _ _)

theorem forward_arrayStep (limit depth : Nat) (s : σ) : Forward s (arrayStep limit depth s).2 := by
  have h := forward_skipWhile isFiller s
  unfold arrayStep
  split
  · exact h.trans (forward_note _ _)
  · split
    · exact h.trans (forward_advance _)
    · split
      · exact h
      · exact h.trans (forward_content _ _ _)

theorem forward_step (limit : Nat) (shape : Shape) (slots : List Slot) (s : σ) :
    Forward s (step limit shape slots s).2 := by
  cases shape with
  | object => exact forward_objectStep _ _ _
  | array => exact forward_arrayStep _ _ _

theorem remaining_objectStep_lt {limit depth : Nat} {s : σ}
    (h : (objectStep limit depth s).1 ≠ .close) :
    remaining (objectStep limit depth s).2 < remaining s := by
  have hle := (forward_skipSpaces s).le
  unfold objectStep at h ⊢
  split
  · next hn => simp [hn] at h
  · next d hd =>
    simp only [hd] at h
    split
    · next hb => simp [hb] at h
    · next hb =>
      rw [if_neg hb] at h
      split
      · next ht => simp [ht] at h
      · next name t ht =>
        have := remaining_name?_lt (congrArg Prod.fst ht)
        rw [ht] at this
        exact Nat.lt_of_le_of_lt (forward_propertyContent _ _ _).le (Nat.lt_of_lt_of_le this hle)

theorem remaining_arrayStep_lt {limit depth : Nat} {s : σ} (h : (arrayStep limit depth s).1 ≠ .close)
    (h' : (arrayStep limit depth s).1 ≠ .fill .element .tooDeep) :
    remaining (arrayStep limit depth s).2 < remaining s := by
  have hle := (forward_skipWhile isFiller s).le
  unfold arrayStep at h h' ⊢
  split
  · next hn => simp [hn] at h
  · next d hd =>
    have hf : isFiller d = false := head?_skipWhile hd
    simp only [hd] at h h'
    split
    · next hb => simp [hb] at h
    · next hb =>
      rw [if_neg hb] at h h'
      split
      · next hb' => simp [hb'] at h
      · next hb' =>
        rw [if_neg hb'] at h'
        have hsp : isSpace d = false := by simp [isFiller] at hf; exact hf.1.1
        have hh : head? (skipSpaces (skipWhile isFiller s)) = some d := by
          rw [head?_eq] at hd
          obtain ⟨rest, hu⟩ := List.head?_eq_some_iff.1 hd
          rw [head?_eq, skipSpaces, unread_skipWhile, hu, List.dropWhile_cons]
          simp [hsp]
        refine Nat.lt_of_lt_of_le (remaining_content_lt hh ?_ fun hc => h' (by simp [hc])) hle
        cases hst : isStructural d with
        | false => exact Or.inl rfl
        | true =>
          right
          simp [isStructural, isFiller, Shape.ofBracket?] at hst hf hb hb' ⊢
          grind

theorem forward_of_step {limit : Nat} {shape : Shape} {slots : List Slot} {s t : σ} {r : Step}
    (h : step limit shape slots s = (r, t)) : Forward s t := by
  have := forward_step limit shape slots s
  rwa [h] at this

/-- A slot that is filled consumes a character, unless its content is too deep. -/
theorem remaining_lt_of_step {limit : Nat} {shape : Shape} {slots : List Slot} {s t : σ} {slot : Slot}
    {c : Content} (h : step limit shape slots s = (.fill slot c, t)) (hc : c ≠ .tooDeep) :
    remaining t < remaining s := by
  cases shape with
  | object =>
    change objectStep _ _ _ = _ at h
    have := remaining_objectStep_lt (by rw [h]; simp)
    rwa [h] at this
  | array =>
    change arrayStep _ _ _ = _ at h
    have := remaining_arrayStep_lt (by rw [h]; simp) (by rw [h]; simp [hc])
    rwa [h] at this

theorem forward_skipComma (s : σ) : Forward s (skipComma s) := by
  unfold skipComma
  split
  · exact (forward_skipSpaces s).trans (forward_advance _)
  · exact forward_skipSpaces s

theorem unread_skipComma_of_head {s : σ} {c : Char} (h : head? s = some c) (hs : isSpace c = false)
    (hc : c ≠ ',') : unread (skipComma s) = unread s := by
  have hk : unread (skipSpaces s) = unread s := by
    rw [head?_eq] at h
    obtain ⟨rest, hu⟩ := List.head?_eq_some_iff.1 h
    rw [skipSpaces, unread_skipWhile, hu, List.dropWhile_cons_of_neg (by simp [hs])]
  have hne : head? (skipSpaces s) ≠ some ',' := by
    rw [head?_eq, hk, ← head?_eq, h]
    simpa using hc
  rw [skipComma, if_neg hne, hk]

end Lenient.Json
