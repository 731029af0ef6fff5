import Lenient.Json.Step
import Lenient.Proofs.Json.Grammar
import Lenient.Proofs.Lexeme.Reading

/-! One step of the reader on text of the grammar. In front of an entry the step fills the entry's slot,
and its content is the scalar that is written there or the container whose bracket is; in front of a
closing bracket the step leaves the container. Blanks in front make no difference to a step, so its
place is told by what is unread behind them. -/

namespace Lenient.Json

open Cursor Lexeme

theorem charAt_toNat (c : Char) : charAt c.toNat = c := by
  have h : c.toNat.isValidChar := c.valid
  rw [charAt, if_pos h, Char.ofNat_toNat]

theorem charAt_codePoint {ds : Text} {c : Char} (h : CodePoint ds c) : charAt (hexNumber ds) = c := by
  rcases h.char with hc | ⟨hlo, hhi, rfl⟩
  · rw [← hc, charAt_toNat]
  · have hv : ¬ (hexNumber ds).isValidChar := by
      unfold Nat.isValidChar
      omega
    rw [charAt, if_neg hv]

theorem jsonUnescape_control {c d : Char}
    (h : (c, d) ∈ [('n', '\n'), ('r', '\r'), ('t', '\t'), ('f', '\x0c')]) :
    jsonUnescape c = d ∧ c ≠ 'u' := by
  simp only [List.mem_cons, Prod.mk.injEq, List.not_mem_nil, or_false] at h
  rcases h with ⟨rfl, rfl⟩ | ⟨rfl, rfl⟩ | ⟨rfl, rfl⟩ | ⟨rfl, rfl⟩ <;> decide

theorem jsonUnescape_itself {c : Char} (h : c ∉ ['n', 'r', 't', 'f', 'u']) :
    jsonUnescape c = c ∧ c ≠ 'u' := by
  simp only [List.mem_cons, List.not_mem_nil, or_false, not_or] at h
  obtain ⟨hn, hr, ht, hf, hu⟩ := h
  simp [jsonUnescape, unescape, hn, hr, ht, hf, hu]

theorem quote_ne_backslash {q : Char} (hq : isQuote q = true) : q ≠ backslash := by
  rintro rfl
  cases hq

/-- A character that is neither a blank nor structural. -/
structure Ordinary (c : Char) : Prop where
  not_space : isSpace c = false
  not_structural : isStructural c = false

theorem ordinary_of_isQuote {q : Char} (h : isQuote q = true) : Ordinary q := by
  simp only [isQuote, Bool.or_eq_true, decide_eq_true_eq] at h
  rcases h with rfl | rfl
  · exact ⟨rfl, rfl⟩
  · exact ⟨rfl, rfl⟩

theorem Ordinary.ofBracket? {c : Char} (h : Ordinary c) : Shape.ofBracket? c = none := by
  have := h.not_structural
  simp only [isStructural, Bool.or_eq_false_iff, decide_eq_false_iff_not] at this
  simp [Shape.ofBracket?, this]

theorem Quoted.ordinary {t m : Text} (h : Quoted t m) : ∃ c w, t = c :: w ∧ Ordinary c := by
  obtain ⟨hq, -⟩ := h
  exact ⟨_, _, rfl, ordinary_of_isQuote hq⟩

theorem Bareword.ordinary {t : Text} (h : Bareword t) : ∃ c w, t = c :: w ∧ Ordinary c := by
  cases t with
  | nil => exact absurd rfl h.ne_nil
  | cons c w =>
    obtain ⟨hs, hc⟩ := h.plain c List.mem_cons_self
    exact ⟨c, w, rfl, hs, hc⟩

theorem Named.ordinary {n name : Text} (h : Named n name) : ∃ c w, n = c :: w ∧ Ordinary c := by
  cases h with
  | quoted quoted => exact quoted.ordinary
  | bare bare => exact bare.ordinary

theorem Scalar.ordinary {t : Text} {m : Option Text} (h : Scalar t m) :
    ∃ c w, t = c :: w ∧ Ordinary c := by
  cases h with
  | quoted quoted => exact quoted.ordinary
  | bare bare => exact bare.ordinary
  | null => exact ⟨_, _, rfl, rfl, rfl⟩

/-- The first character of an entry is skipped nowhere and closes nothing. -/
structure Starts (c : Char) : Prop where
  not_filler : isFiller c = false
  ne_bracket : c ≠ ']'
  ne_brace : c ≠ '\x7d'

theorem Starts.not_space {c : Char} (h : Starts c) : isSpace c = false := by
  have := h.not_filler
  simp only [isFiller, Bool.or_eq_false_iff] at this
  exact this.1.1

theorem Ordinary.starts {c : Char} (h : Ordinary c) : Starts c := by
  have := h.not_structural
  simp only [isStructural, Bool.or_eq_false_iff, decide_eq_false_iff_not] at this
  exact ⟨by simp [isFiller, h.not_space, this], by simp [this], by simp [this]⟩

theorem starts_left (shape : Shape) : Starts shape.left := by
  cases shape
  · exact ⟨rfl, by decide, by decide⟩
  · exact ⟨rfl, by decide, by decide⟩

theorem ofBracket?_left (shape : Shape) : Shape.ofBracket? shape.left = some shape := by
  cases shape <;> rfl

/-- What follows an unquoted text: a blank or a structural character. -/
def Bounded (r : Text) : Prop := ∃ c w, r = c :: w ∧ (isSpace c || isStructural c) = true

theorem Bounded.append {a r : Text} (ha : Blanks a) (hr : Bounded r) : Bounded (a ++ r) := by
  cases a with
  | nil => exact hr
  | cons c a => exact ⟨c, a ++ r, rfl, by simp [ha c List.mem_cons_self]⟩

/-- Skipping more than blanks is the same if the first other character stops it too. -/
theorem dropWhile_isFiller {t w : Text} {c : Char} (h : bared t = c :: w) (hc : isFiller c = false) :
    t.dropWhile isFiller = c :: w := by
  induction t with
  | nil => cases h
  | cons a t ih =>
    by_cases ha : isSpace a = true
    · rw [bared, List.dropWhile_cons_of_pos ha] at h
      rw [List.dropWhile_cons_of_pos (by simp [isFiller, ha]), ih h]
    · rw [bared, List.dropWhile_cons_of_neg ha] at h
      cases h
      rw [List.dropWhile_cons_of_neg (by simp [hc])]

/-- What is left behind an entry: blanks are skipped, and one comma behind them. -/
def afterComma (r : Text) : Text :=
  if (bared r).head? = some ',' then (bared r).tail else bared r

theorem afterComma_bared (r : Text) : afterComma (bared r) = afterComma r := by
  unfold afterComma
  rw [bared_bared]

variable {σ : Type} [Cursor σ] {s : σ} {r : Text}

section Lexemes

variable {q : Char} {t m : Text}

theorem reads_literalRest_piece {c : Char} {w r' : Text} (h : unread s = backslash :: w)
    (hp : Reads (escaped .json (advance s)) (some [c]) r')
    (hr : ∀ u : σ, unread u = r' → Reads (literalRest q backslash .json u) m r) :
    Reads (literalRest q backslash .json s) (c :: m) r := by
  rw [literalRest_escaped h hp]
  exact (hr _ hp.rest).onto

/-- The inside of a literal is read as what it stands for, up to the first quote that no backslash
precedes. -/
theorem reads_literalRest_inside (hq : isQuote q = true) (hi : Inside q t m)
    (h : unread s = t ++ q :: r) : Reads (literalRest q backslash .json s) m r := by
  induction hi generalizing s with
  | nil => exact reads_literalRest_quote h (quote_ne_backslash hq)
  | plain ne_quote ne_escape rest ih =>
    rw [literalRest_plain h ne_escape ne_quote]
    exact (ih (unread_advance_of h)).onto
  | control letter rest ih =>
    obtain ⟨hd, hu⟩ := jsonUnescape_control letter
    have hp := reads_escaped (unread_advance_of h) hu
    rw [hd] at hp
    exact reads_literalRest_piece h hp fun u hu => ih hu
  | @code ds c t m point rest ih =>
    have h' : unread (advance s) = 'u' :: ds ++ (t ++ q :: r) := by
      rw [unread_advance_of h]
      simp
    have hp := reads_escaped_hex h' point.four point.digits
    rw [charAt_codePoint point] at hp
    exact reads_literalRest_piece h hp fun u hu => ih hu
  | itself no_letter rest ih =>
    obtain ⟨hd, hu⟩ := jsonUnescape_itself no_letter
    have hp := reads_escaped (unread_advance_of h) hu
    rw [hd] at hp
    exact reads_literalRest_piece h hp fun u hu => ih hu

theorem reads_literal?_quoted (hl : Quoted t m) (h : unread s = t ++ r) :
    Reads (literal? backslash .json s) (some m) r := by
  obtain ⟨hq, hi⟩ := hl
  rw [List.cons_append, List.cons_append, List.append_assoc] at h
  exact reads_literal? h hq (reads_literalRest_inside hq hi (unread_advance_of h))

theorem reads_bareword {w : Text} (hw : Bareword w) (hb : Bounded r) (h : unread s = w ++ r) :
    literal? backslash .json s = (none, look s) ∧ Reads (bareword (look s)) w r := by
  obtain ⟨d, r', rfl, hd⟩ := hb
  obtain ⟨c, w', rfl, -⟩ := hw.ordinary
  refine ⟨literal?_of_not_quote h (hw.not_quote c rfl), ?_⟩
  apply reads_run (by rw [unread_look, h]) _ hd
  intro x hx
  simp [hw.plain x hx]

theorem reads_name? {n name : Text} (hn : Named n name) (hb : Bounded r) (h : unread s = n ++ r) :
    Reads (name? s) (some name) r := by
  unfold name?
  cases hn with
  | quoted quoted =>
    have hl := reads_literal?_quoted quoted h
    rw [hl.eq]
    exact ⟨rfl, hl.rest⟩
  | bare bare =>
    obtain ⟨hl, hw⟩ := reads_bareword bare hb h
    rw [hl]
    simp only [hw.answer, bare.ne_nil, if_false]
    exact hw.map some

theorem bareword_null : Bareword ['n', 'u', 'l', 'l'] :=
  ⟨by simp, by simp [isQuote], by simp [isSpace, isStructural]⟩

theorem reads_scalar {m : Option Text} (hs : Scalar t m) (hb : Bounded r) (h : unread s = t ++ r) :
    Reads (scalar s) m r := by
  unfold scalar
  cases hs with
  | quoted quoted =>
    have hl := reads_literal?_quoted quoted h
    rw [hl.eq]
    exact ⟨rfl, hl.rest⟩
  | bare bare ne_null =>
    obtain ⟨hl, hw⟩ := reads_bareword bare hb h
    rw [hl]
    have := hw.map scalarOf
    rwa [scalarOf, if_neg (by simp [bare.ne_nil, ne_null])] at this
  | null =>
    obtain ⟨hl, hw⟩ := reads_bareword bareword_null hb h
    rw [hl]
    exact hw.map scalarOf

end Lexemes

section Steps

variable {limit depth : Nat} {c : Char} {w : Text} {a : Content}

theorem unread_skipComma (s : σ) : unread (skipComma s) = afterComma (unread s) := by
  unfold skipComma afterComma
  rw [head?_eq, unread_skipSpaces]
  split
  · rw [unread_advance, unread_skipSpaces]
  · rw [unread_skipSpaces]

theorem reads_content_scalar {t : Text} {m : Option Text} (hs : Scalar t m) (hb : Bounded r)
    (h : bared (unread s) = t ++ r) : Reads (content limit depth s) (.scalar m) r := by
  obtain ⟨c, w, rfl, hc⟩ := hs.ordinary
  have hu : unread (skipSpaces s) = c :: w ++ r := by rw [unread_skipSpaces, h]
  unfold content
  rw [head?_of_unread hu, Option.bind_some, hc.ofBracket?]
  exact (reads_scalar hs hb hu).map Content.scalar

theorem reads_content_none (hs : isStructural c = true) (hc : Shape.ofBracket? c = none)
    (h : bared (unread s) = c :: w) : Reads (content limit depth s) (.scalar none) (c :: w) := by
  have hu : unread (skipSpaces s) = c :: w := by rw [unread_skipSpaces, h]
  have hq : isQuote c = false := by
    cases hq : isQuote c with
    | false => rfl
    | true => rw [(ordinary_of_isQuote hq).not_structural] at hs; cases hs
  have hb : Reads (bareword (look (skipSpaces s))) [] (c :: w) :=
    reads_run (by rw [unread_look, hu]; rfl) nofun (by simp [hs])
  unfold content
  rw [head?_of_unread hu, Option.bind_some, hc]
  simp only [scalar, literal?_of_not_quote hu hq]
  exact (hb.map scalarOf).map Content.scalar

theorem reads_content_container {shape : Shape} (h : bared (unread s) = shape.left :: r)
    (hd : depth < limit) : Reads (content limit depth s) (.container shape) r := by
  have hu : unread (skipSpaces s) = shape.left :: r := by rw [unread_skipSpaces, h]
  unfold content
  rw [head?_of_unread hu, Option.bind_some, ofBracket?_left]
  simp only [if_neg (Nat.not_le_of_lt hd)]
  exact ⟨rfl, unread_advance_of hu⟩

theorem reads_propertyContent_colon (h : bared (unread s) = ':' :: w)
    (ha : ∀ u : σ, unread u = w → Reads (content limit depth u) a r) :
    Reads (propertyContent limit depth s) a r := by
  have hk := reads_accept_true h
  unfold propertyContent
  rw [hk.eq]
  exact ha _ hk.rest

theorem reads_propertyContent_none (h : (bared (unread s)).head? ≠ some ':') :
    Reads (propertyContent limit depth s) (.scalar none) (unread s) := by
  have hk := reads_accept_false h
  unfold propertyContent
  rw [hk.eq]
  exact ⟨rfl, hk.rest⟩

/-- In front of a name, a step fills the property with what is read behind the name. -/
theorem reads_step_property {slots : List Slot} {n name w : Text} (hn : Named n name) (hb : Bounded w)
    (h : bared (unread s) = n ++ w)
    (ha : ∀ u : σ, unread u = w → Reads (propertyContent limit (slots.length + 1) u) a r) :
    Reads (step limit .object slots s) (.fill (.property name) a) r := by
  have hu : unread (skipSpaces s) = n ++ w := by rw [unread_skipSpaces, h]
  have hr := reads_name? hn hb hu
  obtain ⟨c, n', rfl, hc⟩ := hn.ordinary
  change Reads (objectStep limit (slots.length + 1) s) _ r
  unfold objectStep
  rw [head?_of_unread hu]
  simp only [if_neg hc.starts.ne_brace]
  rw [hr.eq]
  exact (ha _ hr.rest).map _

theorem reads_step_element {slots : List Slot} (hc : Starts c) (h : bared (unread s) = c :: w)
    (ha : ∀ u : σ, bared (unread u) = c :: w → Reads (content limit (slots.length + 1) u) a r) :
    Reads (step limit .array slots s) (.fill .element a) r := by
  have hu : unread (skipWhile isFiller s) = c :: w := by
    rw [unread_skipWhile, dropWhile_isFiller h hc.not_filler]
  change Reads (arrayStep limit (slots.length + 1) s) _ r
  unfold arrayStep
  rw [head?_of_unread hu]
  simp only [if_neg hc.ne_bracket, if_neg hc.ne_brace]
  exact (ha _ (by rw [hu, bared_cons hc.not_space])).map _

theorem reads_step_close {shape : Shape} {slots : List Slot} (h : bared (unread s) = shape.right :: r) :
    Reads (step limit shape slots s) .close r := by
  cases shape with
  | object =>
    have hu : unread (skipSpaces s) = '\x7d' :: r := by rw [unread_skipSpaces, h]; rfl
    change Reads (objectStep limit (slots.length + 1) s) _ r
    unfold objectStep
    rw [head?_of_unread hu]
    exact ⟨rfl, unread_advance_of hu⟩
  | array =>
    have hu : unread (skipWhile isFiller s) = ']' :: r := by
      rw [unread_skipWhile, dropWhile_isFiller h rfl]
      rfl
    change Reads (arrayStep limit (slots.length + 1) s) _ r
    unfold arrayStep
    rw [head?_of_unread hu]
    exact ⟨rfl, unread_advance_of hu⟩

end Steps

end Lenient.Json
