import Lenient.Proofs.Json.Escaping
import Lenient.Proofs.Json.StepReading
import Lenient.Stream.Reading

/-! Escaping is undone by reading. Between two quotes of either kind an escaped text is read as the text that it
was made from, whatever follows the second quote: no quote inside the escaped text ends the literal early, for a
backslash stands in front of it that is not escaped itself. A text that needs no quotes is escaped as it is and
read as it is, up to the colon behind it. -/

namespace Lenient.Json

open Cursor Lexeme

/-- Whether a text escapes what follows it: it ends in a backslash that is not escaped itself. -/
def escapesNext (t : Text) : Bool := t.foldl (fun escaped c => !escaped && c = backslash) false

theorem escapesNext_concat (t : Text) (c : Char) :
    escapesNext (t ++ [c]) = (!escapesNext t && c = backslash) := by
  rw [escapesNext, List.foldl_append]
  rfl

theorem escapesNext_plain {c : Char} (h : c ≠ backslash) (t : Text) : escapesNext (c :: t) = escapesNext t := by
  simp [escapesNext, h]

theorem escapesNext_pair (c : Char) (t : Text) : escapesNext (backslash :: c :: t) = escapesNext t := by
  simp [escapesNext]

theorem escapesNext_append {w : Text} (h : backslash ∉ w) (t : Text) : escapesNext (w ++ t) = escapesNext t := by
  induction w with
  | nil => rfl
  | cons c w ih =>
    obtain ⟨hc, hw⟩ := List.ne_and_not_mem_of_not_mem_cons h
    rw [List.cons_append, escapesNext_plain hc.symm, ih hw]

theorem exists_backslash_of_escapesNext {t : Text} (h : escapesNext t = true) :
    ∃ u, t = u ++ [backslash] ∧ escapesNext u = false := by
  rcases List.eq_nil_or_concat t with rfl | ⟨u, c, rfl⟩
  · cases h
  · rw [List.concat_eq_append, escapesNext_concat] at h
    simp only [Bool.and_eq_true, Bool.not_eq_true', decide_eq_true_eq] at h
    exact ⟨u, by rw [List.concat_eq_append, h.2], h.1⟩

theorem CodePoint.notMem {ds : Text} {c q : Char} (h : CodePoint ds c) (hq : hexDigit? q = none) : q ∉ ds := by
  intro hmem
  have hsome := h.digits q hmem
  rw [hq] at hsome
  cases hsome

theorem hexDigit?_of_isQuote {q : Char} (h : isQuote q = true) : hexDigit? q = none := by
  simp only [isQuote, Bool.or_eq_true, decide_eq_true_eq] at h
  rcases h with rfl | rfl
  · decide
  · decide

/-- Behind an escape and the character that it escapes, a quote is escaped by what stands between. -/
theorem escapesNext_of_pair {q c : Char} {t before after : Text} (hq : q ≠ backslash)
    (ht : backslash :: c :: t = before ++ q :: after)
    (h : ∀ b, t = b ++ q :: after → escapesNext b = true) : escapesNext before = true := by
  cases before with
  | nil => exact absurd (List.head_eq_of_cons_eq ht).symm hq
  | cons d before =>
    cases before with
    | nil =>
      rw [← List.head_eq_of_cons_eq ht]
      rfl
    | cons e before =>
      simp only [List.cons_append, List.cons.injEq] at ht
      obtain ⟨rfl, rfl, ht⟩ := ht
      rw [escapesNext_pair]
      exact h before ht

theorem exists_behind {q : Char} {w t before after : Text} (hw : q ∉ w) (h : w ++ t = before ++ q :: after) :
    ∃ b, before = w ++ b ∧ t = b ++ q :: after := by
  rcases List.append_eq_append_iff.1 h with ⟨b, hb, ht⟩ | ⟨w', rfl, ht⟩
  · exact ⟨b, hb, ht⟩
  · cases w' with
    | nil => exact ⟨[], by simp, ht.symm⟩
    | cons d w' =>
      rw [List.head_eq_of_cons_eq ht] at hw
      simp at hw

/-- Inside a literal, what stands in front of a quote like its own escapes the quote. -/
theorem Inside.escapesNext_before {q : Char} {t m before after : Text} (hq : isQuote q = true)
    (h : Inside q t m) (ht : t = before ++ q :: after) : escapesNext before = true := by
  have hback := quote_ne_backslash hq
  induction h generalizing before with
  | nil => simp at ht
  | plain ne_quote ne_escape rest ih =>
    cases before with
    | nil => exact absurd (List.head_eq_of_cons_eq ht) ne_quote
    | cons c before =>
      simp only [List.cons_append, List.cons.injEq] at ht
      obtain ⟨rfl, ht⟩ := ht
      rw [escapesNext_plain ne_escape]
      exact ih ht
  | control letter rest ih => exact escapesNext_of_pair hback ht fun b hb => ih hb
  | @code ds c t m point rest ih =>
    -- the four digits are neither quotes nor escapes
    have hquote : q ∉ ds := point.notMem (hexDigit?_of_isQuote hq)
    have hescape : backslash ∉ ds := point.notMem (by decide)
    refine escapesNext_of_pair hback ht fun b hb => ?_
    obtain ⟨b', rfl, hb'⟩ := exists_behind hquote hb
    rw [escapesNext_append hescape]
    exact ih hb'
  | itself no_letter rest ih => exact escapesNext_of_pair hback ht fun b hb => ih hb

/-! No control character is left. -/

theorem not_isControl_hexChar (n : Nat) : isControl (hexChar n) = false := by
  have h : ∀ m, m < 16 → isControl (Nat.digitChar m) = false := by decide
  exact h (n % 16) (Nat.mod_lt n (by decide))

theorem not_isControl_escapeLetter? {c d : Char} (h : escapeLetter? c = some d) : isControl d = false := by
  have hd : d ∈ ['\x27', '\x22', '\\', 't', 'n', 'r', 'f'] := by grind [escapeLetter?]
  have hall : ∀ d ∈ ['\x27', '\x22', '\\', 't', 'n', 'r', 'f'], isControl d = false := by simp [isControl]
  exact hall d hd

theorem not_isControl_escapeChar {space : Text} (hs : ∀ c ∈ space, isControl c = false) (c : Char) :
    ∀ d ∈ escapeChar space c, isControl d = false := by
  have hback : isControl '\\' = false := by decide
  have hu : isControl 'u' = false := by decide
  unfold escapeChar
  split
  · exact hs
  · split
    · next d hd => simp [hback, not_isControl_escapeLetter? hd]
    · split
      · simp [hback, hu, hex4, not_isControl_hexChar]
      · next hc => simpa using hc

theorem not_isControl_escape (spaces : Bool) (t : Text) : ∀ c ∈ escape spaces t, isControl c = false := by
  have hs : ∀ c ∈ ['\\', ' '], isControl c = false := by simp [isControl]
  cases t with
  | nil => simp [escape]
  | cons c t =>
    intro d hd
    rw [escape, List.mem_append, List.mem_flatMap] at hd
    rcases hd with hd | ⟨e, -, hd⟩
    · exact not_isControl_escapeChar hs c d hd
    · refine not_isControl_escapeChar ?_ e d hd
      cases spaces
      · simp [isControl]
      · exact hs

section Reading

variable {σ : Type} [Cursor σ] {s : σ} {r : Text}

theorem reads_literal?_escape {q : Char} (hq : isQuote q = true) (spaces : Bool) (t : Text)
    (h : unread s = q :: escape spaces t ++ q :: r) : Reads (literal? backslash .json s) (some t) r := by
  apply reads_literal?_quoted (.intro hq (inside_escape hq spaces t))
  rw [h, List.append_assoc, List.singleton_append]

theorem reads_bareword_colon {w : Text} (hw : Bareword w) (h : unread s = w ++ ':' :: r) :
    Reads (bareword s) w (':' :: r) := by
  apply reads_run h _ rfl
  intro c hc
  simp [hw.plain c hc]

/-- Between quotes of either kind an escaped text is read as the text that it was made from, and the cursor
stops behind the second quote. The escaped text has no control character, and each quote in it stands behind a
backslash that is not escaped itself. A text that needs no quotes is escaped as it is, does not start with a
quote, and is read as it is, up to the colon behind it. -/
theorem reading_undoes_escaping (spaces : Bool) (t : Text) :
    (∀ (s : σ) (q : Char) (r : Text), isQuote q = true → unread s = q :: escape spaces t ++ q :: r →
      Reads (literal? backslash .json s) (some t) r ∧
        (position (literal? backslash .json s).2).offset =
          (position s).offset + (escape spaces t).length + 2) ∧
    (∀ c ∈ escape spaces t, 32 ≤ c.toNat) ∧
    (∀ (q : Char) (before after : Text), isQuote q = true → escape spaces t = before ++ q :: after →
      ∃ b, before = b ++ [backslash] ∧ escapesNext b = false) ∧
    (needsQuotes t = false → t ≠ [] →
      escape spaces t = t ∧ (∀ c ∈ t.head?, isQuote c = false) ∧
        ∀ (s : σ) (r : Text), unread s = t ++ ':' :: r →
          Reads (bareword s) t (':' :: r) ∧
            (position (bareword s).2).offset = (position s).offset + t.length) := by
  refine ⟨?_, ?_, ?_, ?_⟩
  · intro s q r hq hu
    have hr := reads_literal?_escape hq spaces t hu
    have hsplit : unread s = (q :: escape spaces t ++ [q]) ++ r := by
      rw [hu, List.append_assoc, List.singleton_append]
    refine ⟨hr, ?_⟩
    rw [hr.offset_eq (forward_literal? backslash .json s) hsplit]
    simp only [List.length_append, List.length_cons, List.length_nil]
    omega
  · intro c hc
    simpa [isControl] using not_isControl_escape spaces t c hc
  · intro q before after hq ht
    exact exists_backslash_of_escapesNext ((inside_escape hq spaces t).escapesNext_before hq ht)
  · intro hn hne
    have hw := bareword_of_needsQuotes hn hne
    refine ⟨escape_eq_self hn, hw.not_quote, fun s r hu => ?_⟩
    have hr := reads_bareword_colon hw hu
    exact ⟨hr, hr.offset_eq (forward_bareword s) hu⟩

end Reading

/-- A space first and last, a control character in front of a hexadecimal digit, a backslash in front of a `u`,
and a quote of either kind. -/
def oddText : Text := [' ', '\x01', 'a', '\\', 'u', '\x27', '\x22', ' ']

theorem oddText_read_from_escape :
    (literal? backslash .json
        (Stream.ofText ('\x22' :: escape false oddText ++ '\x22' :: ['\x22', 'u']))).1 = some oddText ∧
      needsQuotes ['n', '.', '\u00a0'] = false ∧
      (bareword (Stream.ofText (['n', '.', '\u00a0'] ++ ':' :: [':']))).1 = ['n', '.', '\u00a0'] := by
  have hquoted := (reading_undoes_escaping false oddText).1
    (Stream.ofText ('\x22' :: escape false oddText ++ '\x22' :: ['\x22', 'u'])) '\x22' ['\x22', 'u'] rfl rfl
  have hplain : needsQuotes ['n', '.', '\u00a0'] = false := by decide
  have hbare := ((reading_undoes_escaping true ['n', '.', '\u00a0']).2.2.2 hplain (by decide)).2.2
    (Stream.ofText (['n', '.', '\u00a0'] ++ ':' :: [':'])) [':'] rfl
  exact ⟨hquoted.1.answer, hplain, hbare.1.answer⟩

end Lenient.Json
