import Lenient.Text
import Mathlib.Data.List.Induction

/-! Decimal numerals. What is read as the number `n` is the numeral of `n` with zeros in front of it, any
number of them, and nothing else. -/

namespace Lenient.Text

def padded (zeros n : Nat) : Text := List.replicate zeros '0' ++ decimal n

theorem isDigit_of_mem_padded {zeros n : Nat} {c : Char} (h : c ∈ padded zeros n) : c.isDigit = true := by
  rcases List.mem_append.1 h with h | h
  · rw [List.eq_of_mem_replicate h]
    rfl
  · exact Nat.isDigit_of_mem_toDigits (by decide) (by decide) h

theorem padded_ne_nil (zeros n : Nat) : padded zeros n ≠ [] :=
  List.append_ne_nil_of_right_ne_nil _ Nat.toDigits_ne_nil

theorem decimal_of_isDigit {c : Char} (h : c.isDigit = true) : decimal (c.toNat - 48) = [c] := by
  have hc : 48 ≤ c.toNat ∧ c.toNat ≤ 57 := Char.isDigit_iff_toNat.1 h
  have hlt : c.toNat - 48 < 10 := by omega
  rw [decimal, Nat.toDigits_of_lt_base hlt]
  congr 1
  apply Char.toNat_inj.1
  rw [Nat.toNat_digitChar_of_lt_ten hlt]
  omega

/-- One more digit behind the number that was read so far. -/
def appendDigit (acc : Option Nat) (c : Char) : Option Nat :=
  acc.bind fun n => (digit? c).map (n * 10 + ·)

theorem number?_eq_foldl (t : Text) :
    number? t = if t.isEmpty then none else t.foldl appendDigit (some 0) := rfl

theorem foldl_appendDigit_none (t : Text) : t.foldl appendDigit none = none := by
  induction t with
  | nil => rfl
  | cons c t ih => exact ih

theorem foldl_appendDigit {t : Text} {acc n : Nat} :
    t.foldl appendDigit (some acc) = some n ↔
      (∀ c ∈ t, c.isDigit = true) ∧ Nat.ofDigitChars 10 t acc = n := by
  induction t generalizing acc with
  | nil => simp
  | cons c t ih =>
    rw [List.foldl_cons, List.forall_mem_cons, appendDigit, Option.bind_some, digit?]
    by_cases hc : c.isDigit = true
    · rw [if_pos hc, Option.map_some, ih, Nat.ofDigitChars_cons, Nat.mul_comm]
      simp [hc]
    · rw [if_neg hc, Option.map_none, foldl_appendDigit_none]
      simp [hc]

/-- A text is read as a number if it has digits only, and some. -/
theorem number?_eq_some_iff_ofDigitChars {t : Text} {n : Nat} :
    number? t = some n ↔ t ≠ [] ∧ (∀ c ∈ t, c.isDigit = true) ∧ Nat.ofDigitChars 10 t 0 = n := by
  rw [number?_eq_foldl]
  split
  · next he => simp [List.isEmpty_iff.1 he]
  · next he => simp [foldl_appendDigit, List.isEmpty_iff.not.1 he]

/-- Digits are the numeral of the number that they spell, behind zeros. -/
theorem exists_eq_padded {t : Text} (hne : t ≠ []) (h : ∀ c ∈ t, c.isDigit = true) :
    ∃ zeros, t = padded zeros (Nat.ofDigitChars 10 t 0) := by
  -- the last digit is taken off the text as it is off the numeral; a text that spells zero has zeros only
  induction t using List.reverseRecOn with
  | nil => exact absurd rfl hne
  | append_singleton u c ih =>
    have hc : c.isDigit = true := h c (by simp)
    have hval : Nat.ofDigitChars 10 (u ++ [c]) 0 = 10 * Nat.ofDigitChars 10 u 0 + (c.toNat - 48) := by
      rw [Nat.ofDigitChars_append, Nat.ofDigitChars_cons, Nat.ofDigitChars_nil]
      rfl
    have hlt : c.toNat - 48 < 10 := by
      have hc' : 48 ≤ c.toNat ∧ c.toNat ≤ 57 := Char.isDigit_iff_toNat.1 hc
      omega
    rw [hval]
    by_cases hu : u = []
    · refine ⟨0, ?_⟩
      rw [hu, Nat.ofDigitChars_nil, Nat.mul_zero, Nat.zero_add, padded, decimal_of_isDigit hc]
      rfl
    · obtain ⟨zeros, hz⟩ := ih hu fun d hd => h d (List.mem_append_left _ hd)
      rcases Nat.eq_zero_or_pos (Nat.ofDigitChars 10 u 0) with hzero | hpos
      · refine ⟨zeros + 1, ?_⟩
        rw [hzero] at hz
        rw [hzero, Nat.mul_zero, Nat.zero_add, padded, decimal_of_isDigit hc, hz, padded, decimal,
          Nat.toDigits_zero, List.replicate_succ']
      · refine ⟨zeros, ?_⟩
        rw [padded, decimal, ← Nat.toDigits_append_toDigits (by decide) hpos hlt, ← List.append_assoc]
        conv => lhs; rw [hz]
        congr 1
        exact (decimal_of_isDigit hc).symm

theorem number?_padded (zeros n : Nat) : number? (padded zeros n) = some n := by
  rw [number?_eq_some_iff_ofDigitChars]
  refine ⟨padded_ne_nil zeros n, fun _ => isDigit_of_mem_padded, ?_⟩
  rw [padded, Nat.ofDigitChars_append, Nat.ofDigitChars_replicate_zero, Nat.mul_zero]
  exact Nat.ofDigitChars_toDigits (by decide) (by decide)

theorem number?_eq_some_iff {t : Text} {n : Nat} : number? t = some n ↔ ∃ zeros, t = padded zeros n := by
  constructor
  · intro h
    obtain ⟨hne, hdigits, rfl⟩ := number?_eq_some_iff_ofDigitChars.1 h
    exact exists_eq_padded hne hdigits
  · rintro ⟨zeros, rfl⟩
    exact number?_padded zeros n

end Lenient.Text
