import Lenient.Proofs.Reader.Progress
import Mathlib.Data.Nat.Find

/-! A reading of addresses that is broken off can be taken up again by a new one on the same stream.
The reader keeps nothing between two entries but the place of the cursor, so what is broken off is
broken off between two entries: the addresses that lie ahead of a reading are those that it reports and
those that lie ahead of where it ends. Whoever breaks readings off, and however often, the readings
together report what one reading of the whole text reports, each address once and in order. Each reading
that is broken off consumes what it reports, so in the end one is not. -/

namespace Lenient.Address

open Cursor Lexeme

variable {σ : Type} [Cursor σ] {s s' : σ} {a : Address}

/-- The addresses of the unread text: what a reading reports that is not broken off. -/
def ahead (s : σ) : List Address := (read (fun _ => false) s).1.1

/-- What was found before does not matter to a reading that is not broken off. -/
theorem entries_of_any_seen (seen seen' : List Address) (s : σ) :
    entries (fun _ => false) seen s = entries (fun _ => false) seen' s := by
  fun_induction entries (fun _ => false) seen s generalizing seen' with
  | case1 seen s hn => rw [entries_nil hn]
  | case2 seen s c hc a s' he hv ih => rw [ih seen', entries_void hc he hv]
  | case3 seen s c hc a s' he hv hs => exact absurd hs Bool.false_ne_true
  | case4 seen s c hc a s' he hv hs ih => rw [ih (a :: seen'), entries_cons hc he hv hs]

theorem ahead_nil (h : head? (skipWhile isSeparator s) = none) : ahead s = [] := by
  rw [ahead, read, entries_nil h]

theorem ahead_void {c : Char} (hc : head? (skipWhile isSeparator s) = some c)
    (he : readEntry (skipWhile isSeparator s) = (a, s')) (hv : a.isVoid = true) : ahead s = ahead s' := by
  rw [ahead, read, entries_void hc he hv]
  rfl

theorem ahead_cons {c : Char} (hc : head? (skipWhile isSeparator s) = some c)
    (he : readEntry (skipWhile isSeparator s) = (a, s')) (hv : ¬ a.isVoid = true) :
    ahead s = a :: ahead s' := by
  rw [ahead, read, entries_cons hc he hv Bool.false_ne_true, entries_of_any_seen [a] []]
  rfl

theorem ahead_congr {τ : Type} [Cursor τ] {t : τ} (h : unread s = unread t) : ahead s = ahead t :=
  congrArg Prod.fst (alike_entries (fun _ => false) [] h).answer

theorem ahead_of_unread (h : unread s = []) : ahead s = [] := by
  apply ahead_nil
  rw [head?_eq, unread_skipWhile, h]
  rfl

/-- What lay ahead of a reading is what it reported and what lies ahead still. It ends with the input,
or it was broken off behind an address. -/
structure Accounts (s : σ) (r : (List Address × Bool) × σ) : Prop where
  ahead_eq : ahead s = r.1.1 ++ ahead r.2
  unread_eq : r.1.2 = false → unread r.2 = []
  ne_nil : r.1.2 = true → r.1.1 ≠ []

theorem accounts_entries (stop : List Address → Bool) (seen : List Address) (s : σ) :
    Accounts s (entries stop seen s) := by
  fun_induction entries stop seen s with
  | case1 seen s hn =>
    -- the end of the input was seen behind the last separators
    have hu : unread (skipWhile isSeparator s) = [] := by rwa [head?_eq, List.head?_eq_none_iff] at hn
    refine ⟨?_, fun _ => hu, fun h => absurd h Bool.false_ne_true⟩
    rw [ahead_nil hn, ahead_of_unread hu]
    rfl
  | case2 seen s c hc a s' he hv ih =>
    refine ⟨?_, ih.unread_eq, ih.ne_nil⟩
    rw [ahead_void hc he hv]
    exact ih.ahead_eq
  | case3 seen s c hc a s' he hv hs =>
    exact ⟨ahead_cons hc he hv, fun h => absurd h.symm Bool.false_ne_true, fun _ => List.cons_ne_nil a []⟩
  | case4 seen s c hc a s' he hv hs ih =>
    refine ⟨?_, ih.unread_eq, fun _ => List.cons_ne_nil a _⟩
    rw [ahead_cons hc he hv, ih.ahead_eq]
    rfl

/-! Readings one after the other. The listener of each is a test of the addresses that it has reported,
newest first; where the test holds, the reading is broken off. -/

section Session

variable (listeners : Nat → List Address → Bool) (s : σ)

/-- Where the reading number `i` starts: where the one before it ended. -/
def resumedAt : Nat → σ
  | 0 => s
  | i + 1 => (read (listeners i) (resumedAt i)).2

def reading (i : Nat) : (List Address × Bool) × σ := read (listeners i) (resumedAt listeners s i)

def reported (n : Nat) : List Address := (List.range n).flatMap fun i => (reading listeners s i).1.1

theorem reported_succ (n : Nat) :
    reported listeners s (n + 1) = reported listeners s n ++ (reading listeners s n).1.1 := by
  simp [reported, List.range_succ]

theorem accounts_reading (i : Nat) : Accounts (resumedAt listeners s i) (reading listeners s i) :=
  accounts_entries (listeners i) [] _

/-- However many readings there were, what lay ahead of the first one is reported or lies ahead still. -/
theorem ahead_eq_reported (n : Nat) :
    ahead s = reported listeners s n ++ ahead (resumedAt listeners s n) := by
  induction n with
  | zero => rfl
  | succ n ih =>
    have hstep : ahead (resumedAt listeners s n) =
        (reading listeners s n).1.1 ++ ahead (resumedAt listeners s (n + 1)) :=
      (accounts_reading listeners s n).ahead_eq
    rw [reported_succ, List.append_assoc, ← hstep]
    exact ih

theorem remaining_resumedAt (n : Nat) (h : ∀ i < n, (reading listeners s i).1.2 = true) :
    n + remaining (resumedAt listeners s n) ≤ remaining s := by
  induction n with
  | zero => rw [Nat.zero_add]; exact Nat.le_refl _
  | succ n ih =>
    have hn := ih fun i hi => h i (Nat.lt_succ_of_lt hi)
    have hpos := List.length_pos_iff.2 ((accounts_reading listeners s n).ne_nil (h n (Nat.lt_succ_self n)))
    have hle : (reading listeners s n).1.1.length + remaining (resumedAt listeners s (n + 1)) ≤
        remaining (resumedAt listeners s n) := length_read_le (listeners n) _
    omega

/-- Readings cannot be broken off for ever: a first one is not. -/
theorem exists_last_reading :
    ∃ n, (∀ i < n, (reading listeners s i).1.2 = true) ∧ (reading listeners s n).1.2 = false := by
  have hex : ∃ n, (reading listeners s n).1.2 = false := by
    by_contra h
    simp only [not_exists, Bool.not_eq_false] at h
    have := remaining_resumedAt listeners s (remaining s + 1) fun i _ => h i
    omega
  refine ⟨Nat.find hex, ?_, Nat.find_spec hex⟩
  intro i hi
  rw [← Bool.not_eq_false]
  exact Nat.find_min hex hi

end Session

/-- Readings that are broken off and taken up again lose no address and report none twice. There is a
first reading that is not broken off, and all up to it report together what one reading of the text
does. A reading that is not broken off has come to the end of the input, and one that is broken off has
reported an address. -/
theorem resumed_readings_report_all (s : Stream) (listeners : Nat → List Address → Bool) :
    (∀ i, ((reading listeners s i).1.2 = false → (reading listeners s i).2.unread = []) ∧
        ((reading listeners s i).1.2 = true → (reading listeners s i).1.1 ≠ [])) ∧
      ∃ n, (∀ i < n, (reading listeners s i).1.2 = true) ∧ (reading listeners s n).1.2 = false ∧
        reported listeners s (n + 1) = (parse s.unread).value := by
  refine ⟨fun i => ⟨(accounts_reading listeners s i).unread_eq, (accounts_reading listeners s i).ne_nil⟩, ?_⟩
  obtain ⟨n, hbroken, hlast⟩ := exists_last_reading listeners s
  refine ⟨n, hbroken, hlast, ?_⟩
  have hrest : ahead (resumedAt listeners s (n + 1)) = [] :=
    ahead_of_unread ((accounts_reading listeners s n).unread_eq hlast)
  have hall := ahead_eq_reported listeners s (n + 1)
  rw [hrest, List.append_nil] at hall
  have hparse : ahead s = (parse s.unread).value := ahead_congr (Stream.unread_ofText_unread s)
  exact hall.symm.trans hparse

end Lenient.Address
