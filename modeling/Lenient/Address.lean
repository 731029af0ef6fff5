import Lenient.Lexeme.Literal
import Lenient.Lexeme.Word
import Lenient.Stream.Reading

/-! Lists of mail addresses. Entries stand between commas or semicolons. A name is a literal in
double quotes or what comes before the next angle bracket or separator, and an email stands in
angle brackets; a name with an at sign behind its first character is an email. Entries with
neither are passed over. -/

namespace Lenient

open Cursor Lexeme

structure Address where
  name : Text
  email : Text
  deriving Repr, DecidableEq

namespace Address

def display (a : Address) : Text :=
  if a.name.isEmpty then '<' :: a.email ++ ['>']
  else if a.email.isEmpty then a.name
  else '\x22' :: a.name ++ ['\x22', ' ', '<'] ++ a.email ++ ['>']

def isVoid (a : Address) : Bool := a.name.isEmpty && a.email.isEmpty

/-- The address of an entry. A name alone that looks like an email is one. -/
def ofEntry (name email : Text) : Address :=
  if email.isEmpty && name.tail.contains '@' then ⟨[], name⟩ else ⟨name, email⟩

variable {σ : Type} [Cursor σ]

def isSeparator (c : Char) : Bool := isSpace c || isDelimiter c

def endsName (c : Char) : Bool := c = '<' || isDelimiter c

def endsEmail (c : Char) : Bool := c = '>'

def readName (s : σ) : Text × σ :=
  if head? s = some '\x22' then
    (literal? backslash .named s).map (fun t => Text.trim (t.getD [])) skipSpaces
  else (run endsName s).map Text.trim id

def readEmail (s : σ) : Text × σ :=
  if head? s = some '<' then (run endsEmail (advance s)).map Text.trim advance else ([], look s)

def readEntry (s : σ) : Address × σ :=
  (readEmail (readName s).2).map (ofEntry (readName s).1) id

theorem forward_readName (s : σ) : Forward s (readName s).2 := by
  unfold readName
  split
  · exact (forward_literal? _ _ _).trans (forward_skipSpaces _)
  · exact forward_run _ _

theorem forward_readEmail (s : σ) : Forward s (readEmail s).2 := by
  unfold readEmail
  split
  · exact ((forward_advance _).trans (forward_run _ _)).trans (forward_advance _)
  · exact forward_look _

theorem forward_readEntry (s : σ) : Forward s (readEntry s).2 :=
  (forward_readName s).trans (forward_readEmail _)

theorem remaining_readEmail_lt {s : σ} (h : head? s = some '<') :
    remaining (readEmail s).2 < remaining s := by
  unfold readEmail
  rw [if_pos h]
  exact Nat.lt_of_le_of_lt ((forward_run _ _).trans (forward_advance _)).le (remaining_advance_lt h)

theorem remaining_readEntry_lt {s : σ} {c : Char} (h : head? s = some c)
    (hc : isSeparator c = false) : remaining (readEntry s).2 < remaining s := by
  have he := (forward_readEmail (readName s).2).le
  by_cases hq : c = '\x22'
  · subst hq
    refine Nat.lt_of_le_of_lt he ?_
    unfold readName
    rw [if_pos h]
    have hl : (literal? backslash .named s).1.isSome = true := by simp [literal?, h, isQuote]
    obtain ⟨t, ht⟩ := Option.isSome_iff_exists.1 hl
    exact Nat.lt_of_le_of_lt (forward_skipSpaces _).le (remaining_literal?_lt ht)
  · have hn : readName s = (run endsName s).map Text.trim id := by
      unfold readName
      rw [if_neg (by rw [h]; simpa using hq)]
    by_cases hb : c = '<'
    · subst hb
      have hu : unread (readName s).2 = unread s := by
        rw [head?_eq] at h
        obtain ⟨rest, hu⟩ := List.head?_eq_some_iff.1 h
        rw [hn, Prod.map_snd, id, unread_run, hu, List.dropWhile_cons]
        simp [endsName]
      have hh : head? (readName s).2 = some '<' := by rw [head?_eq, hu, ← head?_eq, h]
      exact Nat.lt_of_lt_of_le (remaining_readEmail_lt hh) (forward_readName s).le
    · refine Nat.lt_of_le_of_lt he ?_
      rw [hn]
      refine remaining_run_lt (run_ne_nil h ?_)
      simp [isSeparator] at hc
      simp [endsName, hb, hc.2]

/-- Reads entries to the end of the input, or until `stop` holds of the addresses found, newest first.
The answer tells whether it did. -/
def entries (stop : List Address → Bool) (seen : List Address) (s : σ) :
    (List Address × Bool) × σ :=
  match _h : head? (skipWhile isSeparator s) with
  | none => (([], false), skipWhile isSeparator s)
  | some _ =>
    match _he : readEntry (skipWhile isSeparator s) with
    | (a, t) =>
      if a.isVoid then entries stop seen t
      else if stop (a :: seen) then (([a], true), t)
      else (entries stop (a :: seen) t).map (Prod.map (a :: ·) id) id
termination_by remaining s
decreasing_by
  all_goals
    have hlt := remaining_readEntry_lt _h (head?_skipWhile _h)
    rw [_he] at hlt
    exact Nat.lt_of_lt_of_le hlt (forward_skipWhile _ _).le

/-- Reads addresses until `stop` holds of those found, newest first. -/
def read (stop : List Address → Bool) (s : σ) : (List Address × Bool) × σ := entries stop [] s

def parse (t : Text) : Noted (List Address) :=
  Stream.noted ((read (fun _ => false) (Stream.ofText t)).map Prod.fst id)

end Address

end Lenient
