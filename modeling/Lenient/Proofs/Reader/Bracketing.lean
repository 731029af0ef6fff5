/-! Sequences of events in which some open what others close. `unclosed` has the events that are still to
come for what a sequence has left open. From it follows how deep each thing that is opened is nested, and
what it means to cut a sequence off in front of the first thing that is nested too deep: the sequence ends
there, and everything open is closed. -/

namespace Lenient

/-- What an event does: it opens something, closes what was opened last, or does neither. -/
inductive Turn (ε : Type)
  /-- Opens what the event `ending` closes. -/
  | opens (ending : ε)
  | closes
  | stays

class Bracketed (ε : Type) where
  turn : ε → Turn ε
  /-- Whether what an event closes is a level of nesting. -/
  closesLevel : ε → Bool

namespace Turn

variable {ε : Type}

def apply (endings : List ε) : Turn ε → List ε
  | opens ending => ending :: endings
  | closes => endings.tail
  | stays => endings

end Turn

namespace Bracketed

variable {ε : Type} [Bracketed ε]

/-- The endings of what the events leave open, innermost first. -/
def unclosed (es : List ε) : List ε := es.foldl (fun endings e => (turn e).apply endings) []

def depth (es : List ε) : Nat := (unclosed es).countP closesLevel

def Opens (e : ε) : Prop := ∃ ending, turn e = .opens ending ∧ closesLevel ending = true

/-- Some level that the events open is number `n` of those that are open there, the outermost being
number one. -/
def Nests (es : List ε) (n : Nat) : Prop :=
  ∃ before e after, es = before ++ e :: after ∧ Opens e ∧ n = depth before + 1

def NestsWithin (cap : Nat) (es : List ε) : Prop := ∀ n, Nests es n → n ≤ cap

/-- The events `es` are the events `full` up to `e`, the first event that opens a level deeper than `cap`.
In its place they have `filler`, and behind that nothing but the endings of all that is open. -/
structure CutBefore (cap : Nat) (filler full before : List ε) (e : ε) (after es : List ε) : Prop where
  full_eq : full = before ++ e :: after
  opens : Opens e
  depth_eq : depth before = cap
  first : NestsWithin cap before
  cut_eq : es = before ++ filler ++ unclosed before

@[simp] theorem unclosed_concat (es : List ε) (e : ε) :
    unclosed (es ++ [e]) = (turn e).apply (unclosed es) := by
  simp [unclosed]

theorem nestsWithin_nil (cap : Nat) : NestsWithin cap ([] : List ε) := by
  rintro n ⟨before, e, after, h, -, -⟩
  simp at h

/-- What an event at the end of a sequence opens is the only level that it adds. -/
theorem nests_concat {es : List ε} {e : ε} {n : Nat} (h : Nests (es ++ [e]) n) :
    Nests es n ∨ Opens e ∧ n = depth es + 1 := by
  obtain ⟨before, e', after, heq, ho, hn⟩ := h
  rcases List.eq_nil_or_concat after with rfl | ⟨front, last, rfl⟩
  · obtain ⟨rfl, hlast⟩ := List.append_inj' heq rfl
    obtain rfl : e = e' := by simpa using hlast
    exact Or.inr ⟨ho, hn⟩
  · rw [List.concat_eq_append, ← List.cons_append, ← List.append_assoc] at heq
    obtain ⟨rfl, -⟩ := List.append_inj' heq rfl
    exact Or.inl ⟨before, e', front, rfl, ho, hn⟩

section NestsWithin

variable {cap : Nat} {es fs : List ε} {e : ε}

theorem NestsWithin.concat (h : NestsWithin cap es) (hd : depth es + 1 ≤ cap) :
    NestsWithin cap (es ++ [e]) := by
  intro n hn
  rcases nests_concat hn with hn | ⟨-, rfl⟩
  · exact h n hn
  · exact hd

theorem NestsWithin.append (h : NestsWithin cap es) (hf : ∀ e ∈ fs, ¬ Opens e) :
    NestsWithin cap (es ++ fs) := by
  induction fs generalizing es with
  | nil => rwa [List.append_nil]
  | cons f fs ih =>
    obtain ⟨hflat, hrest⟩ := List.forall_mem_cons.1 hf
    rw [List.append_cons]
    apply ih _ hrest
    intro n hn
    rcases nests_concat hn with hn | ⟨ho, -⟩
    · exact h n hn
    · exact absurd ho hflat

theorem nests_of_opens (es : List ε) (ho : Opens e) (fs : List ε) :
    Nests (es ++ e :: fs) (depth es + 1) :=
  ⟨es, e, fs, rfl, ho, rfl⟩

theorem Nests.append {n : Nat} (h : Nests es n) : Nests (es ++ fs) n := by
  obtain ⟨before, e, after, rfl, ho, hn⟩ := h
  exact ⟨before, e, after ++ fs, by simp, ho, hn⟩

theorem CutBefore.not_nestsWithin {filler full before after es : List ε}
    (h : CutBefore cap filler full before e after es) : ¬ NestsWithin cap full := by
  intro hw
  have hn : Nests full (cap + 1) := by
    rw [h.full_eq, ← h.depth_eq]
    exact nests_of_opens before h.opens after
  have := hw _ hn
  omega

end NestsWithin

end Bracketed

end Lenient
