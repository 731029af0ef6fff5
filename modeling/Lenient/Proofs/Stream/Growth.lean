import Lenient.Proofs.Stream.Fetching

/-! How large the ring of a stream gets. A character that is fetched needs a slot of its own beside one for
each character that is retained then and one for the character before these; the ring grows if it has fewer,
by half or to what is needed. So the capacity is the result of folding this rule over the characters that
were fetched, and the tape tells which were, and what was retained at each of them. A ring has slots enough
for one character and the one before it, which is all that is needed while no mark is open; marks that are
opened over text that was fetched before cost nothing, and beyond its first size a ring is at most half as
large again as what the marks ever pinned down. -/

namespace Lenient

namespace Tape

/-- A character that is fetched: its offset, from where on text is retained then, and whether a mark is
open. -/
structure Pull where
  offset : Nat
  oldest : Nat
  marked : Bool
  deriving Repr, DecidableEq

/-- How many slots there have to be for the character: from one before the retained text up to it. -/
def Pull.width (p : Pull) : Nat := p.offset - (p.oldest - 1) + 1

/-- What a look fetches if `top` characters were fetched before. -/
def pull (t : Tape) (top : Nat) : List Pull :=
  if t.offset = top ∧ top < t.text.length then [⟨top, t.oldest, !t.marks.isEmpty⟩] else []

/-- What an operation fetches. A step looks where it starts and where it comes to. -/
def pulls (t : Tape) (top : Nat) : Op → List Pull
  | .peek | .finished => t.pull top
  | .advance => t.pull top ++ t.advance.pull (top + (t.pull top).length)
  | .mark | .marked | .consumed | .start | .commit | .rewind | .drop => []

def pulled (t : Tape) (top : Nat) : List Op → List Pull
  | [] => []
  | op :: rest => t.pulls top op ++ pulled (t.perform op).2 (top + (t.pulls top op).length) rest

def widest (ps : List Pull) : Nat := (ps.map Pull.width).foldr max 0

theorem pull_eq_nil {t : Tape} {top : Nat} (h : t.text.length ≤ top ∨ t.offset < top) : t.pull top = [] := by
  apply if_neg
  omega

/-- Where no mark is open, text is retained from the cursor on, and a look fetches what is under it. -/
theorem width_of_mem_pull {t : Tape} {top : Nat} {p : Pull} (h : p ∈ t.pull top) :
    (t.marks = [] → p.marked = false) ∧ (p.marked = false → p.width ≤ 2) := by
  unfold pull at h
  split at h
  · next hl =>
    obtain rfl := List.mem_singleton.1 h
    simp only [Bool.not_eq_eq_eq_not, Bool.not_false, List.isEmpty_iff]
    refine ⟨id, fun hm => ?_⟩
    simp only [Pull.width, oldest, hm, List.getLastD_nil]
    omega
  · exact absurd h List.not_mem_nil

theorem width_of_mem_pulls {t : Tape} {top : Nat} {op : Op} {p : Pull} (h : p ∈ t.pulls top op) :
    (t.marks = [] → p.marked = false) ∧ (p.marked = false → p.width ≤ 2) := by
  cases op with
  | peek => exact width_of_mem_pull h
  | finished => exact width_of_mem_pull h
  | advance =>
    rcases List.mem_append.1 h with h | h
    · exact width_of_mem_pull h
    · -- a step leaves the marks as they are
      exact width_of_mem_pull (t := t.advance) h
  | _ => exact absurd h List.not_mem_nil

theorem width_of_mem_pulled {t : Tape} {top : Nat} {ops : List Op} {p : Pull} (h : p ∈ t.pulled top ops)
    (hp : p.marked = false) : p.width ≤ 2 := by
  induction ops generalizing t top with
  | nil => exact absurd h List.not_mem_nil
  | cons op rest ih =>
    rcases List.mem_append.1 h with h | h
    · exact (width_of_mem_pulls h).2 hp
    · exact ih h

end Tape

/-- The capacity of a ring that had `capacity` slots when `width` were needed. -/
def grown (capacity width : Nat) : Nat := if width ≤ capacity then capacity else max (capacity * 3 / 2) width

theorem le_grown (capacity width : Nat) : capacity ≤ grown capacity width := by
  unfold grown
  split <;> omega

theorem grown_le (capacity width : Nat) : grown capacity width ≤ max capacity (3 * width / 2) := by
  unfold grown
  split <;> omega

theorem grown_of_le {capacity width : Nat} (h : width ≤ capacity) : grown capacity width = capacity :=
  if_pos h

def grownOver (capacity : Nat) (ps : List Tape.Pull) : Nat :=
  ps.foldl (fun capacity p => grown capacity p.width) capacity

theorem grownOver_append (capacity : Nat) (ps qs : List Tape.Pull) :
    grownOver capacity (ps ++ qs) = grownOver (grownOver capacity ps) qs := List.foldl_append

theorem le_grownOver (capacity : Nat) (ps : List Tape.Pull) : capacity ≤ grownOver capacity ps := by
  induction ps generalizing capacity with
  | nil => exact Nat.le_refl _
  | cons p ps ih => exact Nat.le_trans (le_grown capacity p.width) (ih _)

theorem grownOver_le (capacity : Nat) (ps : List Tape.Pull) :
    grownOver capacity ps ≤ max capacity (3 * Tape.widest ps / 2) := by
  induction ps generalizing capacity with
  | nil => exact Nat.le_max_left _ _
  | cons p ps ih =>
    have hfirst := grown_le capacity p.width
    have hrest := ih (grown capacity p.width)
    have hwide : Tape.widest (p :: ps) = max p.width (Tape.widest ps) := rfl
    change grownOver (grown capacity p.width) ps ≤ _
    rw [hwide]
    omega

theorem grownOver_of_width_le {capacity : Nat} {ps : List Tape.Pull} (h : ∀ p ∈ ps, p.width ≤ capacity) :
    grownOver capacity ps = capacity := by
  induction ps with
  | nil => rfl
  | cons p ps ih =>
    obtain ⟨hp, hps⟩ := List.forall_mem_cons.1 h
    change grownOver (grown capacity p.width) ps = capacity
    rw [grown_of_le hp]
    exact ih hps

theorem Ring.capacity_reserve (r : Ring) (first last : Nat) :
    (r.reserve first last).capacity = grown r.capacity (last - first + 1) := by
  have htwo : 2 ≤ r.capacity := r.two_le
  unfold Ring.reserve grown
  split
  · rfl
  · rw [capacity_resize]
    omega

namespace Stream

/-- From `s` to `t` the characters `ps` were fetched, and the ring has grown as much as they needed. -/
structure Pulls (s t : Stream) (ps : List Tape.Pull) : Prop where
  offset_eq : ps.map Tape.Pull.offset = List.range' s.source.taken ps.length
  taken_eq : t.source.taken = s.source.taken + ps.length
  capacity_eq : t.ring.capacity = grownOver s.ring.capacity ps

section Pulls

variable {s t u : Stream} {ps qs : List Tape.Pull}

theorem Pulls.of_eq (hs : t.source = s.source) (hr : t.ring = s.ring) : s.Pulls t [] :=
  ⟨rfl, by rw [hs]; rfl, by rw [hr]; rfl⟩

theorem Pulls.trans (h : s.Pulls t ps) (h' : t.Pulls u qs) : s.Pulls u (ps ++ qs) := by
  refine ⟨?_, ?_, ?_⟩
  · rw [List.map_append, h.offset_eq, h'.offset_eq, h.taken_eq, List.length_append,
      List.range'_append_1]
  · rw [h'.taken_eq, h.taken_eq, List.length_append, Nat.add_assoc]
  · rw [h'.capacity_eq, h.capacity_eq, grownOver_append]

theorem pull_eq_singleton (he : s.cursor.offset = s.source.taken)
    (hlt : s.source.taken < s.source.text.length) :
    s.tape.pull s.source.taken = [⟨s.source.taken, s.retained, !s.tape.marks.isEmpty⟩] := by
  rw [← oldest_tape]
  exact if_pos ⟨he, hlt⟩

theorem pulls_fill (s : Stream) : s.Pulls s.fill (s.tape.pull s.source.taken) := by
  have hc := s.cursor_le
  unfold fill
  split
  · next h =>
    rw [Bool.or_eq_true, decide_eq_true_eq] at h
    rw [Tape.pull_eq_nil (h.imp_left fun he => Nat.le_of_eq (taken_of_ended he).symm)]
    exact Pulls.of_eq rfl rfl
  · next h =>
    rw [Bool.or_eq_true, decide_eq_true_eq, not_or] at h
    unfold Stream.pull
    split
    · next hp =>
      rw [Tape.pull_eq_nil (Or.inl (s.source.pending_eq_nil_iff.1 hp))]
      exact ⟨rfl, (Source.request_of_nil hp).2, rfl⟩
    · next c rest hp =>
      have hlt : s.source.taken < s.source.text.length := by
        rw [← Nat.not_le, ← s.source.pending_eq_nil_iff, hp]
        exact List.cons_ne_nil c rest
      rw [pull_eq_singleton (by omega) hlt]
      refine ⟨rfl, Source.taken_request_of_cons hp, ?_⟩
      change (s.roomy.set _ _).capacity = _
      rw [Ring.capacity_set]
      exact s.ring.capacity_reserve _ _

theorem tape_step {c : Char} (h : s.cursor.offset < s.source.taken) :
    (s.step c h).tape = s.tape.advance := by
  have hlt : s.cursor.offset + 1 ≤ s.source.text.length := Nat.le_trans h s.taken_le
  simp [tape, step, Tape.advance, Nat.min_eq_left hlt]

/-- A step of a stream that was looked at fetches what the second look of the tape's step does. -/
theorem pulls_forth (hf : s.fill = s) : s.Pulls s.forth (s.tape.advance.pull s.source.taken) := by
  by_cases h : s.cursor.offset < s.source.taken
  · have hstep := pulls_fill (s.step (s.ring.get s.cursor.offset) h)
    rw [tape_step h] at hstep
    rw [forth, dif_pos h]
    exact ⟨hstep.offset_eq, hstep.taken_eq, hstep.capacity_eq⟩
  · -- nothing is under the cursor, so the text is at its end
    have hend : s.cursor.offset = s.source.text.length := by
      apply offset_eq_of_current?_fill
      rw [hf, current?, if_neg h]
    have hnil : s.tape.advance.pull s.source.taken = [] :=
      Tape.pull_eq_nil (Or.inl (hend ▸ s.cursor_le))
    rw [forth, dif_neg h, hnil]
    exact Pulls.of_eq rfl rfl

theorem pulls_advance (s : Stream) : s.Pulls s.advance.2 (s.tape.pulls s.source.taken .advance) := by
  have hfill := s.pulls_fill
  have hforth := pulls_forth s.fill_fill
  rw [tape_fill, hfill.taken_eq] at hforth
  exact hfill.trans hforth

theorem ring_commit (s : Stream) : s.commit.ring = s.ring := by
  unfold commit; split <;> rfl

theorem ring_rewind (s : Stream) : s.rewind.ring = s.ring := by
  unfold rewind; split <;> rfl

theorem pulls_perform (s : Stream) (op : Op) :
    s.Pulls (s.perform op).2 (s.tape.pulls s.source.taken op) := by
  cases op with
  | peek => exact s.pulls_fill
  | finished => exact s.pulls_fill
  | advance => exact s.pulls_advance
  | commit => exact Pulls.of_eq s.source_commit s.ring_commit
  | rewind => exact Pulls.of_eq s.source_rewind s.ring_rewind
  | drop => exact Pulls.of_eq s.source_rewind s.ring_rewind
  | _ => exact Pulls.of_eq rfl rfl

theorem pulls_play (s : Stream) (ops : List Op) :
    s.Pulls (s.play ops).2 (s.tape.pulled s.source.taken ops) := by
  induction ops generalizing s with
  | nil => exact Pulls.of_eq rfl rfl
  | cons op rest ih =>
    have hop := s.pulls_perform op
    have hrest := ih (s.perform op).2
    rw [(s.perform_tape op).2, hop.taken_eq] at hrest
    exact hop.trans hrest

end Pulls

theorem capacity_le_play (s : Stream) (ops : List Op) : s.ring.capacity ≤ (s.play ops).2.ring.capacity := by
  rw [(s.pulls_play ops).capacity_eq]
  exact le_grownOver _ _

theorem capacity_perform {s : Stream} (h : s.tape.marks = []) (op : Op) :
    (s.perform op).2.ring.capacity = s.ring.capacity := by
  rw [(s.pulls_perform op).capacity_eq]
  apply grownOver_of_width_le
  intro p hp
  obtain ⟨hmarked, hwidth⟩ := Tape.width_of_mem_pulls hp
  exact Nat.le_trans (hwidth (hmarked h)) s.ring.two_le

/-- Of the characters that a script fetches, the one that needs the most slots bounds the ring: behind its
first size it has at most half as many slots again. It never shrinks, does not grow while no mark is open,
and keeps its first size if no character is fetched while one is. -/
theorem capacity_bounded_by_pins (capacity : Nat) (w : Text) (ops : List Op) :
    (Tape.pulled { text := w } 0 ops).map Tape.Pull.offset =
        List.range ((sized capacity w).play ops).2.source.taken ∧
      ((sized capacity w).play ops).2.ring.capacity ≤
        max (max 2 capacity) (3 * Tape.widest (Tape.pulled { text := w } 0 ops) / 2) ∧
      (∀ more, ((sized capacity w).play ops).2.ring.capacity ≤
        (((sized capacity w).play ops).2.play more).2.ring.capacity) ∧
      ((Tape.play { text := w } ops).2.marks = [] → ∀ op,
        (((sized capacity w).play ops).2.perform op).2.ring.capacity =
          ((sized capacity w).play ops).2.ring.capacity) ∧
      ((∀ p ∈ Tape.pulled { text := w } 0 ops, p.marked = false) →
        ((sized capacity w).play ops).2.ring.capacity = max 2 capacity) := by
  have hpulls : (sized capacity w).Pulls ((sized capacity w).play ops).2 (Tape.pulled { text := w } 0 ops) :=
    pulls_play _ ops
  have hfirst : (sized capacity w).ring.capacity = max 2 capacity := Ring.capacity_blank capacity
  have hcapacity := hpulls.capacity_eq
  rw [hfirst] at hcapacity
  refine ⟨?_, ?_, fun more => capacity_le_play _ more, ?_, ?_⟩
  · rw [hpulls.offset_eq, hpulls.taken_eq, List.range_eq_range']
    change List.range' 0 _ = List.range' 0 (0 + _)
    rw [Nat.zero_add]
  · rw [hcapacity]
    exact grownOver_le _ _
  · intro hmarks
    rw [← tape_sized capacity w, ← (play_tape _ ops).2] at hmarks
    exact capacity_perform hmarks
  · intro hunmarked
    rw [hcapacity]
    apply grownOver_of_width_le
    intro p hp
    exact Nat.le_trans (Tape.width_of_mem_pulled hp (hunmarked p hp)) (Nat.le_max_left 2 capacity)

/-- Marks are opened, rewound and closed over characters that were fetched before, one of them in front of
the next character to fetch. -/
def markedOverFetched : List Op :=
  [.advance, .advance, .mark, .peek, .mark, .consumed, .rewind, .commit, .advance, .mark, .finished, .drop]

theorem markedOverFetched_keeps_capacity :
    (Tape.play { text := ['a', 'b', 'c', 'd'] } markedOverFetched).2.marks = [] ∧
      (∀ p ∈ Tape.pulled { text := ['a', 'b', 'c', 'd'] } 0 markedOverFetched, p.marked = false) ∧
      ((sized 0 ['a', 'b', 'c', 'd']).play markedOverFetched).2.ring.capacity = 2 ∧
      (((sized 0 ['a', 'b', 'c', 'd']).play markedOverFetched).2.perform .advance).2.ring.capacity = 2 := by
  have hmarks : (Tape.play { text := ['a', 'b', 'c', 'd'] } markedOverFetched).2.marks = [] := by decide
  have hpulled : ∀ p ∈ Tape.pulled { text := ['a', 'b', 'c', 'd'] } 0 markedOverFetched, p.marked = false := by
    decide
  obtain ⟨-, -, -, hstill, hfirst⟩ := capacity_bounded_by_pins 0 ['a', 'b', 'c', 'd'] markedOverFetched
  exact ⟨hmarks, hpulled, hfirst hpulled, (hstill hmarks .advance).trans (hfirst hpulled)⟩

end Stream

end Lenient
