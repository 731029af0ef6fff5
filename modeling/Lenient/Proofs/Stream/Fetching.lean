import Lenient.Proofs.Stream.Refinement

/-! What a stream has fetched follows from the offsets that were looked at, and from nothing else. The
cursor, the frontier of the fetched text and the end of the source move independently, and a rewind
leaves the cursor far behind the frontier. A look there is served by the ring: the source is asked only
by a look at the frontier itself. So after any script the stream has fetched all up to the highest offset
looked at, each character by one request, and has asked once more if it looked at the end. -/

namespace Lenient

namespace Tape

/-- The offsets that an operation looks at. A step looks where it starts and where it comes to. -/
def looks (t : Tape) : Op → List Nat
  | .peek | .finished => [t.offset]
  | .advance => [t.offset, t.advance.offset]
  | .mark | .marked | .consumed | .start | .commit | .rewind | .drop => []

def looked (t : Tape) : List Op → List Nat
  | [] => []
  | op :: rest => t.looks op ++ looked (t.perform op).2 rest

theorem text_perform (t : Tape) (op : Op) : (t.perform op).2.text = t.text := by cases op <;> rfl

end Tape

/-- How many characters of a text of length `n` looks at the offsets `looks` need: all up to the highest
offset, or none without a look. -/
def reach (n : Nat) (looks : List Nat) : Nat := looks.max?.elim 0 fun o => min n (o + 1)

theorem max?_concat (os : List Nat) (o : Nat) :
    (os ++ [o]).max? = some (os.max?.elim o fun p => max p o) := by
  cases h : os.max? with
  | none => simp [List.max?_eq_none_iff.1 h]
  | some p =>
    obtain ⟨hmem, hle⟩ := List.max?_eq_some_iff.1 h
    refine List.max?_eq_some_iff.2 ⟨?_, ?_⟩
    · rcases Nat.le_total p o with hpo | hpo
      · simp [Nat.max_eq_right hpo]
      · simp [Nat.max_eq_left hpo, hmem]
    · intro b hb
      rcases List.mem_append.1 hb with hb | hb
      · exact Nat.le_trans (hle b hb) (Nat.le_max_left p o)
      · rw [List.mem_singleton.1 hb]
        exact Nat.le_max_right p o

theorem reach_concat (n : Nat) (os : List Nat) (o : Nat) :
    reach n (os ++ [o]) = max (reach n os) (min n (o + 1)) := by
  unfold reach
  rw [max?_concat]
  cases os.max? with
  | none => simp
  | some p => simp only [Option.elim_some]; omega

theorem reach_append_of_le {os ps : List Nat} (n : Nat) (h : ∀ o ∈ ps, ∃ p ∈ os, o ≤ p) :
    reach n (os ++ ps) = reach n os := by
  have hmax : (os ++ ps).max? = os.max? := by
    cases hm : os.max? with
    | none =>
      obtain rfl := List.max?_eq_none_iff.1 hm
      have hps : ps = [] := List.eq_nil_iff_forall_not_mem.2 fun o ho => by simpa using h o ho
      rw [hps]
      rfl
    | some p =>
      obtain ⟨hmem, hle⟩ := List.max?_eq_some_iff.1 hm
      refine List.max?_eq_some_iff.2 ⟨List.mem_append_left ps hmem, ?_⟩
      intro o ho
      rcases List.mem_append.1 ho with ho | ho
      · exact hle o ho
      · obtain ⟨q, hq, hoq⟩ := h o ho
        exact Nat.le_trans hoq (hle q hq)
  rw [reach, reach, hmax]

namespace Source

theorem pending_eq_nil_iff (s : Source) : s.pending = [] ↔ s.text.length ≤ s.taken := by
  rw [← s.drop_taken, List.drop_eq_nil_iff]

theorem taken_request (s : Source) (h : s.taken ≤ s.text.length) :
    s.request.taken = min s.text.length (s.taken + 1) := by
  cases hp : s.pending with
  | nil =>
    have := s.pending_eq_nil_iff.1 hp
    rw [(request_of_nil hp).2]
    omega
  | cons c rest =>
    have : ¬ s.text.length ≤ s.taken := fun hle => by simp [s.pending_eq_nil_iff.2 hle] at hp
    rw [taken_request_of_cons hp]
    omega

theorem eq_of_counts {a b : Source} (ht : a.text = b.text) (hk : a.taken = b.taken)
    (hr : a.requests = b.requests) : a = b := by
  have hp : a.pending = b.pending := by rw [← a.drop_taken, ← b.drop_taken, ht, hk]
  cases a
  cases b
  simp_all

end Source

namespace Stream

/-- All that a look may do: nothing, or one request to the source at the frontier. -/
theorem fill_cases (s : Stream) :
    s.fill = s ∧ (s.ended = true ∨ s.cursor.offset < s.source.taken) ∨
    s.ended = false ∧ s.cursor.offset = s.source.taken ∧ s.fill.source = s.source.request ∧
      (s.fill.ended = true ↔ s.source.taken = s.source.text.length) := by
  have hc := s.cursor_le
  have ht := s.taken_le
  unfold fill
  split
  · next h => exact Or.inl ⟨rfl, by simpa using h⟩
  · next h =>
    simp only [Bool.or_eq_true, decide_eq_true_eq, not_or, Bool.not_eq_true] at h
    refine Or.inr ⟨h.1, by omega, ?_⟩
    unfold pull
    split
    · next hp =>
      have := s.source.pending_eq_nil_iff.1 hp
      exact ⟨rfl, by simp only [exhaust, true_iff]; omega⟩
    · next c rest hp =>
      have : ¬ s.source.text.length ≤ s.source.taken := fun hle => by
        simp [s.source.pending_eq_nil_iff.2 hle] at hp
      exact ⟨rfl, by simp only [store, h.1, Bool.false_eq_true, false_iff]; omega⟩

theorem taken_of_ended {s : Stream} (h : s.ended = true) : s.source.taken = s.source.text.length := by
  have := s.source.pending_eq_nil_iff.1 (s.pending_of_ended h)
  have := s.taken_le
  omega

/-- A look fetches the character under the cursor, unless it was fetched before. -/
theorem taken_fill (s : Stream) :
    s.fill.source.taken = max s.source.taken (min s.source.text.length (s.cursor.offset + 1)) := by
  have hc := s.cursor_le
  have ht := s.taken_le
  rcases s.fill_cases with ⟨hf, he | hlt⟩ | ⟨-, hce, hs, -⟩
  · have := taken_of_ended he
    rw [hf]
    omega
  · rw [hf]
    omega
  · rw [hs, Source.taken_request _ ht]
    omega

theorem ended_fill (s : Stream) :
    s.fill.ended = true ↔ s.ended = true ∨ s.cursor.offset = s.source.text.length := by
  have ht := s.taken_le
  rcases s.fill_cases with ⟨hf, he | hlt⟩ | ⟨he, hce, -, hend⟩
  · simp [hf, he]
  · have hne : s.cursor.offset ≠ s.source.text.length := by omega
    simp [hf, hne]
  · rw [hend, hce, he]
    simp

theorem source_commit (s : Stream) : s.commit.source = s.source := by
  unfold commit; split <;> rfl

theorem ended_commit (s : Stream) : s.commit.ended = s.ended := by
  unfold commit; split <;> rfl

theorem source_rewind (s : Stream) : s.rewind.source = s.source := by
  unfold rewind; split <;> rfl

theorem ended_rewind (s : Stream) : s.rewind.ended = s.ended := by
  unfold rewind; split <;> rfl

theorem fill_fill (s : Stream) : s.fill.fill = s.fill := by
  have hle := s.cursor_le_length
  apply (fill_cases s.fill).elim And.left
  rintro ⟨he, hc, -, -⟩
  exfalso
  have hne : s.cursor.offset ≠ s.source.text.length := fun h => by
    simp [s.ended_fill.2 (Or.inr h)] at he
  rw [taken_fill, cursor_fill] at hc
  omega

/-- The stream has fetched what looks at the offsets `looks` need: it has asked once for each character,
and once more if one of the looks was at the end of the text. -/
structure Fetched (looks : List Nat) (s : Stream) : Prop where
  taken_eq : s.source.taken = reach s.source.text.length looks
  requests_eq : s.source.requests = s.source.taken + if s.source.text.length ∈ looks then 1 else 0
  ended_iff : s.ended = true ↔ s.source.text.length ∈ looks

section Fetched

variable {looks : List Nat} {s t : Stream}

theorem fetched_sized (capacity : Nat) (w : Text) : (sized capacity w).Fetched [] :=
  ⟨rfl, rfl, by simp [sized]⟩

theorem Fetched.of_eq (h : s.Fetched looks) (hs : t.source = s.source) (he : t.ended = s.ended) :
    t.Fetched looks :=
  ⟨by rw [hs]; exact h.taken_eq, by rw [hs]; exact h.requests_eq, by rw [hs, he]; exact h.ended_iff⟩

theorem Fetched.fill (h : s.Fetched looks) : s.fill.Fetched (looks ++ [s.cursor.offset]) := by
  have ht := s.taken_le
  have hended : s.fill.ended = true ↔ s.fill.source.text.length ∈ looks ++ [s.cursor.offset] := by
    rw [ended_fill, h.ended_iff, text_fill, List.mem_append, List.mem_singleton, eq_comm]
  refine ⟨by rw [taken_fill, text_fill, reach_concat, h.taken_eq], ?_, hended⟩
  -- the one request beyond the fetched characters is the one that found the end
  simp only [← hended]
  have hreq := h.requests_eq
  simp only [← h.ended_iff] at hreq
  rcases s.fill_cases with ⟨hf, -⟩ | ⟨he, hce, hs, hend⟩
  · rw [hf]
    exact hreq
  · have hr : s.source.request.requests = s.source.requests + 1 := rfl
    rw [if_neg (by simp [he])] at hreq
    simp only [hs, hr, Source.taken_request _ ht, hend]
    split <;> omega

theorem Fetched.forth (h : s.Fetched looks) (hf : s.fill = s) :
    s.forth.Fetched (looks ++ [s.tape.advance.offset]) := by
  have ht := s.taken_le
  by_cases hlt : s.cursor.offset < s.source.taken
  · have hoff : s.tape.advance.offset = (s.step (s.ring.get s.cursor.offset) hlt).cursor.offset := by
      simp only [Tape.advance, tape, step, Position.offset_step]
      omega
    have hstep : (s.step (s.ring.get s.cursor.offset) hlt).Fetched looks := h.of_eq rfl rfl
    rw [hoff, Stream.forth, dif_pos hlt]
    exact hstep.fill
  · -- at the end the step stays where it is, and looks there a second time
    have hend : s.cursor.offset = s.source.text.length := by
      apply offset_eq_of_current?_fill
      rw [hf, current?, if_neg hlt]
    have hoff : s.tape.advance.offset = s.cursor.offset := by
      simp only [Tape.advance, tape]
      omega
    have hagain := h.fill
    rw [hf] at hagain
    rw [hoff, Stream.forth, dif_neg hlt]
    exact hagain

theorem Fetched.perform (h : s.Fetched looks) (op : Op) :
    (s.perform op).2.Fetched (looks ++ s.tape.looks op) := by
  have quiet {t : Stream} (hs : t.source = s.source) (he : t.ended = s.ended) :
      t.Fetched (looks ++ []) := by
    rw [List.append_nil]
    exact h.of_eq hs he
  cases op with
  | peek => exact h.fill
  | finished => exact h.fill
  | advance =>
    have := h.fill.forth s.fill_fill
    rw [tape_fill, List.append_assoc] at this
    exact this
  | mark => exact quiet rfl rfl
  | marked => exact quiet rfl rfl
  | consumed => exact quiet rfl rfl
  | start => exact quiet rfl rfl
  | commit => exact quiet s.source_commit s.ended_commit
  | rewind => exact quiet s.source_rewind s.ended_rewind
  | drop => exact quiet s.source_rewind s.ended_rewind

theorem Fetched.play (h : s.Fetched looks) (ops : List Op) :
    (s.play ops).2.Fetched (looks ++ s.tape.looked ops) := by
  induction ops generalizing s looks with
  | nil => rw [Tape.looked, List.append_nil]; exact h
  | cons op rest ih =>
    have := ih (h.perform op)
    rw [(s.perform_tape op).2, List.append_assoc] at this
    exact this

end Fetched

theorem text_play (s : Stream) (ops : List Op) : (s.play ops).2.source.text = s.source.text := by
  induction ops generalizing s with
  | nil => rfl
  | cons op rest ih =>
    have htape := congrArg Tape.text (s.perform_tape op).2
    rw [Tape.text_perform] at htape
    exact (ih (s.perform op).2).trans htape

theorem le_of_mem_looked {s : Stream} {ops : List Op} {o : Nat} (h : o ∈ s.tape.looked ops) :
    o ≤ s.source.text.length := by
  induction ops generalizing s with
  | nil => simp [Tape.looked] at h
  | cons op rest ih =>
    have htext : (s.perform op).2.source.text = s.source.text := s.text_play [op]
    have hle := s.cursor_le_length
    rcases List.mem_append.1 h with h | h
    · cases op <;> simp [Tape.looks, Tape.advance, tape] at h <;> omega
    · rw [← (s.perform_tape op).2] at h
      rw [← htext]
      exact ih h

/-- Looks that go no further than earlier ones do not ask the source. -/
theorem Fetched.source_play {looks : List Nat} {s : Stream} {more : List Op} (h : s.Fetched looks)
    (hle : ∀ p ∈ looks, p ≤ s.source.text.length)
    (hlow : ∀ o ∈ s.tape.looked more, ∃ p ∈ looks, o ≤ p) :
    (s.play more).2.source = s.source := by
  have hnew := h.play more
  have htext := s.text_play more
  have htaken : (s.play more).2.source.taken = s.source.taken := by
    rw [hnew.taken_eq, h.taken_eq, htext, reach_append_of_le _ hlow]
  -- the end is looked at now only if it was before
  have hend : s.source.text.length ∈ looks ++ s.tape.looked more ↔ s.source.text.length ∈ looks := by
    rw [List.mem_append, or_iff_left_iff_imp]
    intro hmem
    obtain ⟨p, hp, hge⟩ := hlow _ hmem
    rwa [Nat.le_antisymm hge (hle p hp)]
  apply Source.eq_of_counts htext htaken
  simp only [hnew.requests_eq, h.requests_eq, htaken, htext, hend]

/-- A source of the text `w` that was asked for what looks at the offsets `looks` need. -/
structure AskedFor (w : Text) (looks : List Nat) (source : Source) : Prop where
  taken_eq : source.taken = looks.max?.elim 0 fun o => min w.length (o + 1)
  requests_eq : source.requests = source.taken + if w.length ∈ looks then 1 else 0
  pending_eq : source.pending = w.drop source.taken

/-- A script makes a new stream fetch what it looks at: every character up to the highest offset looked
at is handed out, in order and by one request each, and one more request is made if a look was at the end
of the text. From then on, and as long as looks go no further than earlier ones did, whatever is rewound
and read again, the source is not asked. -/
theorem play_asks_once (capacity : Nat) (w : Text) (ops more : List Op) :
    AskedFor w (Tape.looked { text := w } ops) ((sized capacity w).play ops).2.source ∧
    (w.length ∈ Tape.looked { text := w } ops ∨
        (∀ o ∈ (Tape.play { text := w } ops).2.looked more,
          ∃ p ∈ Tape.looked { text := w } ops, o ≤ p) →
      (((sized capacity w).play ops).2.play more).2.source =
        ((sized capacity w).play ops).2.source) := by
  have hf := (fetched_sized capacity w).play ops
  have hle : ∀ p ∈ Tape.looked { text := w } ops, p ≤ w.length := fun p hp =>
    le_of_mem_looked (s := sized capacity w) hp
  have htext : ((sized capacity w).play ops).2.source.text = w := text_play _ ops
  have htape : ((sized capacity w).play ops).2.tape = (Tape.play { text := w } ops).2 :=
    ((sized capacity w).play_tape ops).2
  rw [tape_sized, List.nil_append] at hf
  rw [← htape]
  generalize ((sized capacity w).play ops).2 = s at *
  subst htext
  refine ⟨⟨hf.taken_eq, hf.requests_eq, s.source.drop_taken.symm⟩, ?_⟩
  rintro (hend | hlow)
  · exact hf.source_play hle fun o ho => ⟨_, hend, le_of_mem_looked ho⟩
  · exact hf.source_play hle hlow

/-- Two steps, each inside one more mark, and both marks rewound. -/
def thereAndBack : List Op := [.mark, .advance, .mark, .advance, .rewind, .rewind]

/-- The same two steps again. -/
def thereAgain : List Op := [.peek, .advance, .advance]

theorem thereAgain_asks_nothing :
    (∀ o ∈ (Tape.play { text := ['a', 'b', 'c'] } thereAndBack).2.looked thereAgain,
      ∃ p ∈ Tape.looked { text := ['a', 'b', 'c'] } thereAndBack, o ≤ p) ∧
    (((sized 1 ['a', 'b', 'c']).play thereAndBack).2.play thereAgain).2.source =
      ((sized 1 ['a', 'b', 'c']).play thereAndBack).2.source := by
  have hlow : ∀ o ∈ (Tape.play { text := ['a', 'b', 'c'] } thereAndBack).2.looked thereAgain,
      ∃ p ∈ Tape.looked { text := ['a', 'b', 'c'] } thereAndBack, o ≤ p := by decide
  exact ⟨hlow, (play_asks_once 1 ['a', 'b', 'c'] thereAndBack thereAgain).2 (Or.inr hlow)⟩

end Stream

end Lenient
