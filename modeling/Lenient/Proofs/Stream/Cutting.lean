import Lenient.Proofs.Stream.Refinement

/-! What a stream gives of the text behind the cursor. A stretch can be cut out of the text that is
retained, from the oldest open mark up to the cursor, and of nothing else: what lies further back may be
overwritten in the ring, and what lies ahead was not read yet. Which offsets those are depends on all that
was marked, rewound and fetched before, and is the same on the tape. The characters are looked up in slots
that only the stretch itself uses, and the end of the stretch is reckoned without going past the cursor, so
that words of 64 bits hold it whatever offset and length are asked for. -/

namespace Lenient.Stream

/-- The offset is retained and fetched, and its slot of the ring is used for no other such offset. -/
structure Live (s : Stream) (o : Nat) : Prop where
  retained_le : s.retained ≤ o
  lt_taken : o < s.source.taken
  slot_lt : o % s.ring.capacity < s.ring.slots.size
  alone : ∀ p, s.retained ≤ p → p < s.source.taken → p % s.ring.capacity = o % s.ring.capacity → p = o

theorem live_of_lt {s : Stream} {o : Nat} (hr : s.retained ≤ o) (ht : o < s.source.taken) : s.Live o := by
  have hfits : s.source.taken ≤ s.retained - 1 + s.ring.capacity := s.held_retained.fits
  refine ⟨hr, ht, Nat.mod_lt o s.ring.capacity_pos, ?_⟩
  intro p hrp htp he
  rcases Nat.lt_trichotomy p o with hlt | heq | hgt
  · exact absurd he (Ring.mod_ne_of_lt hlt (by omega))
  · exact heq
  · exact absurd he.symm (Ring.mod_ne_of_lt hgt (by omega))

/-- What lies between a retained offset and the cursor is in the ring. -/
theorem span_eq {s : Stream} {first last : Nat} (hr : s.retained ≤ first) (hl : last ≤ s.cursor.offset) :
    s.ring.span first last = (s.source.text.take last).drop first := by
  have hc := s.cursor_le
  rw [s.held_retained.span_eq (by omega) (by omega), List.drop_take]

/-! Offsets and lengths as words of 64 bits, in which a sum or a difference that does not fit wraps
around. -/

/-- The end of a stretch that is cut off at the cursor. -/
def wordEnd (first length cursor : UInt64) : UInt64 :=
  first + if length ≤ cursor - first then length else cursor - first

def substringOfWords (s : Stream) (first length : UInt64) : Except SpanError Text :=
  let retained := UInt64.ofNat s.retained
  let cursor := UInt64.ofNat s.cursor.offset
  if first < retained then .error (.beforeRetained first.toNat retained.toNat)
  else if cursor < first then .error (.afterCursor first.toNat cursor.toNat)
  else .ok (s.ring.span first.toNat (wordEnd first length cursor).toNat)

def sliceOfWords (s : Stream) (first last : UInt64) : Except SpanError Text :=
  if last < first then .error (.negativeLength first.toNat last.toNat)
  else s.substringOfWords first (last - first)

/-- Up to the cursor nothing wraps around, however long the stretch was to be. -/
theorem toNat_wordEnd {first length cursor : UInt64} (h : first ≤ cursor) :
    (wordEnd first length cursor).toNat = first.toNat + min length.toNat (cursor.toNat - first.toNat) := by
  have hsub := UInt64.toNat_sub_of_le cursor first h
  have hlt := cursor.toNat_lt
  rw [UInt64.le_iff_toNat_le] at h
  have hclip : (if length ≤ cursor - first then length else cursor - first).toNat =
      min length.toNat (cursor.toNat - first.toNat) := by
    simp only [UInt64.le_iff_toNat_le, hsub]
    split <;> omega
  rw [wordEnd, UInt64.toNat_add, hclip]
  exact Nat.mod_eq_of_lt (by omega)

theorem substringOfWords_eq {s : Stream} (h : s.cursor.offset < UInt64.size) (first length : UInt64) :
    s.substringOfWords first length = s.substring first.toNat length.toNat := by
  have hr := s.retained_le
  have hcursor : (UInt64.ofNat s.cursor.offset).toNat = s.cursor.offset := UInt64.toNat_ofNat_of_lt h
  have hretained : (UInt64.ofNat s.retained).toNat = s.retained := UInt64.toNat_ofNat_of_lt (by omega)
  unfold substringOfWords substring
  simp only [UInt64.lt_iff_toNat_lt, hcursor, hretained]
  split
  · rfl
  · split
    · rfl
    · next hlt =>
      rw [toNat_wordEnd (by rw [UInt64.le_iff_toNat_le, hcursor]; omega), hcursor]

theorem sliceOfWords_eq {s : Stream} (h : s.cursor.offset < UInt64.size) (first last : UInt64) :
    s.sliceOfWords first last = s.slice first.toNat last.toNat := by
  unfold sliceOfWords slice
  simp only [UInt64.lt_iff_toNat_lt]
  split
  · rfl
  · next hlt =>
    rw [substringOfWords_eq h, UInt64.toNat_sub_of_le]
    rw [UInt64.le_iff_toNat_le]
    omega

/-- The stream `s` gives of its text what lies between the oldest open mark and the cursor of the tape `t`,
from live slots of its ring, and words of 64 bits are enough for it. -/
structure CutsAs (s : Stream) (t : Tape) : Prop where
  substring_eq : ∀ first length, s.substring first length =
    if first < t.oldest then .error (.beforeRetained first t.oldest)
    else if t.offset < first then .error (.afterCursor first t.offset)
    else .ok ((t.text.take (min (first + length) t.offset)).drop first)
  slice_eq : ∀ first last, s.slice first last =
    if last < first then .error (.negativeLength first last) else s.substring first (last - first)
  live : ∀ first length stretch, s.substring first length = .ok stretch →
    stretch = s.ring.span first (first + stretch.length) ∧
      ∀ o, first ≤ o → o < first + stretch.length → s.Live o
  words : t.text.length < UInt64.size → ∀ first other : UInt64,
    s.substringOfWords first other = s.substring first.toNat other.toNat ∧
      s.sliceOfWords first other = s.slice first.toNat other.toNat

theorem span_of_substring {s : Stream} {first length : Nat} {stretch : Text}
    (h : s.substring first length = .ok stretch) :
    s.retained ≤ first ∧ ∃ last, first ≤ last ∧ last ≤ s.cursor.offset ∧ stretch = s.ring.span first last := by
  unfold substring at h
  split at h
  · cases h
  · split at h
    · cases h
    · exact ⟨by omega, _, Nat.le_add_right _ _, by omega, (Except.ok.inj h).symm⟩

theorem cutsAs_tape (s : Stream) : s.CutsAs s.tape := by
  refine ⟨?_, fun _ _ => rfl, ?_, ?_⟩
  · intro first length
    have hoffset : s.tape.offset = s.cursor.offset := rfl
    rw [oldest_tape, hoffset]
    unfold substring
    split
    · rfl
    · split
      · rfl
      · have hend : first + min length (s.cursor.offset - first) = min (first + length) s.cursor.offset := by
          omega
        rw [span_eq (by omega) (by omega), hend]
        rfl
  · intro first length stretch h
    obtain ⟨hr, last, hfirst, hlast, rfl⟩ := span_of_substring h
    have hlength : first + (s.ring.span first last).length = last := by
      rw [Ring.span, List.length_map, List.length_range']
      omega
    rw [hlength]
    refine ⟨rfl, fun o ho hlt => live_of_lt (Nat.le_trans hr ho) ?_⟩
    exact Nat.lt_of_lt_of_le hlt (Nat.le_trans hlast s.cursor_le)
  · intro hsize first other
    have hlt : s.cursor.offset < UInt64.size := Nat.lt_of_le_of_lt s.cursor_le_length hsize
    exact ⟨substringOfWords_eq hlt first other, sliceOfWords_eq hlt first other⟩

/-- Wherever a script leads, the stretches that the stream gives are those of the text between the oldest
mark that the script left open and where it left the cursor. -/
theorem play_cuts_as_tape (capacity : Nat) (w : Text) (ops : List Op) :
    ((sized capacity w).play ops).2.CutsAs (Tape.play { text := w } ops).2 := by
  have ht := ((sized capacity w).play_tape ops).2
  rw [tape_sized] at ht
  rw [← ht]
  exact cutsAs_tape _

end Lenient.Stream
