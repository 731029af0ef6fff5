import Lenient.Proofs.Reader.Agreement
import Lenient.Proofs.Stream.Fetching

/-! No reader fetches more than it reads. To tell whether a colon or a delimiter follows, a reader looks
past blanks and returns if none does; the stream has then fetched far beyond the cursor, but only over
blanks. Every way to go on from there skips these blanks first. So wherever a reader stops, the stream has
caught up: it has fetched the character under the cursor and nothing behind it. -/

namespace Lenient

open Cursor Lexeme

namespace Stream

/-- The character under the cursor is fetched, if there is one, and nothing behind it is. -/
def CaughtUp (s : Stream) : Prop := s.source.taken = min s.source.text.length (s.cursor.offset + 1)

/-- Fetched ahead of the cursor are characters that `p` holds for, and at most one more. -/
def AheadOver (p : Char → Bool) (s : Stream) : Prop :=
  s.source.taken ≤ s.cursor.offset + (s.unread.takeWhile p).length + 1

section CaughtUp

variable {s t : Stream} {p : Char → Bool}

theorem aheadOver_of_le (h : s.source.taken ≤ s.cursor.offset + 1) : s.AheadOver p := by
  unfold AheadOver
  omega

theorem CaughtUp.le (h : s.CaughtUp) : s.source.taken ≤ s.cursor.offset + 1 := by
  rw [h]
  exact Nat.min_le_right _ _

theorem CaughtUp.aheadOver (h : s.CaughtUp) : s.AheadOver p := aheadOver_of_le h.le

theorem CaughtUp.of_eq (h : s.CaughtUp) (hs : t.source = s.source) (hc : t.cursor = s.cursor) :
    t.CaughtUp := by
  unfold CaughtUp
  rw [hs, hc]
  exact h

theorem CaughtUp.note (h : s.CaughtUp) (n : Notice) : CaughtUp (Cursor.note n s) := h.of_eq rfl rfl

theorem CaughtUp.commit (h : s.CaughtUp) : CaughtUp (Cursor.commit s) := by
  have hc : s.commit.cursor = s.cursor := by unfold Stream.commit; split <;> rfl
  exact h.of_eq s.source_commit hc

theorem caughtUp_look (h : s.source.taken ≤ s.cursor.offset + 1) : CaughtUp (look s) := by
  have hle := s.taken_le
  change s.fill.source.taken = min s.fill.source.text.length (s.fill.cursor.offset + 1)
  rw [taken_fill, text_fill, cursor_fill]
  omega

theorem CaughtUp.look (h : s.CaughtUp) : CaughtUp (Cursor.look s) := caughtUp_look h.le

theorem offset_advance (s : Stream) :
    s.advance.2.cursor.offset = min (s.cursor.offset + 1) s.source.text.length :=
  congrArg Tape.offset s.tape_advance

theorem taken_advance (s : Stream) :
    s.advance.2.source.taken =
      max s.source.taken (min s.source.text.length (s.advance.2.cursor.offset + 1)) := by
  have hle := s.cursor_le_length
  rw [offset_advance]
  unfold Stream.advance forth
  split
  · next hlt =>
    rw [taken_fill]
    simp only [step, text_fill, cursor_fill, Position.offset_step, taken_fill]
    omega
  · next hlt =>
    rw [taken_fill, cursor_fill] at hlt
    simp only [taken_fill]
    omega

theorem CaughtUp.advance (h : s.CaughtUp) : CaughtUp (Cursor.advance s) := by
  change s.advance.2.source.taken = min s.advance.2.source.text.length (s.advance.2.cursor.offset + 1)
  rw [taken_advance, text_advance, offset_advance, h]
  omega

theorem AheadOver.advance {c : Char} (h : s.AheadOver p) (hc : head? s = some c) (hp : p c = true) :
    AheadOver p (Cursor.advance s) := by
  rw [head?_eq] at hc
  obtain ⟨rest, hu⟩ := List.head?_eq_some_iff.1 hc
  have hu' : s.unread = c :: rest := hu
  have hle : s.cursor.offset + s.unread.length = s.source.text.length := offset_add_remaining s
  unfold AheadOver at h ⊢
  change s.advance.2.source.taken ≤
    s.advance.2.cursor.offset + (s.advance.2.unread.takeWhile p).length + 1
  rw [hu', List.takeWhile_cons_of_pos hp, List.length_cons] at h
  rw [hu', List.length_cons] at hle
  rw [taken_advance, unread_advance, hu', List.tail_cons, offset_advance]
  omega

end CaughtUp

end Stream

variable {s t : Stream}

namespace Lexeme

theorem caughtUp_skipWhile {p : Char → Bool} (h : s.AheadOver p) : (skipWhile p s).CaughtUp := by
  fun_induction skipWhile p s with
  | case1 s c hc hp ih => exact ih (h.advance hc hp)
  | case2 s c hc hp =>
    apply Stream.caughtUp_look
    obtain ⟨rest, hu⟩ := List.head?_eq_some_iff.1 ((head?_eq s).symm.trans hc)
    have hu' : s.unread = c :: rest := hu
    rwa [Stream.AheadOver, hu', List.takeWhile_cons_of_neg hp] at h
  | case3 s hc =>
    apply Stream.caughtUp_look
    have hu : s.unread = [] := List.head?_eq_none_iff.1 ((head?_eq s).symm.trans hc)
    rwa [Stream.AheadOver, hu] at h

theorem caughtUp_skipSpaces (h : s.AheadOver isSpace) : (skipSpaces s).CaughtUp := caughtUp_skipWhile h

theorem caughtUp_skip_mark {p : Char → Bool} (h : s.CaughtUp) : (skipWhile p (mark s)).CaughtUp :=
  caughtUp_skipWhile (Stream.CaughtUp.of_eq h rfl rfl).aheadOver

theorem caughtUp_accept {c : Char} (h : s.CaughtUp) (ha : accept c s = (true, t)) : t.CaughtUp := by
  have hk : (skipSpaces (mark s)).CaughtUp := caughtUp_skip_mark h
  unfold accept at ha
  simp only at ha
  split at ha
  · cases ha
    exact hk.advance.commit
  · cases ha

/-- Where `accept` returns, what was fetched ahead are the blanks that it looked past. -/
theorem aheadOver_accept {c : Char} (h : s.CaughtUp) (ha : accept c s = (false, t)) :
    t.AheadOver isSpace := by
  have hk : (skipSpaces (mark s)).CaughtUp := caughtUp_skip_mark h
  have hthere := (forward_skipSpaces (mark s)).offset_eq
  have hback : (position t).offset + remaining t = (position s).offset + remaining s := by
    have hf := (forward_accept c s).offset_eq
    rwa [ha] at hf
  have hread := reads_accept c s
  rw [ha] at hread
  have hunread : unread t = unread s := by
    have hne := hread.answer
    rw [hread.rest, if_neg (by simpa using hne.symm)]
  have hsource : t.source = (skipSpaces (mark s)).source := by
    unfold accept at ha
    simp only at ha
    split at ha
    · cases ha
    · cases ha
      exact Stream.source_rewind _
  have hsplit := congrArg List.length (List.takeWhile_append_dropWhile (p := isSpace) (l := unread s))
  rw [List.length_append] at hsplit
  have hle := hk.le
  rw [remaining, remaining, unread_skipSpaces, unread_mark, bared] at hthere
  rw [remaining, remaining, hunread] at hback
  change t.source.taken ≤ (position t).offset + ((unread t).takeWhile isSpace).length + 1
  change _ ≤ (position (skipSpaces (mark s))).offset + 1 at hle
  have hmark : (position (mark s)).offset = (position s).offset := rfl
  rw [hsource, hunread]
  omega

theorem caughtUp_run {stop : Char → Bool} (h : s.CaughtUp) : (run stop s).2.CaughtUp :=
  (caughtUp_skip_mark h).commit

theorem caughtUp_hexDigits (n : Nat) (h : s.CaughtUp) : (hexDigits n s).2.CaughtUp := by
  induction n generalizing s with
  | zero => exact h
  | succ n ih =>
    unfold hexDigits
    split
    · exact h.look
    · split
      · exact ih h.advance
      · exact h.look

theorem caughtUp_escaped (set : Escapes) (h : s.CaughtUp) : (escaped set s).2.CaughtUp := by
  unfold escaped
  split
  · exact h.look
  · split
    · exact h.advance
    · split
      · exact caughtUp_hexDigits 4 h.advance
      · exact h.advance

theorem caughtUp_literalRest (quote escape : Char) (set : Escapes) (h : s.CaughtUp) :
    (literalRest quote escape set s).2.CaughtUp := by
  fun_induction literalRest quote escape set s with
  | case1 s hc => exact h.look.note _
  | case2 s hn hc => exact (caughtUp_escaped set h.advance).note _
  | case3 s piece hp hc ih => exact ih (caughtUp_escaped set h.advance)
  | case4 s hc he => exact h.advance
  | case5 s c hc he hq ih => exact ih h.advance

theorem caughtUp_literal? (escape : Char) (set : Escapes) (h : s.CaughtUp) :
    (literal? escape set s).2.CaughtUp := by
  unfold literal?
  split
  · exact h.look
  · split
    · exact caughtUp_literalRest _ _ _ h.advance
    · exact h.look

theorem caughtUp_word (escape : Char) (stop : Char → Bool) (h : s.CaughtUp) :
    (word escape stop s).2.CaughtUp := by
  fun_induction word escape stop s with
  | case1 s hc => exact h.look
  | case2 s hc ih => exact ih h.advance.advance
  | case3 s c hc he hs => exact h.look
  | case4 s c hc he hs ih => exact ih h.advance

end Lexeme

namespace Json

/-- Behind a scalar blanks may be fetched ahead, behind a bracket nothing is. -/
def Content.Settled (t : Stream) : Content → Prop
  | .scalar _ => t.AheadOver isSpace
  | .container _ | .tooDeep => t.CaughtUp

def Step.Settled (t : Stream) : Step → Prop
  | .close => t.CaughtUp
  | .fill _ content => content.Settled t

theorem Content.settled_of_caughtUp (content : Content) (h : t.CaughtUp) : content.Settled t := by
  cases content with
  | scalar text => exact h.aheadOver
  | container shape => exact h
  | tooDeep => exact h

theorem caughtUp_name? (h : s.CaughtUp) : (name? s).2.CaughtUp := by
  have hl := caughtUp_literal? backslash .json h
  unfold name?
  split
  · next ht => rw [ht] at hl; exact hl
  · next ht =>
    rw [ht] at hl
    split
    · exact (caughtUp_run hl).note _
    · exact caughtUp_run hl

theorem caughtUp_scalar (h : s.CaughtUp) : (scalar s).2.CaughtUp := by
  have hl := caughtUp_literal? backslash .json h
  unfold scalar
  split
  · next ht => rw [ht] at hl; exact hl
  · next ht => rw [ht] at hl; exact caughtUp_run hl

theorem caughtUp_content (limit depth : Nat) (h : s.CaughtUp) :
    (content limit depth s).2.CaughtUp := by
  have hk := caughtUp_skipSpaces h.aheadOver
  unfold content
  split
  · split
    · exact hk.note _
    · exact hk.advance
  · exact caughtUp_scalar hk

theorem settled_propertyContent (limit depth : Nat) (h : s.CaughtUp) :
    (propertyContent limit depth s).1.Settled (propertyContent limit depth s).2 := by
  unfold propertyContent
  split
  · next ht => exact Content.settled_of_caughtUp _ (caughtUp_content _ _ (caughtUp_accept h ht))
  · next ht => exact aheadOver_accept h ht

theorem settled_objectStep (limit depth : Nat) (h : s.CaughtUp) :
    (objectStep limit depth s).1.Settled (objectStep limit depth s).2 := by
  have hk := caughtUp_skipSpaces h.aheadOver
  have hn := caughtUp_name? hk
  unfold objectStep
  split
  · exact hk.note _
  · split
    · exact hk.advance
    · split
      · next ht => rw [ht] at hn; exact hn
      · next ht => rw [ht] at hn; exact settled_propertyContent limit depth hn

theorem settled_arrayStep (limit depth : Nat) (h : s.CaughtUp) :
    (arrayStep limit depth s).1.Settled (arrayStep limit depth s).2 := by
  have hk : (skipWhile isFiller s).CaughtUp := caughtUp_skipWhile h.aheadOver
  unfold arrayStep
  split
  · exact hk.note _
  · split
    · exact hk.advance
    · split
      · exact hk
      · exact Content.settled_of_caughtUp _ (caughtUp_content limit depth hk)

theorem settled_step {limit : Nat} {shape : Shape} {slots : List Slot} {r : Step} (h : s.CaughtUp)
    (hs : step limit shape slots s = (r, t)) : r.Settled t := by
  have hstep : (step limit shape slots s).1.Settled (step limit shape slots s).2 := by
    cases shape with
    | object => exact settled_objectStep _ _ h
    | array => exact settled_arrayStep _ _ h
  rwa [hs] at hstep

theorem caughtUp_skipComma (h : s.AheadOver isSpace) : (skipComma s).CaughtUp := by
  have hk := caughtUp_skipSpaces h
  unfold skipComma
  split
  · exact hk.advance
  · exact hk

theorem caughtUp_unwind (shape : Shape) (slots : List Slot) (h : s.CaughtUp) :
    (unwind shape slots s).2.CaughtUp := by
  induction slots generalizing shape s with
  | nil => exact h
  | cons slot outer ih => exact ih slot.shape (caughtUp_skipComma h.aheadOver)

theorem caughtUp_events (limit : Nat) (shape : Shape) (slots : List Slot) (h : s.CaughtUp) :
    (events limit shape slots s).2.CaughtUp := by
  fun_induction events limit shape slots s with
  | case1 shape s t hs => exact settled_step h hs
  | case2 shape s t slot outer hs ih =>
    have ht : t.CaughtUp := settled_step h hs
    exact ih (caughtUp_skipComma ht.aheadOver)
  | case3 shape slots s slot t hs =>
    have ht : t.CaughtUp := settled_step h hs
    exact caughtUp_unwind shape slots (caughtUp_skipComma ht.aheadOver)
  | case4 shape slots s slot text t hs ih => exact ih (caughtUp_skipComma (settled_step h hs))
  | case5 shape slots s slot inner t hs ih => exact ih (settled_step h hs)

theorem caughtUp_read (limit : Nat) (h : s.AheadOver isGarbage) : (read limit s).2.CaughtUp := by
  have hg : (skipGarbage s).CaughtUp := by
    unfold skipGarbage
    split
    · exact (caughtUp_skipWhile h).note _
    · exact caughtUp_skipWhile h
  unfold read
  split
  · exact hg.note _
  · exact caughtUp_events limit .object [] hg.advance

end Json

namespace Query

/-- Behind a token blanks may be fetched ahead, behind a parenthesis and at the end nothing is. -/
def Step.Settled (t : Stream) : Step → Prop
  | .term _ => t.AheadOver isSpace
  | .finish | .halt | .leave | .enter _ => t.CaughtUp

theorem caughtUp_token (o : Options) (h : s.CaughtUp) : (token o s).2.CaughtUp := by
  have hl := caughtUp_literal? o.escape .named h
  unfold token
  split
  · next ht => rw [ht] at hl; exact hl
  · next ht => rw [ht] at hl; exact caughtUp_word _ _ hl

theorem settled_openGroup (o : Options) (depth : Nat) (label : Option Text) (h : s.CaughtUp) :
    (openGroup o depth label s).1.Settled (openGroup o depth label s).2 := by
  unfold openGroup
  split
  · exact h.note _
  · exact h.advance

theorem settled_labelled (o : Options) (depth : Nat) (label : Text) (h : s.CaughtUp) :
    (labelled o depth label s).1.Settled (labelled o depth label s).2 := by
  have hk := caughtUp_skipSpaces h.aheadOver
  unfold labelled
  split
  · exact settled_openGroup o depth _ hk
  · exact (caughtUp_token o hk).aheadOver

theorem settled_term (o : Options) (depth : Nat) (h : s.CaughtUp) :
    (term o depth s).1.Settled (term o depth s).2 := by
  have hk := caughtUp_token o h
  unfold term
  split
  · next ht => exact settled_labelled o depth _ (caughtUp_accept hk ht)
  · next ht => exact aheadOver_accept hk ht

theorem settled_step {o : Options} {groups : List (Option Text)} {r : Step} (h : s.AheadOver isSpace)
    (hs : step o groups s = (r, t)) : r.Settled t := by
  have hk := caughtUp_skipSpaces h
  have hstep : (step o groups s).1.Settled (step o groups s).2 := by
    unfold step
    split
    · exact hk
    · split
      · exact settled_openGroup o _ none hk
      · split
        · exact hk.advance
        · exact settled_term o _ hk
  rwa [hs] at hstep

theorem caughtUp_events (o : Options) (groups : List (Option Text)) (h : s.AheadOver isSpace) :
    (events o groups s).2.2.CaughtUp := by
  fun_induction events o groups s with
  | case1 s t hs => exact settled_step h hs
  | case2 s t label outer hs ih =>
    have ht : t.CaughtUp := settled_step h hs
    exact ih (ht.note _).aheadOver
  | case3 groups s t hs =>
    rw [unwind_eq]
    exact settled_step h hs
  | case4 s t hs ih =>
    have ht : t.CaughtUp := settled_step h hs
    exact ih (ht.note _).aheadOver
  | case5 s t label outer hs ih =>
    have ht : t.CaughtUp := settled_step h hs
    exact ih ht.aheadOver
  | case6 groups s label t hs ih =>
    have ht : t.CaughtUp := settled_step h hs
    exact ih ht.aheadOver
  | case7 groups s es t hs ih => exact ih (settled_step h hs)

theorem caughtUp_read (o : Options) (h : s.AheadOver isSpace) : (read o s).2.CaughtUp := by
  have he := caughtUp_events o [] h
  rcases (read_eq o s).2 with hr | hr
  · rw [hr]
    exact he
  · rw [hr]
    exact he.look

end Query

namespace Address

theorem caughtUp_readName (h : s.CaughtUp) : (readName s).2.CaughtUp := by
  unfold readName
  split
  · exact caughtUp_skipSpaces (caughtUp_literal? _ _ h).aheadOver
  · exact caughtUp_run h

theorem caughtUp_readEmail (h : s.CaughtUp) : (readEmail s).2.CaughtUp := by
  unfold readEmail
  split
  · exact (caughtUp_run h.advance).advance
  · exact h.look

theorem caughtUp_entry {a : Address} (h : s.AheadOver isSeparator)
    (he : readEntry (skipWhile isSeparator s) = (a, t)) : t.CaughtUp := by
  have hentry : (readEntry (skipWhile isSeparator s)).2.CaughtUp :=
    caughtUp_readEmail (caughtUp_readName (caughtUp_skipWhile h))
  rwa [he] at hentry

theorem caughtUp_entries (stop : List Address → Bool) (seen : List Address)
    (h : s.AheadOver isSeparator) : (entries stop seen s).2.CaughtUp := by
  fun_induction entries stop seen s with
  | case1 seen s hn => exact caughtUp_skipWhile h
  | case2 seen s c hc a t he hv ih => exact ih (caughtUp_entry h he).aheadOver
  | case3 seen s c hc a t he hv hs => exact caughtUp_entry h he
  | case4 seen s c hc a t he hv hs ih => exact ih (caughtUp_entry h he).aheadOver

end Address

namespace Stream

/-- The reading from `s` to `t` leaves as many marks open as it found, and has fetched the character under
the cursor and nothing behind it. -/
structure Settles (s t : Stream) : Prop where
  marks_length : t.marks.length = s.marks.length
  taken_eq : t.source.taken = min s.source.text.length (t.cursor.offset + 1)

theorem settles_of_forward (hf : Forward s t) (ht : t.CaughtUp) : Settles s t := by
  constructor
  · have hpins : t.pins.length = s.pins.length := congrArg List.length hf.pins_eq
    simpa [pins] using hpins
  · have htext : t.source.text = s.source.text := hf.whole_eq
    rw [← htext]
    exact ht

/-- A reader that starts where at most the character under the cursor is fetched stops where the same is
true. What it looked at without reading it is read by then, and the marks that it opened are closed. An
address reader may be stopped behind any entry. -/
theorem readers_catch_up (s : Stream) (limit : Nat) (o : Query.Options) (stop : List Address → Bool)
    (h : s.source.taken ≤ s.cursor.offset + 1) :
    Settles s (Json.read limit s).2 ∧ Settles s (Query.read o s).2 ∧
      Settles s (Address.read stop s).2 := by
  refine ⟨?_, ?_, ?_⟩
  · exact settles_of_forward (Json.forward_read limit s) (Json.caughtUp_read limit (aheadOver_of_le h))
  · exact settles_of_forward (Query.forward_read o s) (Query.caughtUp_read o (aheadOver_of_le h))
  · exact settles_of_forward (Address.forward_entries stop [] s)
      (Address.caughtUp_entries stop [] (aheadOver_of_le h))

/-- Names with blanks behind them and nothing that the blanks could belong to. -/
def gappyText : Text :=
  ['x', '\x7b', 'a', ' ', ' ', 'b', ' ', '[', '\x7b', ',', ' ', '<', 'c', '@', 'd']

/-- A stream that is inside a mark and has been looked at. -/
def midway : Stream := ((sized 0 gappyText).play [.advance, .mark, .advance]).2

theorem readers_catch_up_midway :
    midway.source.taken ≤ midway.cursor.offset + 1 ∧ Settles midway (Json.read 1 midway).2 ∧
      Settles midway (Query.read {} midway).2 ∧
      Settles midway (Address.read (fun found => 1 ≤ found.length) midway).2 := by
  have h : midway.source.taken ≤ midway.cursor.offset + 1 := by decide
  exact ⟨h, readers_catch_up midway 1 {} (fun found => 1 ≤ found.length) h⟩

end Stream

end Lenient
