import Lenient.Proofs.Json.Writing

/-! What reaches a place that has room for a number of characters and takes a piece whole or not at all.
A writer whose place has refused a piece goes on counting and cutting the text into pieces, as if it
wrote to a page. So the two are compared event by event: the pieces are those of the page, and what the
place holds in the end is told by them and by its room alone. It holds the pieces in front of the first
one that does not fit. -/

namespace Lenient.Json

/-- The place has room for some characters: it takes a piece whole if there is room for it, and
otherwise it refuses the piece and nothing of it is written. -/
structure TakesWhole {ω : Type} [Place ω] (held : ω → Text) (room : ω → Nat) : Prop where
  takes : ∀ {o : ω} {piece}, piece.length ≤ room o →
    (Place.put o piece).1 = true ∧ held (Place.put o piece).2 = held o ++ piece ∧
      room (Place.put o piece).2 + piece.length = room o
  refuses : ∀ {o : ω} {piece}, room o < piece.length →
    (Place.put o piece).1 = false ∧ held (Place.put o piece).2 = held o

theorem takesWhole_outlet : TakesWhole Outlet.written Outlet.room where
  takes {o piece} h := by
    simp only [Place.put, if_pos h]
    exact ⟨trivial, trivial, Nat.sub_add_cancel h⟩
  refuses {o piece} h := by
    simp only [Place.put, if_neg (Nat.not_le_of_lt h)]
    exact ⟨trivial, trivial⟩

/-- The pieces of `taken` fit into `room` characters one after another, and those of `rest` start with
one that does not fit any more. -/
structure Cut (room : Nat) (taken rest : List Text) : Prop where
  fits : taken.flatten.length ≤ room
  next : ∀ piece ∈ rest.head?, room < taken.flatten.length + piece.length

namespace Cut

variable {room : Nat} {taken rest : List Text} {piece : Text}

theorem rest_eq_nil_iff (h : Cut room taken rest) :
    rest = [] ↔ (taken ++ rest).flatten.length ≤ room := by
  rw [List.flatten_append, List.length_append]
  cases rest with
  | nil => simpa using h.fits
  | cons piece rest =>
    have := h.next piece rfl
    rw [List.flatten_cons, List.length_append]
    constructor
    · nofun
    · omega

theorem take (hp : taken.flatten.length + piece.length ≤ room) : Cut room (taken ++ [piece]) [] :=
  ⟨by simpa using hp, nofun⟩

theorem refuse (h : Cut room taken []) (hp : room < taken.flatten.length + piece.length) :
    Cut room taken [piece] := by
  refine ⟨h.fits, ?_⟩
  rintro _ ⟨⟩
  exact hp

theorem pass (h : Cut room taken rest) (hr : rest ≠ []) (piece : Text) : Cut room taken (rest ++ [piece]) := by
  obtain ⟨first, others, rfl⟩ := List.exists_cons_of_ne_nil hr
  exact ⟨h.fits, h.next⟩

end Cut

namespace Page

def sequence (page : Page) : List Text := page.pieces.reverse

theorem sequence_put (page : Page) (piece : Text) :
    (Place.put page piece).2.sequence = page.sequence ++ [piece] := List.reverse_cons

end Page

namespace Writer

variable {ω : Type} {held : ω → Text} {room : ω → Nat} {o : ω} {page : Writer} {w : Writer ω}

theorem finish_eq_none_iff : w.finish = none ↔ w.refused = true := by
  cases h : w.refused <;> simp [finish, h]

/-- The writer `w` was given what the writer `page` was given, and its place was `o` at first. Of the
pieces on the page, the place took those that fitted. -/
structure Follows (held : ω → Text) (room : ω → Nat) (o : ω) (page : Writer) (w : Writer ω) : Prop where
  idle : page.Idle
  counts : w.counts = page.counts
  scratch : w.scratch = []
  cut : ∃ taken rest, page.place.sequence = taken ++ rest ∧ Cut (room o) taken rest ∧
    held w.place = held o ++ taken.flatten ∧ (w.refused = false ↔ rest = []) ∧
    (rest = [] → room w.place + taken.flatten.length = room o)

theorem follows_new (held : ω → Text) (room : ω → Nat) (o : ω) :
    Follows held room o { place := {} } { place := o } :=
  ⟨idle_new, rfl, rfl, [], [], rfl, ⟨Nat.zero_le _, nofun⟩, by simp, by simp, by simp⟩

theorem Follows.recount (h : Follows held room o page w) (counts : List Nat) :
    Follows held room o { page with counts } { w with counts } :=
  ⟨⟨h.idle.scratch, h.idle.refused⟩, rfl, h.scratch, h.cut⟩

variable [Place ω]

theorem print_of_refused (h : w.refused = true) (piece : Text) : w.print piece = w := if_pos h

theorem print_of_not_refused (h : w.refused = false) (piece : Text) :
    w.print piece =
      { w with place := (Place.put w.place piece).2, refused := !(Place.put w.place piece).1 } :=
  if_neg (by simp [h])

namespace Follows

theorem print (ht : TakesWhole held room) (h : Follows held room o page w) (piece : Text) :
    Follows held room o (page.print piece) (w.print piece) := by
  have hidle : (page.print piece).Idle := ⟨by simpa using h.idle.scratch, by simpa using h.idle.refused⟩
  refine ⟨hidle, by simpa using h.counts, by simpa using h.scratch, ?_⟩
  obtain ⟨taken, rest, hs, hcut, hheld, hrefused, hroom⟩ := h.cut
  have hs' : (page.print piece).place.sequence = taken ++ rest ++ [piece] := by
    rw [print_of_not_refused h.idle.refused, Page.sequence_put, hs]
  cases hr : w.refused with
  | true =>
    have hrest : rest ≠ [] := fun hn => by simp [hrefused.2 hn] at hr
    rw [print_of_refused hr]
    refine ⟨taken, rest ++ [piece], by rw [hs', List.append_assoc], hcut.pass hrest piece, hheld, ?_, ?_⟩
    · simp [hr]
    · simp
  | false =>
    obtain rfl := hrefused.1 hr
    have hroom := hroom rfl
    rw [print_of_not_refused hr]
    by_cases hp : piece.length ≤ room w.place
    · obtain ⟨hput, hput', hleft⟩ := ht.takes hp
      refine ⟨taken ++ [piece], [], by simp [hs'], Cut.take (by omega), ?_, by simp [hput], ?_⟩
      · simp [hput', hheld]
      · simp only [List.flatten_append, List.length_append, List.flatten_singleton]
        omega
    · obtain ⟨hput, hput'⟩ := ht.refuses (Nat.lt_of_not_le hp)
      exact ⟨taken, [piece], by simp [hs'], hcut.refuse (by omega), by rw [hput', hheld], by simp [hput],
        nofun⟩

theorem printQuoted (ht : TakesWhole held room) (h : Follows held room o page w) (t : Text) :
    Follows held room o (page.printQuoted t) (w.printQuoted t) :=
  ((h.print ht _).print ht _).print ht _

theorem flush (ht : TakesWhole held room) (h : Follows held room o page w) (spaces : Bool) (t : Text)
    (quoted : Bool) :
    Follows held room o ((page.scribble spaces t).flush quoted) ((w.scribble spaces t).flush quoted) := by
  rw [flush_scribble h.idle.scratch, flush_scribble h.scratch]
  split
  · exact h.printQuoted ht _
  · exact h.print ht _

theorem separate (ht : TakesWhole held room) (h : Follows held room o page w) :
    Follows held room o page.separate w.separate := by
  unfold Writer.separate
  rw [h.counts]
  split
  · exact h
  · exact h.recount _
  · exact (h.recount _).print ht _

theorem enter (ht : TakesWhole held room) (h : Follows held room o page w) (bracket : Char) :
    Follows held room o (page.enter bracket) (w.enter bracket) := by
  rw [Writer.enter, Writer.enter, h.counts]
  exact (h.print ht _).recount _

theorem leave (ht : TakesWhole held room) (h : Follows held room o page w) (bracket : Char) :
    Follows held room o (page.leave bracket) (w.leave bracket) := by
  rw [Writer.leave, Writer.leave, h.counts]
  exact (h.print ht _).recount _

theorem emit (ht : TakesWhole held room) (h : Follows held room o page w) (e : Event) :
    Follows held room o (page.emit e) (w.emit e) := by
  cases e with
  | beginObject => exact h.enter ht _
  | endObject => exact h.leave ht _
  | beginArray => exact h.enter ht _
  | endArray => exact h.leave ht _
  | beginElement => exact h.separate ht
  | endElement => exact h
  | beginProperty name => exact ((h.separate ht).flush ht true name _).print ht _
  | endProperty name => exact h
  | value text =>
    cases text with
    | none => exact h.print ht _
    | some t => exact h.flush ht false t true

theorem emitAll (ht : TakesWhole held room) (h : Follows held room o page w) (es : List Event) :
    Follows held room o (page.emitAll es) (w.emitAll es) := by
  induction es generalizing page w with
  | nil => exact h
  | cons e es ih => exact ih (h.emit ht e)

end Follows

theorem follows_writeTo (ht : TakesWhole held room) (o : ω) (es : List Event) :
    Follows held room o (writeTo ({} : Page) es) (writeTo o es) :=
  (follows_new held room o).emitAll ht es

theorem stable_refused (o : ω) : Stable fun w : Writer ω => w.place = o ∧ w.refused = true where
  print piece h := by rwa [print_of_refused h.2]
  counts _ h := h
  scratch _ h := h

end Writer

open Writer

/-- The pieces that the canonical text of a sequence of events is written in. -/
def pieces (es : List Event) : List Text := (writeTo ({} : Page) es).place.sequence

theorem flatten_pieces (es : List Event) : (pieces es).flatten = write es := rfl

/-- Whatever the events are, a place with some room is written to as long as the pieces of their text
fit: it is handed back if and only if the whole text fits, it then holds the pieces in front of the first
one that does not fit, and nothing that comes after a refusal reaches it. -/
theorem writeTo_stops_at_refusal {ω : Type} [Place ω] {held : ω → Text} {room : ω → Nat}
    (ht : TakesWhole held room) (o : ω) (es : List Event) :
    ((writeTo o es).finish.isSome ↔ (write es).length ≤ room o) ∧
      held (writeTo o es).place <+: held o ++ write es ∧
      (∃ taken rest, pieces es = taken ++ rest ∧ Cut (room o) taken rest ∧
        held (writeTo o es).place = held o ++ taken.flatten) ∧
      ((writeTo o es).finish = none →
        ∀ more, (writeTo o (es ++ more)).place = (writeTo o es).place ∧
          (writeTo o (es ++ more)).finish = none) := by
  obtain ⟨taken, rest, hps, hcut, hheld, hrefused, -⟩ := (follows_writeTo ht o es).cut
  change pieces es = _ at hps
  have hw : write es = taken.flatten ++ rest.flatten := by
    rw [← flatten_pieces, hps, List.flatten_append]
  refine ⟨?_, ?_, ⟨taken, rest, hps, hcut, hheld⟩, ?_⟩
  · rw [← flatten_pieces, hps, ← hcut.rest_eq_nil_iff, ← hrefused, Option.isSome_iff_ne_none, Ne,
      finish_eq_none_iff, Bool.not_eq_true]
  · rw [hw, ← List.append_assoc, ← hheld]
    exact List.prefix_append _ _
  · intro h more
    rw [finish_eq_none_iff] at h ⊢
    rw [writeTo, emitAll_append]
    exact (stable_refused _).emitAll more ⟨rfl, h⟩

/-- An object with a scalar where a property should be. -/
def crampedEvents : List Event := [.beginObject, .value (some ['a', 'b']), .endObject]

/-- With room for three characters, the letters behind the opening quote do not fit. The closing quote
would, but it is not written. -/
theorem cramped_stops_behind_quote :
    TakesWhole Outlet.written Outlet.room ∧
      (writeWithin 3 crampedEvents).finish = none ∧
      (writeWithin 3 crampedEvents).written = ['\x7b', '\x27'] ∧
      (writeWithin 3 crampedEvents).written <+: write crampedEvents ∧
      ∀ more, (writeWithin 3 (crampedEvents ++ more)).place = (writeWithin 3 crampedEvents).place := by
  obtain ⟨-, hprefix, -, hmore⟩ :=
    writeTo_stops_at_refusal takesWhole_outlet { room := 3 } crampedEvents
  have hnone : (writeWithin 3 crampedEvents).finish = none := by decide
  exact ⟨takesWhole_outlet, hnone, by decide, hprefix, fun more => (hmore hnone more).1⟩

end Lenient.Json
