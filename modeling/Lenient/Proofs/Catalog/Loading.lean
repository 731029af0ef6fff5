import Lenient.Catalog
import Lenient.Proofs.Text.Trimming

/-! What loading a message file does. The lines of the file are told apart as they are written: blank lines
and comments are passed over, a line with something in front of its first equals sign assigns a value to a
key, and any other line is a fault. A file without a fault is put into the catalogue line by line; the first
fault of a file refuses the whole file, under the number of its line, and leaves the catalogue as it was.
The loader looks at each line in its trimmed form, which has the same first character that is no blank, the
same equals signs, and the same key and value once these are trimmed. -/

namespace Lenient

namespace Properties

/-- A line is passed over if its first character that is no blank, if it has one, starts a comment. -/
def PassedOver (line : Text) : Prop :=
  ∀ c ∈ line.find? fun c => !Text.isBlank c, c = '\x23' ∨ c = '!'

/-- A line assigns a value if it has an equals sign and not only blanks in front of the first one. -/
def Assigns (line : Text) : Prop :=
  '=' ∈ line ∧ ∃ c ∈ line.takeWhile notEquals, Text.isBlank c = false

instance : DecidablePred PassedOver := fun line =>
  decidable_of_iff (((line.find? fun c => !Text.isBlank c).all fun c => c == '\x23' || c == '!') = true)
    (by simp [PassedOver, Option.all_eq_true])

instance : DecidablePred Assigns := fun line =>
  decidable_of_iff ((line.contains '=' && (line.takeWhile notEquals).any fun c => !Text.isBlank c) = true)
    (by simp [Assigns])

def Sound (line : Text) : Prop := ¬ PassedOver line → Assigns line

/-- The key and the value of a line: what is in front of its first equals sign and what is behind it. -/
def assignment (line : Text) : Entry :=
  ⟨Text.trim (line.takeWhile notEquals), Text.trim (line.dropWhile notEquals).tail⟩

def told (ls : List Text) : List Text := ls.filter fun line => ¬ PassedOver line

def fault (n : Nat) (line : Text) : LineError := if '=' ∈ line then .emptyKey n else .malformed n line

theorem isComment_eq_true_iff {t : Text} : isComment t = true ↔ ∀ c ∈ t.head?, c = '\x23' ∨ c = '!' := by
  cases t with
  | nil => simp [isComment]
  | cons c t => simp [isComment]

theorem isComment_trim (line : Text) : isComment line.trim = true ↔ PassedOver line := by
  rw [isComment_eq_true_iff, Text.head?_trim]
  rfl

theorem notEquals_of_notMem {key : Text} (h : '=' ∉ key) : ∀ c ∈ key, notEquals c = true := by
  intro c hc
  rw [notEquals, bne_iff_ne]
  rintro rfl
  exact h hc

theorem assignment_split {key : Text} (value : Text) (h : '=' ∉ key) :
    assignment (key ++ '=' :: value) = ⟨key.trim, value.trim⟩ := by
  have hkey := notEquals_of_notMem h
  have hstop : notEquals '=' = false := by decide
  rw [assignment, List.takeWhile_append_of_pos hkey, List.dropWhile_append_of_pos hkey,
    List.takeWhile_cons, List.dropWhile_cons, hstop]
  simp

/-- A line and its trimmed form have the same key and the same value. -/
theorem assignment_trim {line : Text} (h : '=' ∈ line) : assignment line.trim = assignment line := by
  obtain ⟨a, b, hline, ha, hb⟩ := Text.exists_padding line
  obtain ⟨key, value, hsplit, hkey⟩ := List.eq_append_cons_of_mem ((Text.mem_trim_iff (by decide)).2 h)
  have hkey' : '=' ∉ a ++ key := by
    intro hmem
    rcases List.mem_append.1 hmem with hmem | hmem
    · exact absurd (ha _ hmem) (by decide)
    · exact hkey hmem
  have hwhole : line = (a ++ key) ++ '=' :: (value ++ b) := by
    rw [hsplit] at hline
    simpa using hline
  rw [hsplit, assignment_split value hkey, hwhole, assignment_split _ hkey', Text.trim_blank_append ha,
    Text.trim_append_blank hb]

theorem key_assignment_eq_nil_iff {line : Text} (h : '=' ∈ line) :
    (assignment line).key = [] ↔ ¬ Assigns line := by
  simp [assignment, Assigns, h, Text.trim_eq_nil_iff, Text.AllBlank]

/-- What the loader makes of a line, told by the line as it is written. -/
theorem entry?_eq (n : Nat) (line : Text) :
    entry? n line =
      if PassedOver line then .ok none
      else if Assigns line then .ok (some (assignment line))
      else .error (fault n line) := by
  have hsign : line.trim.contains '=' = true ↔ '=' ∈ line := by
    rw [List.contains_iff_mem, Text.mem_trim_iff (by decide)]
  have hentry : entry? n line =
      if isComment line.trim then .ok none
      else if !line.trim.contains '=' then .error (.malformed n line)
      else if (assignment line.trim).key.isEmpty then .error (.emptyKey n)
      else .ok (some (assignment line.trim)) := rfl
  rw [hentry]
  simp only [isComment_trim]
  by_cases he : '=' ∈ line
  · rw [hsign.2 he, assignment_trim he, fault, if_pos he]
    simp only [Bool.not_true, Bool.false_eq_true, if_false, List.isEmpty_iff, key_assignment_eq_nil_iff he,
      ite_not]
  · have hno : ¬ Assigns line := fun h => he h.1
    have hsign' : line.trim.contains '=' = false := by rwa [← Bool.not_eq_true, hsign]
    rw [hsign', if_neg hno, fault, if_neg he]
    rfl

/-- Lines without a fault add their assignments, and the lines behind them are numbered on. -/
theorem entriesFrom_append {before : List Text} (h : ∀ line ∈ before, Sound line) (n : Nat)
    (rest : List Text) :
    entriesFrom n (before ++ rest) =
      (entriesFrom (n + before.length) rest).map ((told before).map assignment ++ ·) := by
  induction before generalizing n with
  | nil => exact (congrFun Except.map_id (entriesFrom n rest)).symm
  | cons line before ih =>
    obtain ⟨hline, hbefore⟩ := List.forall_mem_cons.1 h
    have hrest := ih hbefore (n + 1)
    have hnumber : n + 1 + before.length = n + (line :: before).length := by
      rw [List.length_cons]
      omega
    rw [hnumber] at hrest
    rw [List.cons_append, entriesFrom, entry?_eq]
    by_cases hp : PassedOver line
    · have htold : told (line :: before) = told before := List.filter_cons_of_neg (by simpa using hp)
      rw [if_pos hp, htold]
      exact hrest
    · have htold : told (line :: before) = line :: told before := List.filter_cons_of_pos (by simpa using hp)
      rw [if_neg hp, if_pos (hline hp), htold]
      simp only [hrest]
      rcases entriesFrom (n + (line :: before).length) rest with e | es
      · rfl
      · rfl

theorem entries_of_sound {t : Text} (h : ∀ line ∈ t.lines, Sound line) :
    entries t = .ok ((told t.lines).map assignment) := by
  have hall := entriesFrom_append h 1 []
  rw [List.append_nil] at hall
  rw [entries, hall, entriesFrom, Except.map, List.append_nil]

theorem entries_of_fault {t line : Text} {before after : List Text} (hlines : t.lines = before ++ line :: after)
    (hbefore : ∀ l ∈ before, Sound l) (hp : ¬ PassedOver line) (ha : ¬ Assigns line) :
    entries t = .error (fault (before.length + 1) line) := by
  rw [entries, hlines, entriesFrom_append hbefore, entriesFrom, entry?_eq, if_neg hp, if_neg ha, Nat.add_comm]
  rfl

theorem exists_first_fault {ls : List Text} (h : ¬ ∀ line ∈ ls, Sound line) :
    ∃ before line after, ls = before ++ line :: after ∧ (∀ l ∈ before, Sound l) ∧
      ¬ PassedOver line ∧ ¬ Assigns line := by
  induction ls with
  | nil => exact absurd nofun h
  | cons line ls ih =>
    by_cases hline : Sound line
    · have hls : ¬ ∀ line ∈ ls, Sound line := fun hls => h (List.forall_mem_cons.2 ⟨hline, hls⟩)
      obtain ⟨before, bad, after, rfl, hbefore, hbad⟩ := ih hls
      exact ⟨line :: before, bad, after, rfl, List.forall_mem_cons.2 ⟨hline, hbefore⟩, hbad⟩
    · exact ⟨[], line, ls, rfl, nofun, Classical.not_imp.1 hline⟩

end Properties

namespace Catalog

open Properties

theorem load_of_sound (c : Catalog) (locale : Text) {text : Text} (h : ∀ line ∈ text.lines, Sound line) :
    (c.load locale text).value = (.ok (told text.lines).length,
      (told text.lines).foldl (fun c line => c.insert locale (assignment line).key (assignment line).value) c) := by
  rw [load, entries_of_sound h]
  simp only [List.length_map, insertAll, List.foldl_map]

theorem load_of_fault (c : Catalog) (locale : Text) {text line : Text} {before after : List Text}
    (hlines : text.lines = before ++ line :: after) (hbefore : ∀ l ∈ before, Sound l)
    (hp : ¬ PassedOver line) (ha : ¬ Assigns line) :
    (c.load locale text).value = (.error (fault (before.length + 1) line), c) := by
  rw [load, entries_of_fault hlines hbefore hp ha]

/-- A message file is accepted if every line that is not passed over assigns a value. Then each of these lines
counts, and its value is put in under its key, line by line. Any other file is refused for its first line with
a fault, all lines being counted from one on, and the catalogue stays as it was. -/
theorem load_takes_sound_files (c : Catalog) (locale text : Text) :
    ((∃ n, (c.load locale text).value.1 = .ok n) ↔
        ∀ line ∈ text.lines, ¬ PassedOver line → Assigns line) ∧
      ((∀ line ∈ text.lines, ¬ PassedOver line → Assigns line) →
        (c.load locale text).value = (.ok (told text.lines).length,
          (told text.lines).foldl
            (fun c line => c.insert locale (assignment line).key (assignment line).value) c)) ∧
      ((¬ ∀ line ∈ text.lines, ¬ PassedOver line → Assigns line) →
        ∃ before line after, text.lines = before ++ line :: after ∧
          (∀ l ∈ before, ¬ PassedOver l → Assigns l) ∧ ¬ PassedOver line ∧ ¬ Assigns line ∧
          (c.load locale text).value = (.error (fault (before.length + 1) line), c)) := by
  have hrefused : (¬ ∀ line ∈ text.lines, Sound line) →
      ∃ before line after, text.lines = before ++ line :: after ∧ (∀ l ∈ before, Sound l) ∧
        ¬ PassedOver line ∧ ¬ Assigns line ∧
        (c.load locale text).value = (.error (fault (before.length + 1) line), c) := by
    intro h
    obtain ⟨before, line, after, hlines, hbefore, hp, ha⟩ := exists_first_fault h
    exact ⟨before, line, after, hlines, hbefore, hp, ha, c.load_of_fault locale hlines hbefore hp ha⟩
  refine ⟨⟨?_, ?_⟩, c.load_of_sound locale, hrefused⟩
  · rintro ⟨n, hn⟩
    by_contra h
    obtain ⟨before, line, after, -, -, -, -, hv⟩ := hrefused h
    rw [hv] at hn
    cases hn
  · intro h
    exact ⟨_, congrArg Prod.fst (c.load_of_sound locale h)⟩

/-- A comment with a carriage return, a blank line, and one key twice, once with an equals sign in its
value. -/
def twiceFile : Text :=
  [' ', '\x23', 'c', '\r', '\n', '\n', 'k', ' ', '=', 'a', '=', 'b', '\r', '\n', 'k', '=', ' ', 'c']

/-- The same with a line behind it that has no key, and one without an equals sign. -/
def keylessFile : Text := twiceFile ++ ['\n', ' ', '=', 'd', '\n', 'e']

theorem load_takes_twiceFile :
    (∀ line ∈ twiceFile.lines, ¬ PassedOver line → Assigns line) ∧
      (blank.load ['f', 'r'] twiceFile).value.1 = .ok 2 ∧
      (¬ ∀ line ∈ keylessFile.lines, ¬ PassedOver line → Assigns line) ∧
      (blank.load ['f', 'r'] keylessFile).value = (.error (.emptyKey 5), blank) := by
  have hsound : ∀ line ∈ twiceFile.lines, ¬ PassedOver line → Assigns line := by decide
  have hfault : ¬ ∀ line ∈ keylessFile.lines, ¬ PassedOver line → Assigns line := by decide
  have hloaded := (load_takes_sound_files blank ['f', 'r'] twiceFile).2.1 hsound
  obtain ⟨before, line, after, -, -, -, -, hrefused⟩ :=
    (load_takes_sound_files blank ['f', 'r'] keylessFile).2.2 hfault
  refine ⟨hsound, ?_, hfault, Prod.ext (by rfl) (by rw [hrefused])⟩
  rw [hloaded]
  decide

end Catalog

end Lenient
