import Lenient.Catalog.Properties
import Lenient.Catalog.Template
import Lenient.Notice
import Std.Data.HashMap

/-! A catalogue of message templates by locale and key. A look-up tries the locale, then its
language, then the catalogue's fallback locale; a message without any template is made from its
key. -/

namespace Lenient

instance : Hashable Text := ⟨fun t => (String.ofList t).hash⟩

structure Catalog where
  fallback : Text
  /-- The templates of each locale, by their keys. -/
  templates : Std.HashMap Text (Std.HashMap Text Text) := {}

namespace Catalog

def defaultLocale : Text := ['e', 'n']

def builtin : List (String × String) := [
  ("delta.just_now", "Just now"),
  ("delta.one_second", "One second ago"),
  ("delta.seconds", "Less than a minute ago"),
  ("delta.one_minute", "One minute ago"),
  ("delta.minutes", "\x7b0\x7d minutes ago"),
  ("delta.one_hour", "One hour ago"),
  ("delta.hours", "\x7b0\x7d hours ago"),
  ("delta.one_day", "One day ago"),
  ("delta.days", "\x7b0\x7d days ago"),
  ("delta.one_week", "One week ago"),
  ("delta.weeks", "\x7b0\x7d weeks ago"),
  ("delta.one_month", "One month ago"),
  ("delta.months", "\x7b0\x7d months ago"),
  ("delta.one_year", "One year ago"),
  ("delta.years", "\x7b0\x7d years ago")]

def insert (c : Catalog) (locale key template : Text) : Catalog :=
  { c with templates := c.templates.insert locale ((c.templates.getD locale {}).insert key template) }

def blank : Catalog := ⟨defaultLocale, {}⟩

def defaults : Catalog :=
  builtin.foldl (fun c e => c.insert defaultLocale e.1.toList e.2.toList) blank

/-- The part of a locale before its first hyphen or underscore. -/
def language (locale : Text) : Text := locale.takeWhile fun c => c != '-' && c != '_'

/-- The template that a locale has for a key, without any fallback. -/
def at? (c : Catalog) (locale key : Text) : Option Text := c.templates[locale]?.bind fun entries => entries[key]?

theorem at?_empty (fallback locale key : Text) : at? { fallback } locale key = none := by
  rw [at?, Std.HashMap.getElem?_empty, Option.bind_none]

def template? (c : Catalog) (locale key : Text) : Option Text :=
  (c.at? locale key).or ((c.at? (language locale) key).or (c.at? c.fallback key))

def message (c : Catalog) (locale key : Text) (args : List Text) : Noted Text :=
  match c.template? locale key with
  | some template => ⟨Template.format args template, []⟩
  | none => ⟨Template.format args key, [.messageMissing key locale]⟩

def insertAll (c : Catalog) (locale : Text) (es : List Properties.Entry) : Catalog :=
  es.foldl (fun c e => c.insert locale e.key e.value) c

/-- Adds the entries of a message file to a locale and counts them. A file with a bad line adds
nothing. -/
def load (c : Catalog) (locale text : Text) : Noted (Except Properties.LineError Nat × Catalog) :=
  match Properties.entries text with
  | .error e => ⟨(.error e, c), []⟩
  | .ok es => ⟨(.ok es.length, c.insertAll locale es), [.messagesLoaded es.length locale]⟩

def same (c d : Catalog) : Bool :=
  c.fallback == d.fallback && c.templates.size == d.templates.size &&
    c.templates.toList.all fun l => d.templates[l.1]?.any fun entries =>
      l.2.size == entries.size && l.2.toList.all fun e => entries[e.1]? == some e.2

end Catalog

end Lenient
