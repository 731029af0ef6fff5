import Lenient.Catalog

/-! Elapsed time in words. A delta in milliseconds is told in the largest unit that it reaches; a
month is four weeks and a year twelve such months. -/

namespace Lenient

inductive TimeUnit
  | second
  | minute
  | hour
  | day
  | week
  | month
  | year
  deriving Repr, DecidableEq

namespace TimeUnit

def all : List TimeUnit := [second, minute, hour, day, week, month, year]

def millis : TimeUnit → Int
  | second => 1000
  | minute => 60 * 1000
  | hour => 60 * (60 * 1000)
  | day => 24 * (60 * (60 * 1000))
  | week => 7 * (24 * (60 * (60 * 1000)))
  | month => 4 * (7 * (24 * (60 * (60 * 1000))))
  | year => 12 * (4 * (7 * (24 * (60 * (60 * 1000)))))

def noun : TimeUnit → String
  | second => "second"
  | minute => "minute"
  | hour => "hour"
  | day => "day"
  | week => "week"
  | month => "month"
  | year => "year"

end TimeUnit

namespace Elapsed

/-- The unit in which a delta is told. Below a minute that is seconds, even if there are none. -/
def unitOf (delta : Int) : TimeUnit :=
  if delta < TimeUnit.minute.millis then .second
  else if delta < TimeUnit.hour.millis then .minute
  else if delta < TimeUnit.day.millis then .hour
  else if delta < TimeUnit.week.millis then .day
  else if delta < TimeUnit.month.millis then .week
  else if delta < TimeUnit.year.millis then .month
  else .year

def count (unit : TimeUnit) (delta : Int) : Int := delta / unit.millis

/-- A delta in the words of `wording`. A negative delta lies in the future and has none. -/
def describe {α : Type} (wording : TimeUnit → Int → α) (delta : Int) : Option α :=
  if delta < 0 then none else some (wording (unitOf delta) (count (unitOf delta) delta))

def greatest : Int := 9223372036854775807

/-- The delta of a time span in seconds and nanoseconds, cut off at the greatest one. -/
def ofSpan (seconds nanos : Nat) : Int := min greatest (seconds * 1000 + nanos / 1000000 : Nat)

def english (unit : TimeUnit) (n : Int) : Text :=
  if unit = .second then
    if n = 0 then "Just now".toList
    else if n = 1 then "One second ago".toList
    else "Less than a minute ago".toList
  else if n = 1 then "One ".toList ++ unit.noun.toList ++ " ago".toList
  else Text.signed n ++ ' ' :: unit.noun.toList ++ "s ago".toList

def key (unit : TimeUnit) (n : Int) : Text :=
  if unit = .second ∧ n = 0 then "delta.just_now".toList
  else if n = 1 then "delta.one_".toList ++ unit.noun.toList
  else "delta.".toList ++ unit.noun.toList ++ ['s']

def catalogued (c : Catalog) (locale : Text) (unit : TimeUnit) (n : Int) : Noted Text :=
  c.message locale (key unit n) [Text.signed n]

end Elapsed

end Lenient
