import Goz.Query.Calendar
import Goz.Query.ValueText

namespace Goz.Query

open List
open Option (bind_eq_some_iff bind_eq_bind bind_some map_eq_some_iff)

/-- Checked arithmetic on `i64`. -/
def checked (v : Int) : Option Int := if -2 ^ 63 ≤ v ∧ v < 2 ^ 63 then some v else none

/-- The date of a local day, counted from 1601-01-01. -/
def civil (day : Int) : Civil := civilFromDays (day - 134774)

def localDay (year month day : Int) : Option Int :=
  if -1000000 ≤ year ∧ year ≤ 1000000 then some (daysFromCivil ⟨year, month, day⟩ + 134774) else none

def addMonths (year month delta : Int) : Option (Int × Int) := do
  let months ← checked (year * 12)
  let index ← checked (months + (month - 1))
  let index ← checked (index + delta)
  return (index / 12, index % 12 + 1)

def calendarPeriod (unit : List Char) (offset today : Int) (weekStart : UInt8) : Option (Int × Int) :=
  if unit = "week".toList then
    -- 1601-01-01 was a Monday.
    let intoWeek := (today - weekStart.toNat) % 7
    let first := today - intoWeek + 7 * offset
    some (first, first + 7)
  else if unit = "month".toList then do
    let (year, month) ← addMonths (civil today).year (civil today).month offset
    let (nextYear, nextMonth) ← addMonths year month 1
    return (← localDay year month 1, ← localDay nextYear nextMonth 1)
  else do
    let year := (civil today).year + offset
    return (← localDay year 1 1, ← localDay (year + 1) 1 1)

def malformed (detail : List Char) : QueryError := .malformed "dm:" detail

/-- A part of a written date: `len` digits. -/
def number (part : List Char) (len : Nat) : Option Nat :=
  if part.length = len ∧ part.all Char.isDigit then some (decimal part) else none

/-- A text of none of the shapes gives nothing, one that names no real month or day an error. -/
def writtenDate (lower : List Char) : Option (Except QueryError (Int × Int)) :=
  let invalid := malformed (lower ++ " is not a real date".toList)
  match lower.splitOn '-' with
  | [y] => do
    let year ← number y 4
    return .ok (← localDay year 1 1, ← localDay (year + 1) 1 1)
  | [y, m] => do
    let year ← number y 4
    let month ← number m 2
    if 1 ≤ month ∧ month ≤ 12 then
      let (nextYear, nextMonth) ← addMonths year month 1
      return .ok (← localDay year month 1, ← localDay nextYear nextMonth 1)
    else return .error invalid
  | [y, m, d] => do
    let year ← number y 4
    let month ← number m 2
    let day ← number d 2
    if 1 ≤ month ∧ month ≤ 12 ∧ day ≠ 0 ∧ day ≤ daysInMonth year month then
      let first ← localDay year month day
      return .ok (first, first + 1)
    else return .error invalid
  | _ => none

/-- FILETIME ticks in a second. -/
def second : Int := 10000000

/-- FILETIME ticks in a day of the wall clock. -/
def wallDay : Int := 86400 * second

structure LocalClock where
  now : Int64
  toLocal : Int64 → Option Int64
  toUtc : Int64 → Option Int64
  weekStart : UInt8

inductive Value
  /-- The ticks from `start` up to, not including, `stop`. -/
  | period (start stop : Int64)
  | instant (t : Int64)
  deriving DecidableEq

namespace Value

def first : Value → Int64
  | period start _ => start
  | instant t => t

def last : Value → Int64
  | period _ stop => stop - 1
  | instant t => t

end Value

inductive Duration
  | ticks (n : Int)
  | months (n : Int)

/-- The seconds of a unit, if its length is fixed. -/
def durationUnits : List (List Char × Option Int) :=
  [("sec".toList, some 1), ("second".toList, some 1), ("min".toList, some 60), ("minute".toList, some 60),
    ("hour".toList, some 3600), ("day".toList, some 86400), ("week".toList, some 604800), ("month".toList, none),
    ("year".toList, none)]

def stripLast (lower : List Char) : List Char := if "last".toList.isPrefixOf lower then lower.drop 4 else lower

def stripPlural (unit : List Char) : List Char := if unit.getLast? = some 's' then unit.dropLast else unit

def duration (lower text : List Char) : Except QueryError (Option Duration) :=
  let rest := stripLast lower
  let count := rest.takeWhile Char.isDigit
  let unit := stripPlural (rest.dropWhile Char.isDigit)
  let tooLong := malformed (text ++ " reaches back further than goz can compare".toList)
  match durationUnits.lookup unit with
  | none => .ok none
  | some seconds =>
    if count = [] then .ok none
    else match checked (decimal count) with
      | none => .error tooLong
      | some n =>
        if n = 0 then .error (malformed (text ++ ": give a count above 0".toList))
        else match seconds with
          | some seconds => ((checked (n * (seconds * second))).map (some <| .ticks ·)).elim (.error tooLong) .ok
          | none =>
            if unit = "year".toList then ((checked (n * 12)).map (some <| .months ·)).elim (.error tooLong) .ok
            else .ok (some (.months n))

/-- The instant a duration before now. -/
def start (clock : LocalClock) : Duration → Option Int64
  | .ticks ticks => (checked (clock.now.toInt - ticks)).map Int64.ofInt
  | .months months => do
    let wall ← clock.toLocal clock.now
    let date := civil (wall.toInt / wallDay)
    let (year, month) ← addMonths date.year date.month (-months)
    let day ← localDay year month (min date.day (daysInMonth year month))
    let midnight ← checked (day * wallDay)
    let ticks ← checked (midnight + wall.toInt % wallDay)
    clock.toUtc (Int64.ofInt ticks)

/-- The local days of a text that is no duration. -/
def localDays (lower text : List Char) (clock : LocalClock) : Except QueryError (Int × Int) :=
  let outOfRange := malformed (text ++ " is outside the dates goz can compare".toList)
  let today := (clock.toLocal clock.now).map fun wall => wall.toInt / wallDay
  let written := (writtenDate lower).getD <| .error <| malformed <| text ++
    (" is not a date; use today, yesterday, thisweek, lastmonth, thisyear, a count such as 7days or last2hours, " ++
      "YYYY, YYYY-MM, YYYY-MM-DD, or unknown").toList
  if lower = "today".toList then (today.map fun today => (today, today + 1)).elim (.error outOfRange) .ok
  else if lower = "yesterday".toList then (today.map fun today => (today - 1, today)).elim (.error outOfRange) .ok
  else
    match [("this".toList, (0 : Int)), ("last".toList, -1)].find? fun named => named.1.isPrefixOf lower with
    | some (_, offset) =>
      let unit := lower.drop 4
      if unit ∈ ["week".toList, "month".toList, "year".toList] then
        (today.bind (calendarPeriod unit offset · clock.weekStart)).elim (.error outOfRange) .ok
      else written
    | none => written

/-- A local midnight, as UTC ticks. -/
def midnight (clock : LocalClock) (day : Int) : Option Int64 :=
  ((checked (day * wallDay)).filter (0 ≤ ·)).bind fun ticks => clock.toUtc (Int64.ofInt ticks)

def point (text : List Char) (clock : LocalClock) : Except QueryError Value :=
  let text := trim text
  let outOfRange := malformed (text ++ " is outside the dates goz can compare".toList)
  match duration (lowercase text) text with
  | .error e => .error e
  | .ok (some duration) => ((start clock duration).map .instant).elim (.error outOfRange) .ok
  | .ok none =>
    match localDays (lowercase text) text clock with
    | .error e => .error e
    | .ok (first, stop) =>
      ((midnight clock first).bind fun first => (midnight clock stop).map (.period first)).elim (.error outOfRange) .ok

section Back

variable {clock : LocalClock} {text lower digits : List Char} {v w n m : Int} {t u : Int64}

theorem checked_eq_some (fits : checked v = some w) : v = w ∧ -2 ^ 63 ≤ w ∧ w < 2 ^ 63 := by
  unfold checked at fits
  split at fits
  · rename_i inside
    cases fits
    exact ⟨rfl, inside⟩
  · cases fits

theorem addMonths_eq_some {year month delta : Int} {next : Int × Int} (fits : addMonths year month delta = some next) :
    next = ((year * 12 + (month - 1) + delta) / 12, (year * 12 + (month - 1) + delta) % 12 + 1) := by
  obtain ⟨months, first, fits⟩ := bind_eq_some_iff.mp fits
  obtain ⟨index, second, fits⟩ := bind_eq_some_iff.mp fits
  obtain ⟨moved, third, fits⟩ := bind_eq_some_iff.mp fits
  obtain rfl := (checked_eq_some first).1
  obtain rfl := (checked_eq_some second).1
  obtain rfl := (checked_eq_some third).1
  exact (Option.some.inj fits).symm

theorem daysInMonth_pos (year month : Int) : 1 ≤ daysInMonth year month := by
  unfold daysInMonth
  split_ifs <;> decide

/-- The local day a month starts on. -/
def monthStart (index : Int) : Int := daysFromCivil (firstOfMonth index) + 134774

theorem monthStart_succ (index : Int) :
    monthStart (index + 1) = monthStart index + daysInMonth (index / 12) (index % 12 + 1) := by
  rw [monthStart, daysFromCivil_firstOfMonth_succ, monthStart]
  ring

theorem monthStart_strictMono : StrictMono monthStart :=
  strictMono_int_of_lt_succ fun index => by
    have long := daysInMonth_pos (index / 12) (index % 12 + 1)
    rw [monthStart_succ]
    omega

theorem daysFromCivil_eq_monthStart {month : Int} (year day : Int) (low : 1 ≤ month) (high : month ≤ 12) :
    daysFromCivil ⟨year, month, day⟩ + 134774 = monthStart (year * 12 + (month - 1)) + (day - 1) := by
  obtain ⟨years, months⟩ := firstOfMonth_index year low high
  rw [daysFromCivil_day, monthStart, firstOfMonth, years, months]
  ring

/-- The month of a local day, counted from January of the year 0. -/
def monthIndex (today : Int) : Int := (civil today).year * 12 + ((civil today).month - 1)

theorem today_in_month (today : Int) :
    today = monthStart (monthIndex today) + ((civil today).day - 1) ∧ 1 ≤ (civil today).day ∧
      (civil today).day ≤ daysInMonth (monthIndex today / 12) (monthIndex today % 12 + 1) := by
  have valid : (civil today).Valid := valid_civilFromDays (today - 134774)
  have back : daysFromCivil (civil today) = today - 134774 := daysFromCivil_civilFromDays (today - 134774)
  unfold monthIndex
  generalize civil today = date at valid back ⊢
  obtain ⟨year, month, day⟩ := date
  obtain ⟨⟨low, high⟩, inside⟩ := valid
  obtain ⟨years, months⟩ := firstOfMonth_index year low high
  rw [years, months]
  refine ⟨?_, inside⟩
  rw [← daysFromCivil_eq_monthStart year day low high, back]
  ring

/-- The local day `n` months before a date, on its day of the month or the last one there is. -/
def monthsBack (date : Civil) (n : Int) : Int :=
  let index := date.year * 12 + (date.month - 1) - n
  monthStart index + (min date.day (daysInMonth (index / 12) (index % 12 + 1)) - 1)

theorem monthsBack_lt {date : Civil} (first : 1 ≤ date.day) (less : n < m) : monthsBack date m < monthsBack date n := by
  simp only [monthsBack]
  generalize date.year * 12 + (date.month - 1) = index
  -- The later month starts past the end of the earlier one, whatever day is taken in either.
  have apart : monthStart (index - m + 1) ≤ monthStart (index - n) := monthStart_strictMono.monotone (by omega)
  rw [monthStart_succ] at apart
  have long := daysInMonth_pos ((index - n) / 12) ((index - n) % 12 + 1)
  omega

theorem monthsBack_zero (today : Int) : monthsBack (civil today) 0 = today := by
  obtain ⟨here, -, last⟩ := today_in_month today
  rw [monthIndex] at here last
  simp only [monthsBack, sub_zero, min_eq_left last]
  exact here.symm

theorem start_months (starts : start clock (.months n) = some t) :
    ∃ wall ticks, clock.toLocal clock.now = some wall ∧
      ticks = monthsBack (civil (wall.toInt / wallDay)) n * wallDay + wall.toInt % wallDay ∧
      (-2 ^ 63 ≤ ticks ∧ ticks < 2 ^ 63) ∧ clock.toUtc (Int64.ofInt ticks) = some t := by
  obtain ⟨wall, shows, starts⟩ := bind_eq_some_iff.mp starts
  obtain ⟨next, moved, starts⟩ := bind_eq_some_iff.mp starts
  obtain rfl := addMonths_eq_some moved
  obtain ⟨day, isDay, starts⟩ := bind_eq_some_iff.mp starts
  obtain ⟨midnight, first, starts⟩ := bind_eq_some_iff.mp starts
  obtain ⟨ticks, second, starts⟩ := bind_eq_some_iff.mp starts
  refine ⟨wall, ticks, shows, ?_, (checked_eq_some second).2, starts⟩
  rw [← (checked_eq_some second).1, ← (checked_eq_some first).1]
  unfold localDay at isDay
  split at isDay
  · rw [daysFromCivil_eq_monthStart _ _ (by omega) (by omega)] at isDay
    rw [← Option.some.inj isDay, monthsBack]
    congr! 4
    omega
  · cases isDay

/-- A later wall time is a later instant. -/
def LocalClock.Increasing (clock : LocalClock) : Prop :=
  ∀ a b t u, clock.toUtc a = some t → clock.toUtc b = some u → a < b → t < u

/-- The wall time of now is the wall time of no other instant. -/
def LocalClock.Returns (clock : LocalClock) : Prop :=
  ∀ wall, clock.toLocal clock.now = some wall → clock.toUtc wall = some clock.now

theorem lt_ofInt {wall : Int64} (low : -2 ^ 63 ≤ v) (high : v < 2 ^ 63) (less : v < wall.toInt) :
    Int64.ofInt v < wall := by
  rwa [Int64.lt_iff_toInt_lt, Int64.toInt_ofInt_of_le low high]

theorem start_months_lt (increasing : clock.Increasing) (less : n < m) (near : start clock (.months n) = some t)
    (far : start clock (.months m) = some u) : u < t := by
  obtain ⟨wall, later, shows, isLater, inside, utc⟩ := start_months near
  obtain ⟨wall', earlier, shows', isEarlier, inside', utc'⟩ := start_months far
  obtain rfl := Option.some.inj (shows.symm.trans shows')
  have first := (valid_civilFromDays (wall.toInt / wallDay - 134774)).day.1
  have further := @monthsBack_lt n m (civil (wall.toInt / wallDay)) first less
  apply increasing _ _ _ _ utc' utc
  apply lt_ofInt inside'.1 inside'.2
  rw [Int64.toInt_ofInt_of_le inside.1 inside.2, isLater, isEarlier]
  have ticks := mul_lt_mul_of_pos_right further (show 0 < wallDay by decide)
  omega

theorem start_months_lt_now (increasing : clock.Increasing) (returns : clock.Returns) (some_ : 1 ≤ n)
    (starts : start clock (.months n) = some t) : t < clock.now := by
  obtain ⟨wall, ticks, shows, isTicks, inside, utc⟩ := start_months starts
  have first := (valid_civilFromDays (wall.toInt / wallDay - 134774)).day.1
  have further := @monthsBack_lt 0 n (civil (wall.toInt / wallDay)) first (by omega)
  rw [monthsBack_zero] at further
  apply increasing _ _ _ _ utc (returns wall shows)
  apply lt_ofInt inside.1 inside.2
  rw [isTicks]
  have ticks := mul_lt_mul_of_pos_right further (show 0 < wallDay by decide)
  have whole := Int.ediv_mul_add_emod wall.toInt wallDay
  omega

/-- A count of a unit, as `3months`, `last1year` or `LAST12Month` spell one. -/
structure Counted (text : List Char) (n : Nat) (unit : List Char) : Prop where
  spelled : ∃ last ∈ [[], "last".toList], ∃ digits plural, digits ≠ [] ∧ digits.all Char.isDigit ∧ decimal digits = n ∧
    plural ∈ [[], ['s']] ∧ lowercase (trim text) = last ++ (digits ++ (unit ++ plural))

/-- The months of a count of months or years. -/
def countedMonths (n : Nat) (unit : List Char) : Option Int := do
  let count ← checked n
  if count = 0 then none
  else if unit = "year".toList then checked (count * 12)
  else some count

theorem countedMonths_year (k : Nat) : countedMonths (12 * k) "month".toList = countedMonths k "year".toList := by
  have month : "month".toList ≠ "year".toList := by decide
  by_cases fits : (12 * k : Int) < 2 ^ 63
  · have whole : checked (12 * k : Nat) = some (12 * k : Int) := if_pos (by omega)
    have part : checked k = some (k : Int) := if_pos (by omega)
    have product : checked (k * 12 : Int) = some (12 * k : Int) := by
      rw [mul_comm]
      exact if_pos (by omega)
    simp only [countedMonths, whole, part, bind_eq_bind, bind_some, if_neg month, if_true, product]
    split_ifs <;> first | rfl | omega
  · have whole : checked (12 * k : Nat) = none := if_neg (by omega)
    have product : checked (k * 12 : Int) = none := if_neg (by omega)
    unfold countedMonths
    rw [whole]
    cases isPart : checked k with
    | none => rfl
    | some part =>
      obtain rfl := (checked_eq_some isPart).1
      simp only [bind_eq_bind, Option.bind_none, bind_some, product, if_true, ite_self]

theorem Counted.duration_eq {n : Nat} {unit : List Char} (counted : Counted text n unit)
    (calendar : unit = "month".toList ∨ unit = "year".toList) (shown : List Char) :
    (duration (lowercase (trim text)) shown).toOption = (countedMonths n unit).map (some <| .months ·) := by
  obtain ⟨last, isLast, digits, plural, some_, all, rfl, isPlural, spelled⟩ := counted.spelled
  rw [all_eq_true] at all
  have notLast : "last".toList.isPrefixOf (digits ++ (unit ++ plural)) = false := by
    cases digits with
    | nil => exact absurd rfl some_
    | cons c digits =>
      have digit := all c (by simp)
      have : 'l' ≠ c := fun h => by subst h; cases digit
      change ('l' == c && _) = false
      rw [beq_false_of_ne this, Bool.false_and]
  have rest : stripLast (lowercase (trim text)) = digits ++ (unit ++ plural) := by
    rw [spelled, stripLast]
    simp only [mem_cons, not_mem_nil, or_false] at isLast
    rcases isLast with rfl | rfl
    · rw [nil_append, notLast]
      rfl
    · rfl
  have letters : (unit ++ plural).takeWhile Char.isDigit = [] ∧ (unit ++ plural).dropWhile Char.isDigit = unit ++ plural := by
    rcases calendar with rfl | rfl <;> exact ⟨rfl, rfl⟩
  have count : (digits ++ (unit ++ plural)).takeWhile Char.isDigit = digits := by
    rw [takeWhile_append_of_pos all, letters.1, append_nil]
  have unit' : stripPlural ((digits ++ (unit ++ plural)).dropWhile Char.isDigit) = unit := by
    rw [dropWhile_append_of_pos all, letters.2]
    simp only [mem_cons, not_mem_nil, or_false] at isPlural
    rcases calendar with rfl | rfl <;> rcases isPlural with rfl | rfl <;> rfl
  have known : durationUnits.lookup unit = some none := by
    rcases calendar with rfl | rfl <;> rfl
  simp only [duration, rest, count, unit', known, if_neg some_, countedMonths]
  cases checked (decimal digits) with
  | none => rfl
  | some n =>
    simp only [bind_eq_bind, bind_some]
    split_ifs
    · rfl
    · cases checked (n * 12) <;> rfl
    · rfl

theorem Counted.point_eq {n : Nat} {unit : List Char} (counted : Counted text n unit)
    (calendar : unit = "month".toList ∨ unit = "year".toList) :
    (point text clock).toOption = ((countedMonths n unit).bind fun months => start clock (.months months)).map .instant := by
  have reads := counted.duration_eq calendar (trim text)
  simp only [point]
  cases isDuration : duration (lowercase (trim text)) (trim text) with
  | error e =>
    rw [isDuration] at reads
    rw [Option.map_eq_none_iff.mp reads.symm]
    rfl
  | ok duration =>
    rw [isDuration] at reads
    obtain ⟨months, isMonths, rfl⟩ := map_eq_some_iff.mp reads.symm
    rw [isMonths, bind_some]
    simp only
    cases start clock (.months months) <;> rfl

theorem Counted.point_ok {n : Nat} {value : Value} (counted : Counted text n "month".toList)
    (resolves : point text clock = .ok value) : ∃ t, value = .instant t ∧ start clock (.months n) = some t := by
  have reads : (point text clock).toOption = _ := counted.point_eq (.inl rfl)
  rw [resolves] at reads
  obtain ⟨t, starts, rfl⟩ := map_eq_some_iff.mp reads.symm
  obtain ⟨months, isMonths, starts⟩ := bind_eq_some_iff.mp starts
  simp only [countedMonths, bind_eq_bind, bind_eq_some_iff] at isMonths
  obtain ⟨count, fits, isMonths⟩ := isMonths
  obtain rfl := (checked_eq_some fits).1
  rw [if_neg (show "month".toList ≠ "year".toList by decide)] at isMonths
  split at isMonths
  · cases isMonths
  · exact ⟨t, rfl, Option.some.inj isMonths ▸ starts⟩

theorem durations_reach_back (increasing : clock.Increasing) (returns : clock.Returns) :
    (∀ (n m : Nat) (near far : List Char) (a b : Value), 1 ≤ n → n < m →
      Counted near n "month".toList → Counted far m "month".toList → point near clock = .ok a → point far clock = .ok b →
      ∃ t u, a = .instant t ∧ b = .instant u ∧ u < t ∧ t < clock.now) ∧
    ∀ (k : Nat) (months years : List Char), Counted months (12 * k) "month".toList → Counted years k "year".toList →
      (point months clock).toOption = (point years clock).toOption := by
  constructor
  · intro n m near far a b some_ less isNear isFar resolves resolves'
    obtain ⟨t, rfl, starts⟩ := isNear.point_ok resolves
    obtain ⟨u, rfl, starts'⟩ := isFar.point_ok resolves'
    exact ⟨t, u, rfl, rfl, start_months_lt increasing (by omega) starts starts',
      start_months_lt_now increasing returns (by omega) starts⟩
  · intro k months years isMonths isYears
    rw [isMonths.point_eq (.inl rfl), isYears.point_eq (.inr rfl), countedMonths_year]

/-- Greenwich on the last day of March 2024, at midnight. -/
def lastOfMarch : LocalClock := ⟨133563168000000000, some, some, 0⟩

theorem lastOfMarch_increasing : lastOfMarch.Increasing := by
  intro a b t u isT isU less
  cases isT
  cases isU
  exact less

theorem durations_reach_back_clamped :
    lastOfMarch.Increasing ∧ lastOfMarch.Returns ∧
    (∃ t u, point "1month".toList lastOfMarch = .ok (.instant t) ∧
      point "last13Months".toList lastOfMarch = .ok (.instant u) ∧ u < t ∧ t < lastOfMarch.now) ∧
    (point "12months".toList lastOfMarch).toOption = (point "1year".toList lastOfMarch).toOption := by
  have increasing := lastOfMarch_increasing
  have returns : lastOfMarch.Returns := fun _ shows => shows.symm
  have reach := durations_reach_back increasing returns
  have one : Counted "1month".toList 1 "month".toList := ⟨[], by decide, ['1'], [], by decide⟩
  have more : Counted "last13Months".toList 13 "month".toList :=
    ⟨"last".toList, by decide, ['1', '3'], ['s'], by decide⟩
  have twelve : Counted "12months".toList (12 * 1) "month".toList := ⟨[], by decide, ['1', '2'], ['s'], by decide⟩
  have year : Counted "1year".toList 1 "year".toList := ⟨[], by decide, ['1'], [], by decide⟩
  have leap : point "1month".toList lastOfMarch = .ok (.instant 133536384000000000) := by rfl
  have plain : point "last13Months".toList lastOfMarch = .ok (.instant 133220160000000000) := by rfl
  obtain ⟨t, u, isT, isU, less⟩ := reach.1 1 13 _ _ _ _ (by decide) (by decide) one more leap plain
  exact ⟨increasing, returns, ⟨t, u, isT ▸ leap, isU ▸ plain, less⟩, reach.2 1 _ _ twelve year⟩

end Back

variable {unit y mm dd : List Char} {year month day offset today : Int} {weekStart : UInt8}

/-- A month and a year that the calendar reckons with. -/
def Near (year month : Int) : Prop := (1 ≤ month ∧ month ≤ 12) ∧ -1000000 ≤ year ∧ year ≤ 1000000

theorem localDay_start (near : Near year month) (day : Int) :
    localDay year month day = some (monthStart (year * 12 + (month - 1)) + (day - 1)) := by
  rw [localDay, if_pos near.2, daysFromCivil_eq_monthStart year day near.1.1 near.1.2]

theorem localDay_eq_some {start : Int} (is : localDay year month 1 = some start) (low : 1 ≤ month) (high : month ≤ 12) :
    start = monthStart (year * 12 + (month - 1)) := by
  unfold localDay at is
  split at is
  · rw [← Option.some.inj is, daysFromCivil_eq_monthStart year 1 low high, sub_self, add_zero]
  · cases is

theorem addMonths_near (here : Near year month) (near : -12 ≤ offset ∧ offset ≤ 12) :
    addMonths year month offset = some ((year * 12 + (month - 1) + offset) / 12,
      (year * 12 + (month - 1) + offset) % 12 + 1) := by
  obtain ⟨⟨low, high⟩, least, most⟩ := here
  have first : checked (year * 12) = some (year * 12) := if_pos (by omega)
  have second : checked (year * 12 + (month - 1)) = some (year * 12 + (month - 1)) := if_pos (by omega)
  have third : checked (year * 12 + (month - 1) + offset) = some (year * 12 + (month - 1) + offset) := if_pos (by omega)
  simp only [addMonths, first, second, third, bind_eq_bind, bind_some, Option.pure_def]

/-- The starts of the weeks, months or years, counted from the one of today. -/
def tileStart (unit : List Char) (today : Int) (weekStart : UInt8) (offset : Int) : Int :=
  if unit = "week".toList then today - (today - weekStart.toNat) % 7 + 7 * offset
  else if unit = "month".toList then monthStart (monthIndex today + offset)
  else monthStart (((civil today).year + offset) * 12)

theorem calendarPeriod_eq_some {period : Int × Int} (is : calendarPeriod unit offset today weekStart = some period) :
    period = (tileStart unit today weekStart offset, tileStart unit today weekStart (offset + 1)) := by
  unfold calendarPeriod at is
  unfold tileStart
  split_ifs at is ⊢
  · rw [← Option.some.inj is]
    congr 1
    ring
  · obtain ⟨next, moved, is⟩ := bind_eq_some_iff.mp is
    obtain rfl := addMonths_eq_some moved
    obtain ⟨after, stepped, is⟩ := bind_eq_some_iff.mp is
    obtain rfl := addMonths_eq_some stepped
    obtain ⟨first, isFirst, is⟩ := bind_eq_some_iff.mp is
    obtain ⟨stop, isStop, is⟩ := bind_eq_some_iff.mp is
    obtain rfl := localDay_eq_some isFirst (by omega) (by omega)
    obtain rfl := localDay_eq_some isStop (by omega) (by omega)
    rw [← Option.some.inj is]
    congr 2 <;> unfold monthIndex <;> omega
  · obtain ⟨first, isFirst, is⟩ := bind_eq_some_iff.mp is
    obtain ⟨stop, isStop, is⟩ := bind_eq_some_iff.mp is
    obtain rfl := localDay_eq_some isFirst (by omega) (by omega)
    obtain rfl := localDay_eq_some isStop (by omega) (by omega)
    rw [← Option.some.inj is]
    congr 2 <;> omega

theorem tileStart_around (unit : List Char) (today : Int) (weekStart : UInt8) :
    tileStart unit today weekStart 0 ≤ today ∧ today < tileStart unit today weekStart 1 := by
  obtain ⟨here, first, last⟩ := today_in_month today
  have next := monthStart_succ (monthIndex today)
  have month := (valid_civilFromDays (today - 134774)).month
  change 1 ≤ (civil today).month ∧ (civil today).month ≤ 12 at month
  unfold tileStart
  split_ifs
  · omega
  · rw [add_zero]
    omega
  · have low : monthStart (((civil today).year + 0) * 12) ≤ monthStart (monthIndex today) :=
      monthStart_strictMono.monotone (by unfold monthIndex; omega)
    have high : monthStart (monthIndex today + 1) ≤ monthStart (((civil today).year + 1) * 12) :=
      monthStart_strictMono.monotone (by unfold monthIndex; omega)
    omega

theorem calendarPeriod_resolves (weekStart : UInt8) (least : -1000000 < (civil today).year) (most : (civil today).year < 1000000)
    (near : offset = 0 ∨ offset = -1) : (calendarPeriod unit offset today weekStart).isSome := by
  have month := (valid_civilFromDays (today - 134774)).month
  change 1 ≤ (civil today).month ∧ (civil today).month ≤ 12 at month
  unfold calendarPeriod
  split_ifs
  · rfl
  · rw [addMonths_near ⟨month, by omega⟩ (by omega)]
    simp only [bind_eq_bind, bind_some]
    rw [addMonths_near (by unfold Near; omega) (by omega)]
    simp only [bind_some]
    rw [localDay_start (by unfold Near; omega), localDay_start (by unfold Near; omega)]
    rfl
  · dsimp only
    rw [localDay_start (by unfold Near; omega), localDay_start (by unfold Near; omega)]
    rfl

theorem foldl_digits_lt {digits : List Char} (all : ∀ c ∈ digits, c.isDigit) (n : Nat) :
    digits.foldl (fun n c => n * 10 + (c.toNat - 48)) n < (n + 1) * 10 ^ digits.length := by
  induction digits generalizing n with
  | nil => simp
  | cons c digits ih =>
    have digit := digit_bounds (all c (by simp))
    calc digits.foldl (fun n c => n * 10 + (c.toNat - 48)) (n * 10 + (c.toNat - 48))
      _ < (n * 10 + (c.toNat - 48) + 1) * 10 ^ digits.length := ih (fun c mem => all c (by simp [mem])) _
      _ ≤ ((n + 1) * 10) * 10 ^ digits.length := Nat.mul_le_mul_right _ (by omega)
      _ = (n + 1) * 10 ^ (digits.length + 1) := by ring

theorem number_eq_some {part : List Char} {len n : Nat} (is : number part len = some n) : '-' ∉ part ∧ n < 10 ^ len := by
  unfold number at is
  split at is
  · rename_i shape
    obtain ⟨rfl, all⟩ := shape
    rw [all_eq_true] at all
    obtain rfl := Option.some.inj is
    refine ⟨fun dash => absurd (all _ dash) (by decide), ?_⟩
    simpa [decimal] using foldl_digits_lt all 0
  · cases is

theorem writtenDate_year {n : Nat} (isYear : number y 4 = some n) :
    writtenDate y = some (.ok (monthStart (n * 12), monthStart (n * 12 + 12))) := by
  obtain ⟨noDash, small⟩ := number_eq_some isYear
  simp only [writtenDate, splitOn_eq_singleton noDash, isYear, bind_eq_bind, bind_some]
  rw [localDay_start (by unfold Near; omega), localDay_start (by unfold Near; omega)]
  simp only [bind_some, Option.pure_def, sub_self, add_zero]
  ring_nf

theorem writtenDate_month {n m : Nat} (isYear : number y 4 = some n) (isMonth : number mm 2 = some m) (low : 1 ≤ m)
    (high : m ≤ 12) :
    writtenDate (y ++ '-' :: mm) = some (.ok (monthStart (n * 12 + (m - 1)), monthStart (n * 12 + m))) := by
  obtain ⟨noDash, small⟩ := number_eq_some isYear
  rw [writtenDate, splitOn_append_cons_self_of_not_mem noDash, splitOn_eq_singleton (number_eq_some isMonth).1]
  simp only [isYear, isMonth, bind_eq_bind, bind_some]
  rw [if_pos ⟨low, high⟩, addMonths_near (by unfold Near; omega) (by omega)]
  simp only [bind_some]
  rw [localDay_start (by unfold Near; omega), localDay_start (by unfold Near; omega)]
  simp only [bind_some, Option.pure_def, sub_self, add_zero]
  have next : ((n * 12 + (m - 1) + 1) / 12 * 12 + ((n * 12 + (m - 1) + 1) % 12 + 1 - 1) : Int) = n * 12 + m := by omega
  rw [next]

theorem writtenDate_day {n m d : Nat} (isYear : number y 4 = some n) (isMonth : number mm 2 = some m) (low : 1 ≤ m)
    (high : m ≤ 12) (isDay : number dd 2 = some d) :
    writtenDate (y ++ '-' :: (mm ++ '-' :: dd)) =
      if 1 ≤ d ∧ d ≤ daysInMonth n m then
        some (.ok (monthStart (n * 12 + (m - 1)) + (d - 1), monthStart (n * 12 + (m - 1)) + d))
      else some (.error (malformed (y ++ '-' :: (mm ++ '-' :: dd) ++ " is not a real date".toList))) := by
  obtain ⟨noDash, small⟩ := number_eq_some isYear
  simp only [writtenDate, splitOn_append_cons_self_of_not_mem noDash,
    splitOn_append_cons_self_of_not_mem (number_eq_some isMonth).1, splitOn_eq_singleton (number_eq_some isDay).1,
    isYear, isMonth, isDay, bind_eq_bind, bind_some, low, high, true_and, ← Nat.one_le_iff_ne_zero]
  split
  · rw [localDay_start (by unfold Near; omega)]
    simp only [bind_some, Option.pure_def]
    congr 3
    ring
  · rfl

/-- The day 0 is a Monday, and a week starts `weekStart` days past one. -/
theorem calendar_periods_tile :
    (∀ (unit : List Char) (today : Int) (weekStart : UInt8),
      unit ∈ ["week".toList, "month".toList, "year".toList] → ∃ starts : Int → Int,
        starts 0 ≤ today ∧ today < starts 1 ∧
        (∀ offset period, calendarPeriod unit offset today weekStart = some period →
          period = (starts offset, starts (offset + 1))) ∧
        (unit = "week".toList → ∀ offset, starts (offset + 1) = starts offset + 7 ∧ (starts offset - weekStart.toNat) % 7 = 0) ∧
        (-1000000 < (civil today).year → (civil today).year < 1000000 → ∀ offset, offset = 0 ∨ offset = -1 →
          (calendarPeriod unit offset today weekStart).isSome)) ∧
    ∀ (y : List Char) (year : Nat), number y 4 = some year → ∃ starts : Nat → Int,
      writtenDate y = some (.ok (starts 0, starts 12)) ∧
      ∀ (mm : List Char) (m : Nat), number mm 2 = some m → 1 ≤ m → m ≤ 12 →
        writtenDate (y ++ '-' :: mm) = some (.ok (starts (m - 1), starts m)) ∧
        starts m = starts (m - 1) + daysInMonth year m ∧
        ∀ (dd : List Char) (d : Nat), number dd 2 = some d →
          writtenDate (y ++ '-' :: (mm ++ '-' :: dd)) =
            if 1 ≤ d ∧ d ≤ daysInMonth year m then some (.ok (starts (m - 1) + (d - 1), starts (m - 1) + d))
            else some (.error (malformed (y ++ '-' :: (mm ++ '-' :: dd) ++ " is not a real date".toList))) := by
  constructor
  · intro unit today weekStart _
    obtain ⟨before, after⟩ := tileStart_around unit today weekStart
    refine ⟨tileStart unit today weekStart, before, after, fun _ _ => calendarPeriod_eq_some, ?_,
      fun least most _ => calendarPeriod_resolves weekStart least most⟩
    rintro rfl offset
    simp only [tileStart, if_true]
    omega
  · intro y year isYear
    refine ⟨fun m => monthStart (year * 12 + m), ?_, ?_⟩
    · rw [writtenDate_year isYear]
      simp
    · intro mm m isMonth low high
      have before : ((m - 1 : Nat) : Int) = m - 1 := by omega
      have index := firstOfMonth_index year (show (1 : Int) ≤ m by omega) (by omega)
      simp only [before]
      refine ⟨writtenDate_month isYear isMonth low high, ?_, fun dd d => writtenDate_day isYear isMonth low high⟩
      have next := monthStart_succ (year * 12 + (m - 1))
      rw [index.1, index.2, show (year * 12 + (m - 1) + 1 : Int) = year * 12 + m by ring] at next
      exact next

theorem calendar_periods_tile_leap :
    (∃ starts : Int → Int, starts 0 ≤ 154587 ∧ 154587 < starts 1 ∧
      ∃ period, calendarPeriod "month".toList (-1) 154587 0 = some period ∧ period.2 = starts 0) ∧
    ∃ starts : Nat → Int, writtenDate "2024".toList = some (.ok (starts 0, starts 12)) ∧
      writtenDate "2024-02".toList = some (.ok (starts 1, starts 2)) ∧ starts 2 = starts 1 + 29 := by
  obtain ⟨starts, before, after, periods, -, resolves⟩ :=
    calendar_periods_tile.1 "month".toList 154587 0 (by decide)
  obtain ⟨period, isPeriod⟩ := Option.isSome_iff_exists.mp (resolves (by decide) (by decide) (-1) (.inr rfl))
  obtain ⟨months, year, written⟩ := calendar_periods_tile.2 "2024".toList 2024 rfl
  obtain ⟨month, days, -⟩ := written "02".toList 2 rfl (by decide) (by decide)
  refine ⟨⟨starts, before, after, period, isPeriod, ?_⟩, months, year, month, days⟩
  rw [periods _ _ isPeriod]
  rfl

end Goz.Query
