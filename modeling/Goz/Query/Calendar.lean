import Mathlib.Tactic

namespace Goz.Query

/-- A day of the proleptic Gregorian calendar. -/
structure Civil where
  year : Int
  month : Int
  day : Int
  deriving DecidableEq

/-- No day of a year in range leaves `i64`, and the divisions past the first are of numbers not below 0. -/
def civilFromDays (days : Int) : Civil :=
  let z := days + 719468
  let era := z / 146097
  let doe := z % 146097
  let yoe := (doe - doe / 1460 + doe / 36524 - doe / 146096) / 365
  let y := yoe + era * 400
  let doy := doe - (365 * yoe + yoe / 4 - yoe / 100)
  let mp := (5 * doy + 2) / 153
  let d := doy - (153 * mp + 2) / 5 + 1
  let m := if mp < 10 then mp + 3 else mp - 9
  ⟨if m ≤ 2 then y + 1 else y, m, d⟩

def daysFromCivil (c : Civil) : Int :=
  let y := if c.month ≤ 2 then c.year - 1 else c.year
  let era := y / 400
  let yoe := y % 400
  let mp := (c.month + 9) % 12
  let doy := (153 * mp + 2) / 5 + c.day - 1
  let doe := yoe * 365 + yoe / 4 - yoe / 100 + doy
  era * 146097 + doe - 719468

def daysInMonth (year month : Int) : Int :=
  if month = 2 then if year % 4 = 0 ∧ (year % 100 ≠ 0 ∨ year % 400 = 0) then 29 else 28
  else if month = 4 ∨ month = 6 ∨ month = 9 ∨ month = 11 then 30
  else 31

structure Civil.Valid (c : Civil) : Prop where
  month : 1 ≤ c.month ∧ c.month ≤ 12
  day : 1 ≤ c.day ∧ c.day ≤ daysInMonth c.year c.month

variable {yoe doy mp d : Int}

/-- A day of a year that starts in March: its leap day comes last. -/
structure InEra (yoe doy : Int) : Prop where
  year : 0 ≤ yoe ∧ yoe < 400
  day : 0 ≤ doy ∧ doy ≤ 365
  leap : doy = 365 → (yoe + 1) % 4 = 0 ∧ ((yoe + 1) % 100 ≠ 0 ∨ yoe = 399)

theorem InEra.yearOf (era : InEra yoe doy) {doe : Int} (here : doe = yoe * 365 + yoe / 4 - yoe / 100 + doy) :
    (doe - doe / 1460 + doe / 36524 - doe / 146096) / 365 = yoe := by
  obtain ⟨year, day, leap⟩ := era
  obtain ⟨a, b, c, rfl, century, four, one⟩ : ∃ a b c : Int, yoe = 100 * a + 4 * b + c ∧ (0 ≤ a ∧ a ≤ 3) ∧
      (0 ≤ b ∧ b ≤ 24) ∧ 0 ≤ c ∧ c ≤ 3 :=
    ⟨yoe / 100, yoe % 100 / 4, yoe % 4, by omega, by omega, by omega, by omega⟩
  have quarters : (100 * a + 4 * b + c) / 4 = 25 * a + b := by omega
  have centuries : (100 * a + 4 * b + c) / 100 = a := by omega
  rw [quarters, centuries] at here
  have spans : doe / 36524 - doe / 146096 = a := by
    by_cases last : doe = 146096
    · omega
    · have within : 36524 * a ≤ doe ∧ doe < 36524 * (a + 1) := by omega
      omega
  have leaps : doe / 1460 = 25 * a + b ∧ doy ≤ 364 ∨ doe / 1460 = 25 * a + b + 1 ∧ 1 ≤ doy := by
    omega
  omega

theorem exists_inEra {doe : Int} (low : 0 ≤ doe) (high : doe < 146097) :
    ∃ yoe doy, InEra yoe doy ∧ doe = yoe * 365 + yoe / 4 - yoe / 100 + doy := by
  obtain ⟨a, century⟩ : ∃ a, a = min 3 (doe / 36524) := ⟨_, rfl⟩
  obtain ⟨b, four⟩ : ∃ b, b = min 24 ((doe - 36524 * a) / 1461) := ⟨_, rfl⟩
  obtain ⟨c, one⟩ : ∃ c, c = min 3 ((doe - 36524 * a - 1461 * b) / 365) := ⟨_, rfl⟩
  refine ⟨100 * a + 4 * b + c, doe - 36524 * a - 1461 * b - 365 * c, ⟨?_, ?_, ?_⟩, ?_⟩
  · omega
  · omega
  · omega
  · have quarters : (100 * a + 4 * b + c) / 4 = 25 * a + b := by omega
    have centuries : (100 * a + 4 * b + c) / 100 = a := by omega
    rw [quarters, centuries]
    ring

/-- The day `d` of the month `mp` after March, in the year `yoe` of its era. -/
structure Marched (yoe mp d : Int) : Prop where
  inEra : InEra yoe ((153 * mp + 2) / 5 + d - 1)
  month : 0 ≤ mp ∧ mp ≤ 11
  first : 1 ≤ d
  last : (153 * mp + 2) / 5 + d - 1 < (153 * (mp + 1) + 2) / 5

def marchDays (era yoe mp d : Int) : Int :=
  era * 146097 + (yoe * 365 + yoe / 4 - yoe / 100 + ((153 * mp + 2) / 5 + d - 1)) - 719468

def marchCivil (era yoe mp d : Int) : Civil :=
  if mp < 10 then ⟨yoe + era * 400, mp + 3, d⟩ else ⟨yoe + era * 400 + 1, mp - 9, d⟩

variable {era : Int}

theorem Marched.civilFromDays (here : Marched yoe mp d) :
    civilFromDays (marchDays era yoe mp d) = marchCivil era yoe mp d := by
  obtain ⟨inEra, month, first, last⟩ := here
  obtain ⟨doe, isDoe⟩ : ∃ doe, doe = yoe * 365 + yoe / 4 - yoe / 100 + ((153 * mp + 2) / 5 + d - 1) := ⟨_, rfl⟩
  have within : 0 ≤ doe ∧ doe < 146097 := by
    have := inEra.year
    have := inEra.day
    omega
  have shifted : marchDays era yoe mp d + 719468 = era * 146097 + doe := by
    rw [marchDays, ← isDoe]
    ring
  have eras : (era * 146097 + doe) / 146097 = era := by omega
  have days : (era * 146097 + doe) % 146097 = doe := by omega
  have ofYear : doe - (365 * yoe + yoe / 4 - yoe / 100) = (153 * mp + 2) / 5 + d - 1 := by omega
  have ofMonth : (5 * ((153 * mp + 2) / 5 + d - 1) + 2) / 153 = mp := by omega
  simp only [Query.civilFromDays, shifted, eras, days, inEra.yearOf isDoe, ofYear, ofMonth, marchCivil]
  by_cases early : mp < 10
  · rw [if_pos early, if_pos early, if_neg (by omega)]
    congr 1
    omega
  · rw [if_neg early, if_neg early, if_pos (by omega)]
    congr 1
    omega

theorem Marched.daysFromCivil (here : Marched yoe mp d) :
    daysFromCivil (marchCivil era yoe mp d) = marchDays era yoe mp d := by
  have year := here.inEra.year
  have month := here.month
  have eras : (yoe + era * 400) / 400 = era := by omega
  have years : (yoe + era * 400) % 400 = yoe := by omega
  by_cases early : mp < 10
  · have months : (mp + 3 + 9) % 12 = mp := by omega
    simp only [Query.daysFromCivil, marchCivil, marchDays, if_pos early, if_neg (show ¬ mp + 3 ≤ 2 by omega), eras,
      years, months]
  · have months : (mp - 9 + 9) % 12 = mp := by omega
    simp only [Query.daysFromCivil, marchCivil, marchDays, if_neg early, if_pos (show mp - 9 ≤ 2 by omega),
      Int.add_sub_cancel, eras, years, months]

theorem Marched.valid (here : Marched yoe mp d) : (marchCivil era yoe mp d).Valid := by
  obtain ⟨⟨year, day, leap⟩, ⟨low, high⟩, first, last⟩ := here
  interval_cases mp <;> constructor <;> simp [marchCivil, daysInMonth] <;> omega

theorem exists_marched (days : Int) : ∃ era yoe mp d, Marched yoe mp d ∧ days = marchDays era yoe mp d := by
  obtain ⟨yoe, doy, inEra, isDoe⟩ := exists_inEra (Int.emod_nonneg (days + 719468) (by decide))
    (Int.emod_lt_of_pos (days + 719468) (by decide : (0 : Int) < 146097))
  have day := inEra.day
  obtain ⟨mp, isMonth⟩ : ∃ mp, mp = (5 * doy + 2) / 153 := ⟨_, rfl⟩
  have ofMonth : (153 * mp + 2) / 5 + (doy - (153 * mp + 2) / 5 + 1) - 1 = doy := by omega
  refine ⟨(days + 719468) / 146097, yoe, mp, doy - (153 * mp + 2) / 5 + 1, ⟨?_, ?_, ?_, ?_⟩, ?_⟩
  · rwa [ofMonth]
  · omega
  · omega
  · omega
  · rw [marchDays, ofMonth, ← isDoe]
    omega

theorem Civil.Valid.exists_marched {c : Civil} (valid : c.Valid) :
    ∃ era yoe mp d, Marched yoe mp d ∧ c = marchCivil era yoe mp d := by
  obtain ⟨year, month, day⟩ := c
  obtain ⟨⟨low, high⟩, first, last⟩ := valid
  obtain ⟨y, isYear⟩ : ∃ y, y = if month ≤ 2 then year - 1 else year := ⟨_, rfl⟩
  refine ⟨y / 400, y % 400, (month + 9) % 12, day, ⟨⟨?_, ?_, ?_⟩, ?_, ?_, ?_⟩, ?_⟩
  all_goals
    simp only at low high first last
    interval_cases month <;> simp [marchCivil, daysInMonth] at first last isYear ⊢ <;> omega

theorem valid_civilFromDays (days : Int) : (civilFromDays days).Valid := by
  obtain ⟨era, yoe, mp, d, here, rfl⟩ := exists_marched days
  rw [here.civilFromDays]
  exact here.valid

theorem daysFromCivil_civilFromDays (days : Int) : daysFromCivil (civilFromDays days) = days := by
  obtain ⟨era, yoe, mp, d, here, rfl⟩ := exists_marched days
  rw [here.civilFromDays, here.daysFromCivil]

theorem Civil.Valid.civilFromDays_daysFromCivil {c : Civil} (valid : c.Valid) :
    civilFromDays (daysFromCivil c) = c := by
  obtain ⟨era, yoe, mp, d, here, rfl⟩ := valid.exists_marched
  rw [here.daysFromCivil, here.civilFromDays]

/-- The month `index` months after January of the year 0. -/
def firstOfMonth (index : Int) : Civil :=
  ⟨index / 12, index % 12 + 1, 1⟩

theorem daysFromCivil_day (year month day : Int) :
    daysFromCivil ⟨year, month, day⟩ = daysFromCivil ⟨year, month, 1⟩ + (day - 1) := by
  simp only [daysFromCivil]
  ring

theorem daysFromCivil_firstOfMonth_succ (index : Int) :
    daysFromCivil (firstOfMonth (index + 1)) =
      daysFromCivil (firstOfMonth index) + daysInMonth (index / 12) (index % 12 + 1) := by
  obtain ⟨month, isMonth⟩ : ∃ month, month = index % 12 := ⟨_, rfl⟩
  have low : 0 ≤ month := by omega
  have high : month ≤ 11 := by omega
  have years : (index + 1) / 12 = if month = 11 then index / 12 + 1 else index / 12 := by split <;> omega
  have months : (index + 1) % 12 = if month = 11 then 0 else month + 1 := by split <;> omega
  simp only [firstOfMonth, years, months, ← isMonth]
  generalize index / 12 = year
  clear isMonth years months index
  interval_cases month <;> simp [daysFromCivil, daysInMonth] <;> omega

theorem firstOfMonth_next {month : Int} (year : Int) (low : 1 ≤ month) (high : month ≤ 12) :
    firstOfMonth (year * 12 + (month - 1) + 1) = if month = 12 then ⟨year + 1, 1, 1⟩ else ⟨year, month + 1, 1⟩ := by
  by_cases december : month = 12
  · rw [if_pos december, firstOfMonth]
    congr 1 <;> omega
  · rw [if_neg december, firstOfMonth]
    congr 1 <;> omega

theorem firstOfMonth_index {month : Int} (year : Int) (low : 1 ≤ month) (high : month ≤ 12) :
    (year * 12 + (month - 1)) / 12 = year ∧ (year * 12 + (month - 1)) % 12 + 1 = month := by
  omega

theorem valid_firstOfMonth (index : Int) : (firstOfMonth index).Valid := by
  have long : 1 ≤ daysInMonth (index / 12) (index % 12 + 1) := by
    unfold daysInMonth
    split_ifs <;> decide
  refine ⟨?_, le_refl _, long⟩
  simp only [firstOfMonth]
  omega

theorem civil_days_inverse :
    (∀ days, daysFromCivil (civilFromDays days) = days) ∧
    (∀ c : Civil, c.Valid → civilFromDays (daysFromCivil c) = c) ∧
    ∀ year month, 1 ≤ month → month ≤ 12 →
      civilFromDays (daysFromCivil ⟨year, month, daysInMonth year month⟩ + 1) =
        if month = 12 then ⟨year + 1, 1, 1⟩ else ⟨year, month + 1, 1⟩ := by
  refine ⟨daysFromCivil_civilFromDays, fun c valid => valid.civilFromDays_daysFromCivil, ?_⟩
  intro year month low high
  obtain ⟨years, months⟩ := firstOfMonth_index year low high
  have next := daysFromCivil_firstOfMonth_succ (year * 12 + (month - 1))
  rw [show firstOfMonth (year * 12 + (month - 1)) = ⟨year, month, 1⟩ by rw [firstOfMonth, years, months], years,
    months] at next
  rw [daysFromCivil_day, add_assoc, sub_add_cancel, ← next, ← firstOfMonth_next year low high]
  exact (valid_firstOfMonth _).civilFromDays_daysFromCivil

theorem civil_days_inverse_leap :
    Civil.Valid ⟨2000, 2, 29⟩ ∧ civilFromDays (daysFromCivil ⟨2000, 2, 29⟩) = ⟨2000, 2, 29⟩ ∧
      civilFromDays (daysFromCivil ⟨1900, 2, daysInMonth 1900 2⟩ + 1) = ⟨1900, 3, 1⟩ := by
  have valid : Civil.Valid ⟨2000, 2, 29⟩ := ⟨by decide, by decide⟩
  exact ⟨valid, civil_days_inverse.2.1 _ valid, civil_days_inverse.2.2 1900 2 (by decide) (by decide)⟩

end Goz.Query
