import Mathlib.Tactic.Common
import Mathlib.Data.Int.Notation

/-!
# Calendar time

Seconds since the start of 1970 and the date and time of day that a clock shows, in a time zone
with daylight saving. A year is counted from its first of March, such that the leap day is its last.
-/

namespace Calendar

/-! ## Days -/

structure Date where
  year : Int
  month : Int
  day : Int
deriving DecidableEq

/-- The days before the first of March of year `y`. -/
def yearStart (y : Int) : Int := 365 * y + y / 4 - y / 100 + y / 400

/-- The days from the first of March to the first of the `m`-th month behind it. -/
def monthStart (m : Int) : Int := (153 * m + 2) / 5

/-- The number of the day, from 1970 on. -/
def toDays (d : Date) : Int :=
  let y := if d.month ≤ 2 then d.year - 1 else d.year
  let m := if d.month ≤ 2 then d.month + 9 else d.month - 3
  yearStart y + monthStart m + d.day - 1 - 719468

/-- The year, from March on, by its centuries and leap years. -/
def yearOf (n : Int) : Int :=
  let era := n / 146097
  let n := n % 146097
  let century := min (n / 36524) 3
  let n := n - 36524 * century
  let leap := n / 1461
  let n := n - 1461 * leap
  400 * era + 100 * century + 4 * leap + min (n / 365) 3

def ofDays (n : Int) : Date :=
  let n := n + 719468
  let y := yearOf n
  let k := n - yearStart y
  let m := (5 * k + 2) / 153
  let month := if m < 10 then m + 3 else m - 9
  { year := if month ≤ 2 then y + 1 else y
    month
    day := k - monthStart m + 1 }

example : toDays ⟨1970, 1, 1⟩ = 0 ∧ toDays ⟨2000, 3, 1⟩ = toDays ⟨2000, 2, 29⟩ + 1 ∧
    toDays ⟨1900, 3, 1⟩ = toDays ⟨1900, 2, 28⟩ + 1 := by decide

theorem yearStart_mixed {era century leap r : Int} (hc : 0 ≤ century ∧ century ≤ 3)
    (hl : 0 ≤ leap ∧ leap ≤ 24) (hr : 0 ≤ r ∧ r ≤ 3) :
    yearStart (400 * era + 100 * century + 4 * leap + r) =
      146097 * era + 36524 * century + 1461 * leap + 365 * r := by
  have h4 : (400 * era + 100 * century + 4 * leap + r) / 4 = 100 * era + 25 * century + leap := by
    omega
  have h100 : (400 * era + 100 * century + 4 * leap + r) / 100 = 4 * era + century := by omega
  have h400 : (400 * era + 100 * century + 4 * leap + r) / 400 = era := by omega
  rw [yearStart, h4, h100, h400]
  omega

theorem yearStart_le (n : Int) :
    yearStart (yearOf n) ≤ n ∧ n < yearStart (yearOf n) + 366 := by
  unfold yearOf
  dsimp only
  generalize hera : n / 146097 = era
  generalize hk : n % 146097 = k
  generalize hcentury : min (k / 36524) 3 = century
  generalize hleap : (k - 36524 * century) / 1461 = leap
  generalize hr : min ((k - 36524 * century - 1461 * leap) / 365) 3 = r
  rw [yearStart_mixed (by omega) (by omega) (by omega)]
  omega

theorem ofDays_month (n : Int) : 1 ≤ (ofDays n).month ∧ (ofDays n).month ≤ 12 := by
  have hyear := yearStart_le (n + 719468)
  simp only [ofDays]
  omega

theorem ofDays_day (n : Int) : 1 ≤ (ofDays n).day ∧ (ofDays n).day ≤ 31 := by
  have hyear := yearStart_le (n + 719468)
  simp only [ofDays, monthStart]
  omega

theorem toDays_ofDays (n : Int) : toDays (ofDays n) = n := by
  have hyear := yearStart_le (n + 719468)
  have hmonth := ofDays_month n
  have hyear' : (if (ofDays n).month ≤ 2 then (ofDays n).year - 1 else (ofDays n).year) =
      yearOf (n + 719468) := by
    simp only [ofDays]
    split <;> omega
  have hm : (if (ofDays n).month ≤ 2 then (ofDays n).month + 9 else (ofDays n).month - 3) =
      (5 * (n + 719468 - yearStart (yearOf (n + 719468))) + 2) / 153 := by
    simp only [ofDays]
    omega
  simp only [toDays, hyear', hm]
  simp only [ofDays]
  omega

/-! ## Seconds -/

/-- What the clock shows. -/
structure Moment extends Date where
  hour : Int
  minute : Int
  second : Int
deriving DecidableEq

def toSeconds (m : Moment) : Int :=
  86400 * toDays m.toDate + 3600 * m.hour + 60 * m.minute + m.second

def ofSeconds (t : Int) : Moment :=
  let k := t % 86400
  { toDate := ofDays (t / 86400), hour := k / 3600, minute := k % 3600 / 60, second := k % 60 }

theorem toSeconds_ofSeconds (t : Int) : toSeconds (ofSeconds t) = t := by
  simp only [toSeconds, ofSeconds, toDays_ofDays]
  omega

theorem ofSeconds_fields (t : Int) :
    (1 ≤ (ofSeconds t).month ∧ (ofSeconds t).month ≤ 12) ∧
    (1 ≤ (ofSeconds t).day ∧ (ofSeconds t).day ≤ 31) ∧
    (0 ≤ (ofSeconds t).hour ∧ (ofSeconds t).hour < 24) ∧
    (0 ≤ (ofSeconds t).minute ∧ (ofSeconds t).minute < 60) ∧
    0 ≤ (ofSeconds t).second ∧ (ofSeconds t).second < 60 := by
  refine ⟨ofDays_month _, ofDays_day _, ?_, ?_, ?_⟩ <;> simp only [ofSeconds] <;> omega

/-! ## Time zones -/

/-- The offset from UTC of standard time and what daylight saving adds to it, at every time. Where
standard time was put back, its clock shows some local times twice, and where it was put on, some
never. -/
structure Zone where
  std : Int → Int
  save : Int → Int
  /-- The time for which a local time without daylight saving is taken. -/
  standard : Int → Int
  standard_spec : ∀ t, standard (t + std t) + std (standard (t + std t)) = t + std t

variable {z : Zone} {t : Int}

/-- A zone that never changed its standard time. -/
def Zone.fixed (offset : Int) (save : Int → Int) : Zone where
  std _ := offset
  save
  standard l := l - offset
  standard_spec t := by omega

/-- What the clock shows, in seconds. -/
def Zone.local (z : Zone) (t : Int) : Int := t + z.std t + z.save t

/-- Daylight saving is not in effect, and the local time is not taken for another time with the same
one. Or no standard clock ever shows the local time, and it is taken for `t`. -/
def Zone.Standard (z : Zone) (t : Int) : Prop :=
  z.save t = 0 ∧ z.standard (t + z.std t) = t ∨
    (∀ u, u + z.std u ≠ z.local t) ∧ z.standard (z.local t) = t

/-- A local time that is read without daylight saving. -/
theorem Zone.standard_local : z.standard (z.local t) = t ↔ z.Standard t := by
  constructor
  · intro h
    by_cases hshown : ∃ u, u + z.std u = z.local t
    · obtain ⟨u, hu⟩ := hshown
      have hspec := z.standard_spec u
      rw [hu, h, Zone.local] at hspec
      have hsave : z.save t = 0 := by omega
      refine .inl ⟨hsave, ?_⟩
      rwa [Zone.local, hsave, Int.add_zero] at h
    · exact .inr ⟨fun u hu => hshown ⟨u, hu⟩, h⟩
  · rintro (⟨hsave, h⟩ | ⟨-, h⟩)
    · rwa [Zone.local, hsave, Int.add_zero]
    · exact h

theorem Zone.fixed_standard {offset : Int} {save : Int → Int} :
    (Zone.fixed offset save).Standard t ↔ save t = 0 := by
  rw [← Zone.standard_local]
  simp only [Zone.fixed, Zone.local]
  omega

end Calendar
