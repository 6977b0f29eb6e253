import Mathlib.Algebra.Order.Ring.Nat

/-!
Dates of the proleptic Gregorian calendar, with years 1 to 9999 and the days numbered
from 0001-01-01, times of day in microseconds, and the two together, at an offset from UTC.
-/

set_option autoImplicit false

namespace Calendar

def isLeap (year : Nat) : Bool := year % 4 == 0 && (year % 100 != 0 || year % 400 == 0)

def daysInMonth (leap : Bool) (month : Nat) : Nat :=
  [31, if leap then 29 else 28, 31, 30, 31, 30, 31, 31, 30, 31, 30, 31].getD (month - 1) 0

theorem daysInMonth_le : ∀ leap, ∀ month ≤ 12, daysInMonth leap month ≤ 31 := by decide

def daysBeforeMonth (leap : Bool) (month : Nat) : Nat :=
  ((List.range (month - 1)).map fun m => daysInMonth leap (m + 1)).sum

def daysInYear (leap : Bool) : Nat := if leap then 366 else 365

def daysBeforeYear (year : Nat) : Nat :=
  let y := year - 1
  y * 365 + y / 4 - y / 100 + y / 400

structure Date where
  year : Nat
  month : Nat
  day : Nat
  year_pos : 0 < year
  year_le : year ≤ 9999
  month_pos : 0 < month
  month_le : month ≤ 12
  day_pos : 0 < day
  day_le : day ≤ daysInMonth (isLeap year) month
  deriving DecidableEq

def maxOrdinal : Nat := 3652059

def Date.ofFields (year month day : Nat) : Option Date :=
  if h : (0 < year ∧ year ≤ 9999) ∧ (0 < month ∧ month ≤ 12) ∧
      0 < day ∧ day ≤ daysInMonth (isLeap year) month then
    some ⟨year, month, day, h.1.1, h.1.2, h.2.1.1, h.2.1.2, h.2.2.1, h.2.2.2⟩
  else none

theorem Date.ofFields_fields (d : Date) : Date.ofFields d.year d.month d.day = some d :=
  dif_pos ⟨⟨d.year_pos, d.year_le⟩, ⟨d.month_pos, d.month_le⟩, d.day_pos, d.day_le⟩

/-- 0001-01-01 is day 1. -/
def Date.toOrdinal (d : Date) : Nat :=
  daysBeforeYear d.year + daysBeforeMonth (isLeap d.year) d.month + d.day

/-- The year of a day, counted from 0, and the day in that year: cycles of 400, 100, 4 and
1 years, the last of them being longer. -/
def yearAndDay (n : Nat) : Nat × Nat :=
  let n400 := n / 146097
  let r400 := n % 146097
  let n100 := min 3 (r400 / 36524)
  let r100 := r400 - n100 * 36524
  let n4 := r100 / 1461
  let r4 := r100 % 1461
  let n1 := min 3 (r4 / 365)
  (n400 * 400 + n100 * 100 + n4 * 4 + n1 + 1, r4 - n1 * 365)

/-- The month of a day in its year: the months that start no later are counted. -/
def monthOf (leap : Bool) (n : Nat) : Nat :=
  ((List.range 12).filter fun m => daysBeforeMonth leap (m + 1) ≤ n).length

theorem yearAndDay_spec (n : Nat) : ∃ a b c e d, yearAndDay n = (a*400 + b*100 + c*4 + e + 1, d) ∧
    n = a*146097 + b*36524 + c*1461 + e*365 + d ∧ b ≤ 3 ∧ c ≤ 24 ∧ e ≤ 3 ∧
    (d < 365 ∨ (d = 365 ∧ e = 3 ∧ (c = 24 → b = 3))) := by
  refine ⟨_, _, _, _, _, rfl, ?_⟩
  omega

theorem daysBeforeYear_eq {a b c e : Nat} (hb : b ≤ 3) (hc : c ≤ 24) (he : e ≤ 3) :
    daysBeforeYear (a*400 + b*100 + c*4 + e + 1) = a*146097 + b*36524 + c*1461 + e*365 := by
  simp only [daysBeforeYear]
  omega

theorem isLeap_eq {a b c e : Nat} (hb : b ≤ 3) (hc : c ≤ 24) (he : e ≤ 3) :
    isLeap (a*400 + b*100 + c*4 + e + 1) = true ↔ e = 3 ∧ (c = 24 → b = 3) := by
  simp only [isLeap, Bool.and_eq_true, Bool.or_eq_true, beq_iff_eq, bne_iff_ne]
  omega

theorem monthOf_spec : ∀ leap, ∀ n < daysInYear leap, (0 < monthOf leap n ∧ monthOf leap n ≤ 12) ∧
    daysBeforeMonth leap (monthOf leap n) ≤ n ∧
    n < daysBeforeMonth leap (monthOf leap n) + daysInMonth leap (monthOf leap n) := by
  decide +kernel

theorem yearAndDay_lt (n : Nat) : (yearAndDay n).2 < daysInYear (isLeap (yearAndDay n).1) := by
  obtain ⟨a, b, c, e, d, h, -, hb, hc, he, hd⟩ := yearAndDay_spec n
  simp only [h, daysInYear]
  rcases hd with hd | ⟨rfl, hlast⟩
  · split <;> omega
  · rw [if_pos ((isLeap_eq hb hc he).mpr hlast)]
    omega

theorem yearAndDay_days (n : Nat) : daysBeforeYear (yearAndDay n).1 + (yearAndDay n).2 = n := by
  obtain ⟨a, b, c, e, d, h, hn, hb, hc, he, -⟩ := yearAndDay_spec n
  rw [h, daysBeforeYear_eq hb hc he]
  exact hn.symm

theorem yearAndDay_le {n : Nat} (h : n < maxOrdinal) :
    0 < (yearAndDay n).1 ∧ (yearAndDay n).1 ≤ 9999 := by
  obtain ⟨a, b, c, e, d, heq, hn, hb, hc, he, -⟩ := yearAndDay_spec n
  rw [heq]
  unfold maxOrdinal at h
  omega

def Date.ofYearAndDay (year rest : Nat) (hyear : 0 < year ∧ year ≤ 9999)
    (hrest : rest < daysInYear (isLeap year)) : Date :=
  have hmonth := monthOf_spec (isLeap year) rest hrest
  { year := year, month := monthOf (isLeap year) rest
    day := rest - daysBeforeMonth (isLeap year) (monthOf (isLeap year) rest) + 1
    year_pos := hyear.1, year_le := hyear.2, month_pos := hmonth.1.1, month_le := hmonth.1.2
    day_pos := Nat.succ_pos _, day_le := by omega }

theorem Date.toOrdinal_ofYearAndDay {year rest : Nat} (hyear : 0 < year ∧ year ≤ 9999)
    (hrest : rest < daysInYear (isLeap year)) :
    (Date.ofYearAndDay year rest hyear hrest).toOrdinal = daysBeforeYear year + rest + 1 := by
  have hmonth := monthOf_spec (isLeap year) rest hrest
  simp only [Date.toOrdinal, Date.ofYearAndDay]
  omega

def Date.ofOrdinal (n : Int) : Option Date :=
  if h : 1 ≤ n ∧ n ≤ maxOrdinal then
    some (Date.ofYearAndDay _ _ (yearAndDay_le (n := (n - 1).toNat) (by omega)) (yearAndDay_lt _))
  else none

theorem Date.ofOrdinal_eq_none {n : Int} : Date.ofOrdinal n = none ↔ n < 1 ∨ maxOrdinal < n := by
  unfold Date.ofOrdinal
  split <;> simp <;> omega

theorem Date.toOrdinal_ofOrdinal {n : Int} {d : Date} (h : Date.ofOrdinal n = some d) :
    (d.toOrdinal : Int) = n := by
  unfold Date.ofOrdinal at h
  split at h
  · next hn =>
    cases h
    rw [Date.toOrdinal_ofYearAndDay, yearAndDay_days]
    omega
  · cases h

/-- The Monday that starts week 1: the week of the first Thursday. -/
def isoweek1monday (year : Nat) : Int :=
  let firstday : Int := daysBeforeYear year + 1
  let firstweekday := (firstday + 6) % 7
  if 3 < firstweekday then firstday - firstweekday + 7 else firstday - firstweekday

/-- A year has 53 weeks when it starts on a Thursday, or on a Wednesday and is a leap year. -/
def isLongYear (year : Nat) : Bool :=
  let firstWeekday := (daysBeforeYear year + 1) % 7
  firstWeekday == 4 || (firstWeekday == 3 && isLeap year)

def Date.ofIsoweek (year week day : Nat) : Option Date :=
  if (0 < year ∧ year ≤ 9999) ∧ (0 < week ∧ week < 53 ∨ week = 53 ∧ isLongYear year) ∧
      0 < day ∧ day < 8 then
    Date.ofOrdinal (isoweek1monday year + (week - 1) * 7 + (day - 1))
  else none

example : Date.ofIsoweek 2020 53 5 = Date.ofFields 2021 1 1 := by decide +kernel

def dayMicros : Nat := 86400000000

structure Clock where
  hour : Nat
  minute : Nat
  second : Nat
  microsecond : Nat
  hour_lt : hour < 24
  minute_lt : minute < 60
  second_lt : second < 60
  microsecond_lt : microsecond < 1000000
  deriving DecidableEq

def Clock.ofFields (hour minute second microsecond : Nat) : Option Clock :=
  if h : hour < 24 ∧ minute < 60 ∧ second < 60 ∧ microsecond < 1000000 then
    some ⟨hour, minute, second, microsecond, h.1, h.2.1, h.2.2.1, h.2.2.2⟩
  else none

theorem Clock.ofFields_fields (c : Clock) :
    Clock.ofFields c.hour c.minute c.second c.microsecond = some c :=
  dif_pos ⟨c.hour_lt, c.minute_lt, c.second_lt, c.microsecond_lt⟩

def microsOf (hour minute second microsecond : Nat) : Nat :=
  ((hour * 60 + minute) * 60 + second) * 1000000 + microsecond

def Clock.micros (c : Clock) : Nat := microsOf c.hour c.minute c.second c.microsecond

def Clock.ofMicros (n : Nat) (h : n < dayMicros) : Clock where
  hour := n / 3600000000
  minute := n / 60000000 % 60
  second := n / 1000000 % 60
  microsecond := n % 1000000
  hour_lt := by unfold dayMicros at h; omega
  minute_lt := by omega
  second_lt := by omega
  microsecond_lt := by omega

theorem Clock.micros_ofMicros {n : Nat} (h : n < dayMicros) : (Clock.ofMicros n h).micros = n := by
  simp only [Clock.micros, microsOf, Clock.ofMicros]
  omega

structure DateTime where
  date : Date
  clock : Clock
  deriving DecidableEq

/-- Microseconds since the start of 0001-01-01. -/
def DateTime.micros (t : DateTime) : Int := (t.date.toOrdinal - 1) * dayMicros + t.clock.micros

def DateTime.ofMicros (n : Int) : Option DateTime :=
  (Date.ofOrdinal (n / dayMicros + 1)).map fun date =>
    ⟨date, Clock.ofMicros (n % dayMicros).toNat (by unfold dayMicros; omega)⟩

theorem DateTime.isSome_ofMicros {n : Int} :
    (DateTime.ofMicros n).isSome ↔ 0 ≤ n ∧ n < maxOrdinal * dayMicros := by
  rw [DateTime.ofMicros, Option.isSome_map, ← Option.ne_none_iff_isSome, ne_eq,
    Date.ofOrdinal_eq_none]
  simp only [maxOrdinal, dayMicros]
  omega

theorem DateTime.micros_ofMicros {n : Int} {t : DateTime} (h : DateTime.ofMicros n = some t) :
    t.micros = n := by
  obtain ⟨date, hdate, rfl⟩ := Option.map_eq_some_iff.mp h
  simp only [DateTime.micros, Clock.micros_ofMicros, Date.toOrdinal_ofOrdinal hdate, dayMicros]
  omega

structure Offset where
  micros : Int
  neg_day_lt : -(dayMicros : Int) < micros
  lt_day : micros < dayMicros
  deriving DecidableEq

def Offset.ofMicros (n : Int) : Option Offset :=
  if h : -(dayMicros : Int) < n ∧ n < dayMicros then some ⟨n, h.1, h.2⟩ else none

theorem Offset.ofMicros_micros (o : Offset) : Offset.ofMicros o.micros = some o :=
  dif_pos ⟨o.neg_day_lt, o.lt_day⟩

def Offset.clock (o : Offset) : Clock :=
  Clock.ofMicros o.micros.natAbs (by have := o.neg_day_lt; have := o.lt_day; omega)

def Offset.utc : Offset := ⟨0, by decide, by decide⟩

structure Aware where
  wall : DateTime
  utcoffset : Offset
  deriving DecidableEq

/-- 1970-01-01 is day 719163. -/
def epochMicros : Int := 719162 * dayMicros

/-- Microseconds since the start of 1970-01-01, UTC. -/
def Aware.instant (t : Aware) : Int := t.wall.micros - t.utcoffset.micros - epochMicros

def Aware.ofInstant (n : Int) : Option Aware :=
  (DateTime.ofMicros (n + epochMicros)).map fun t => ⟨t, .utc⟩

/-- `astimezone(UTC)`; nothing is returned where it raises `OverflowError`. -/
def Aware.astimezoneUtc (t : Aware) : Option Aware :=
  (DateTime.ofMicros (t.wall.micros - t.utcoffset.micros)).map fun t => ⟨t, .utc⟩

def Representable (n : Int) : Prop := -62135596800000000 ≤ n ∧ n < 253402300800000000

instance (n : Int) : Decidable (Representable n) := inferInstanceAs (Decidable (_ ∧ _))

theorem Aware.astimezoneUtc_eq (t : Aware) : t.astimezoneUtc = Aware.ofInstant t.instant := by
  simp [astimezoneUtc, ofInstant, instant]

theorem Aware.isSome_ofInstant {n : Int} : (Aware.ofInstant n).isSome ↔ Representable n := by
  rw [Aware.ofInstant, Option.isSome_map, DateTime.isSome_ofMicros]
  simp only [Representable, maxOrdinal, dayMicros, epochMicros]
  omega

theorem Aware.instant_ofInstant {n : Int} {t : Aware} (h : Aware.ofInstant n = some t) :
    t.instant = n ∧ t.utcoffset = .utc := by
  obtain ⟨u, hu, rfl⟩ := Option.map_eq_some_iff.mp h
  refine ⟨?_, rfl⟩
  simp only [Aware.instant, DateTime.micros_ofMicros hu, Offset.utc]
  omega

example : (Aware.ofInstant 0).map (fun t => t.wall.date) = Date.ofFields 1970 1 1 := by
  decide +kernel

end Calendar
