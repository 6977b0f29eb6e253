import MultiTenantSaas.Calendar
import MultiTenantSaas.Digits

/-!
ISO 8601 texts of datetimes: `isoformat`, which leaves out a fraction of 0, and
`fromisoformat`, which reads the basic and the extended formats, calendar dates and week
dates, and a fraction of any length.
-/

set_option autoImplicit false

namespace IsoFormat

open Calendar Digits

def dateText (d : Date) : List Char :=
  digits 10 4 d.year ++ '-' :: digits 10 2 d.month ++ '-' :: digits 10 2 d.day

def minuteText (c : Clock) : List Char := digits 10 2 c.hour ++ ':' :: digits 10 2 c.minute

def fractionText (microsecond : Nat) : List Char :=
  if microsecond = 0 then [] else '.' :: digits 10 6 microsecond

def clockText (c : Clock) : List Char :=
  minuteText c ++ ':' :: digits 10 2 c.second ++ fractionText c.microsecond

def shortText (c : Clock) : List Char :=
  if c.second = 0 ∧ c.microsecond = 0 then minuteText c else clockText c

def offsetText (o : Offset) : List Char :=
  (if o.micros < 0 then '-' else '+') :: shortText o.clock

def isoformat (t : DateTime) (offset : Option Offset) : List Char :=
  dateText t.date ++ 'T' :: clockText t.clock ++ offset.elim [] offsetText

/-- Six digits of a fraction count. -/
def readFraction (s : List Char) : Option Nat := do
  let k := min 6 s.length
  let (n, rest) ← readDigits 10 k 0 s
  if s ≠ [] ∧ rest.all (isDigit 10) then some (n * 10 ^ (6 - k)) else none

def readSecond (sep : Bool) (hour minute : Nat) : List Char → Option (Nat × Nat × Nat × Nat)
  | [] => some (hour, minute, 0, 0)
  | c :: s => do
    if sep && c != ':' then none
    let (second, s) ← readDigits 10 2 0 (if sep then s else c :: s)
    match s with
    | [] => some (hour, minute, second, 0)
    | c :: s =>
      if c = '.' ∨ c = ',' then (readFraction s).map (hour, minute, second, ·) else none

/-- `HH[:MM[:SS[.f+]]]`, with or without the colons. -/
def readClock (s : List Char) : Option (Nat × Nat × Nat × Nat) := do
  let (hour, s) ← readDigits 10 2 0 s
  match s with
  | [] => some (hour, 0, 0, 0)
  | c :: s =>
    let sep := c == ':'
    let (minute, s) ← readDigits 10 2 0 (if sep then s else c :: s)
    readSecond sep hour minute s

/-- `Www[-D]` after the `W`, with or without the dash. -/
def readWeek (year : Nat) (sep : Bool) (s : List Char) : Option Date := do
  let (week, s) ← readDigits 10 2 0 s
  if s = [] then Date.ofIsoweek year week 1
  else if (s.head? == some '-') != sep then none
  else
    let (day, _) ← readDigits 10 1 0 (if sep then s.tail else s)
    Date.ofIsoweek year week day

def readDay (year : Nat) (sep : Bool) (s : List Char) : Option Date := do
  let (month, s) ← readDigits 10 2 0 s
  if (s.head? == some '-') != sep then none
  let (day, _) ← readDigits 10 2 0 (if sep then s.tail else s)
  Date.ofFields year month day

def readDate (s : List Char) : Option Date := do
  let (year, s) ← readDigits 10 4 0 s
  let sep := s.head? == some '-'
  let s := if sep then s.tail else s
  if s.head? = some 'W' then readWeek year sep s.tail else readDay year sep s

def dateLength (s : List Char) : Option Nat :=
  if s.length = 7 then some 7
  else if s[4]? = some '-' then
    if s[5]? = some 'W' then
      if s[8]? = some '-' then
        -- a digit there belongs to the time: the dash was the separator
        if s.length = 9 then none else if s[10]?.any (isDigit 10) then some 8 else some 10
      else some 8
    else some 10
  else if s[4]? = some 'W' then
    let n := 7 + ((s.drop 7).takeWhile (isDigit 10)).length
    if n < 9 then some n else if n % 2 = 0 then some 7 else some 8
  else some 8

def isZoneMark (c : Char) : Bool := c == '+' || c == '-' || c == 'Z'

def readOffset : List Char → Option (Option Offset)
  | [] => some none
  | c :: s =>
    if c = 'Z' then if s = [] then some (some .utc) else none
    else do
      let (hour, minute, second, microsecond) ← readClock s
      let n : Int := microsOf hour minute second microsecond
      let offset ← Offset.ofMicros (if c = '-' then -n else n)
      some (some offset)

def readTime (s : List Char) : Option (Clock × Option Offset) := do
  let (hour, minute, second, microsecond) ← readClock (s.takeWhile (!isZoneMark ·))
  let clock ← Clock.ofFields hour minute second microsecond
  let offset ← readOffset (s.dropWhile (!isZoneMark ·))
  return (clock, offset)

def midnight : Clock := Clock.ofMicros 0 (by decide)

/-- A date alone is read as its midnight; any one character may stand before the time. -/
def fromisoformat (s : List Char) : Option (DateTime × Option Offset) := do
  if s.length < 7 then none
  let n ← dateLength s
  let date ← readDate (s.take n)
  let (clock, offset) ←
    if s.length ≤ n then some (midnight, none) else readTime (s.drop (n + 1))
  some (⟨date, clock⟩, offset)

theorem read_two {n : Nat} (h : n < 100) (s : List Char) :
    readDigits 10 2 0 (digits 10 2 n ++ s) = some (n, s) :=
  readDigits_of_lt (by decide) (by decide) h s

theorem read_two_end {n : Nat} (h : n < 100) :
    readDigits 10 2 0 (digits 10 2 n) = some (n, []) := by
  simpa using read_two h []

theorem readFraction_digits {n : Nat} (h : n < 1000000) :
    readFraction (digits 10 6 n) = some n := by
  have hread := readDigits_of_lt (show 0 < 10 by decide) (by decide)
    (show n < 10 ^ 6 by omega) []
  have hne : digits 10 6 n ≠ [] := List.ne_nil_of_length_pos (by simp)
  have hlen : min 6 (digits 10 6 n).length = 6 := by simp
  rw [List.append_nil] at hread
  unfold readFraction
  rw [hlen]
  simp only [hread, Option.bind_eq_bind, Option.bind_some]
  rw [if_pos ⟨hne, rfl⟩]
  simp

theorem readSecond_text (hour minute : Nat) {second microsecond : Nat} (hs : second < 60)
    (hf : microsecond < 1000000) :
    readSecond true hour minute (':' :: digits 10 2 second ++ fractionText microsecond) =
      some (hour, minute, second, microsecond) := by
  unfold fractionText
  split
  · next h => simp [readSecond, read_two_end (show second < 100 by omega), h]
  · simp [readSecond, read_two (show second < 100 by omega), readFraction_digits hf]

theorem readClock_minuteText (c : Clock) (s : List Char) :
    readClock (minuteText c ++ s) = readSecond true c.hour c.minute s := by
  have hh := c.hour_lt
  have hm := c.minute_lt
  simp [readClock, minuteText, read_two (show c.hour < 100 by omega),
    read_two (show c.minute < 100 by omega)]

theorem readClock_clockText (c : Clock) :
    readClock (clockText c) = some (c.hour, c.minute, c.second, c.microsecond) := by
  rw [clockText, List.append_assoc, readClock_minuteText]
  exact readSecond_text _ _ c.second_lt c.microsecond_lt

theorem readClock_minutes (c : Clock) :
    readClock (minuteText c) = some (c.hour, c.minute, 0, 0) := by
  rw [← List.append_nil (minuteText c), readClock_minuteText]
  rfl

theorem head_digits {c : Char} (hc : isDigit 10 c = false) (n : Nat) (s : List Char) :
    (digits 10 2 n ++ s).head? ≠ some c := by
  have hd : isDigit 10 (digitChar (n / 10 % 10)) = true :=
    isDigit_digitChar (by decide) (Nat.mod_lt _ (by decide))
  intro h
  have heq : digitChar (n / 10 % 10) = c := Option.some.inj h
  rw [heq, hc] at hd
  cases hd

theorem readDate_dateText (d : Date) : readDate (dateText d) = some d := by
  have hy := d.year_le
  have hm := d.month_le
  have hd := d.day_le.trans (daysInMonth_le _ _ d.month_le)
  have hyear (s : List Char) : readDigits 10 4 0 (digits 10 4 d.year ++ s) = some (d.year, s) :=
    readDigits_of_lt (by decide) (by decide) (by omega) s
  simp only [readDate, dateText, List.append_assoc, List.cons_append, hyear, Option.bind_eq_bind,
    Option.bind_some, List.head?_cons, BEq.rfl, if_true, List.tail_cons,
    head_digits (c := 'W') (by decide), if_false]
  simp [readDay, read_two (show d.month < 100 by omega), read_two_end (show d.day < 100 by omega),
    Date.ofFields_fields]

theorem dateLength_dateText (d : Date) (s : List Char) :
    dateLength (dateText d ++ 'T' :: s) = some 10 := by
  have hne : digitChar (d.month / 10 % 10) ≠ 'W' := by
    have h := head_digits (c := 'W') (by decide) d.month []
    simpa [digits] using h
  simp [dateLength, dateText, digits, hne]

theorem not_zoneMark_digits (k n : Nat) : ∀ c ∈ digits 10 k n, (!isZoneMark c) = true :=
  forall_mem_digits (by decide) (by decide) k n

theorem not_zoneMark_clockText (c : Clock) : ∀ x ∈ clockText c, (!isZoneMark x) = true := by
  have hfraction : ∀ x ∈ fractionText c.microsecond, (!isZoneMark x) = true := by
    unfold fractionText
    split
    · exact nofun
    · exact List.forall_mem_cons.mpr ⟨by decide, not_zoneMark_digits 6 _⟩
  simp only [clockText, minuteText, List.forall_mem_append, List.forall_mem_cons]
  exact ⟨⟨⟨not_zoneMark_digits 2 _, by decide, not_zoneMark_digits 2 _⟩, by decide,
    not_zoneMark_digits 2 _⟩, hfraction⟩

theorem readClock_shortText (c : Clock) :
    readClock (shortText c) = some (c.hour, c.minute, c.second, c.microsecond) := by
  unfold shortText
  split
  · next h => rw [readClock_minutes, h.1, h.2]
  · exact readClock_clockText c

theorem readOffset_cons {c : Char} {s : List Char} {hour minute second microsecond : Nat}
    (hc : c ≠ 'Z') (h : readClock s = some (hour, minute, second, microsecond)) :
    readOffset (c :: s) = (Offset.ofMicros (if c = '-' then
      -(microsOf hour minute second microsecond : Int)
        else microsOf hour minute second microsecond)).map some := by
  rw [readOffset, if_neg hc, h]
  simp only [Option.bind_eq_bind, Option.bind_some, Option.map_eq_bind]
  rfl

theorem readOffset_offsetText (o : Offset) : readOffset (offsetText o) = some (some o) := by
  have hclock := readClock_shortText o.clock
  have hmicros : microsOf o.clock.hour o.clock.minute o.clock.second
      o.clock.microsecond = o.micros.natAbs := by
    rw [← Clock.micros, Offset.clock, Clock.micros_ofMicros]
  by_cases hneg : o.micros < 0
  · have hn : -(o.micros.natAbs : Int) = o.micros := by omega
    rw [offsetText, if_pos hneg, readOffset_cons (by decide) hclock, hmicros, if_pos rfl, hn,
      Offset.ofMicros_micros, Option.map_some]
  · have hn : (o.micros.natAbs : Int) = o.micros := by omega
    rw [offsetText, if_neg hneg, readOffset_cons (by decide) hclock, hmicros,
      if_neg (by decide), hn, Offset.ofMicros_micros, Option.map_some]

theorem readOffset_text (offset : Option Offset) :
    readOffset (offset.elim [] offsetText) = some offset := by
  cases offset with
  | none => rfl
  | some o => exact readOffset_offsetText o

theorem zoneMark_text (offset : Option Offset) :
    (offset.elim [] offsetText).takeWhile (!isZoneMark ·) = [] ∧
      (offset.elim [] offsetText).dropWhile (!isZoneMark ·) = offset.elim [] offsetText := by
  cases offset with
  | none => exact ⟨rfl, rfl⟩
  | some o =>
    rw [Option.elim_some, offsetText]
    split <;> exact ⟨rfl, rfl⟩

theorem readTime_text (c : Clock) (offset : Option Offset) :
    readTime (clockText c ++ offset.elim [] offsetText) = some (c, offset) := by
  have hclock := not_zoneMark_clockText c
  obtain ⟨htake, hdrop⟩ := zoneMark_text offset
  have htime : (clockText c ++ offset.elim [] offsetText).takeWhile (!isZoneMark ·) =
      clockText c := by
    rw [List.takeWhile_append_of_pos hclock, htake, List.append_nil]
  have hzone : (clockText c ++ offset.elim [] offsetText).dropWhile (!isZoneMark ·) =
      offset.elim [] offsetText := by
    rw [List.dropWhile_append_of_pos hclock, hdrop]
  rw [readTime, htime, hzone, readClock_clockText, readOffset_text]
  simp [Clock.ofFields_fields]

theorem fromisoformat_isoformat (t : DateTime) (offset : Option Offset) :
    fromisoformat (isoformat t offset) = some (t, offset) := by
  have htext : isoformat t offset =
      dateText t.date ++ 'T' :: (clockText t.clock ++ offset.elim [] offsetText) := by
    simp [isoformat]
  have hlen : (dateText t.date).length = 10 := by simp [dateText]
  have htake (s : List Char) : (dateText t.date ++ s).take 10 = dateText t.date :=
    List.take_left' hlen
  have hdrop (s : List Char) : (dateText t.date ++ 'T' :: s).drop 11 = s := by
    rw [List.append_cons, List.drop_left' (by simp [hlen])]
  have hlong (s : List Char) : 10 < (dateText t.date ++ 'T' :: s).length := by simp [hlen]
  have hshort (s : List Char) : ¬ (dateText t.date ++ 'T' :: s).length < 7 := by
    have := hlong s
    omega
  rw [htext, fromisoformat, if_neg (hshort _), dateLength_dateText]
  simp only [Option.bind_eq_bind, Option.bind_some, htake, hdrop, readDate_dateText,
    if_neg (Nat.not_le.mpr (hlong _)), readTime_text]

example : (fromisoformat "2021-W01-5T093000.5-0330".toList).map (fun r => isoformat r.1 r.2) =
    some "2021-01-08T09:30:00.500000-03:30".toList := by decide +kernel

end IsoFormat
