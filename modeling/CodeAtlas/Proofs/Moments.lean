import Mathlib.Data.List.Basic
import Mathlib.Data.List.TakeWhile
import CodeAtlas.Data.Moment
import CodeAtlas.Proofs.Numerals

/-!
# Moments and their texts

The date of a day is the one that the calendar counts back to that day, and a moment in universal
time is read back from its text. So a date that is kept as a text is compared as if it had been kept
itself.

A date may also be written with a clock and a zone, or without them (`WrittenDate`); it is read as
the moment that it names.
-/

namespace CodeAtlas.Moment

open List

/-! ## The calendar

Years and months are found by counting days. -/

theorem getLast?_filter_range {p : Nat → Bool} {k : Nat} (hfirst : p 0) (hend : p k = false) :
    ∃ i < k, ((List.range k).filter p).getLast? = some i ∧ p i ∧ p (i + 1) = false := by
  induction k with
  | zero => rw [hfirst] at hend; cases hend
  | succ k ih =>
    rw [range_succ, filter_append]
    cases hk : p k with
    | true => exact ⟨k, by omega, by simp [hk], hk, hend⟩
    | false =>
      obtain ⟨i, hi, hlast, hp⟩ := ih hk
      exact ⟨i, by omega, by simpa [hk] using hlast, hp⟩

theorem daysBeforeYear_eq (year : Int) :
    daysBeforeYear year = (year - 1) * 365 + (year - 1) / 4 - (year - 1) / 100 + (year - 1) / 400 :=
  rfl

theorem yearOfDay_spec {n : Int} (hn : 0 ≤ n) :
    1 ≤ yearOfDay n ∧ daysBeforeYear (yearOfDay n) ≤ n ∧ n < daysBeforeYear (yearOfDay n + 1) := by
  -- a year has at most 366 days, so the search starts early enough; over 400 years the guess loses
  -- less
  -- than a year, so it also ends late enough
  obtain ⟨i, -, hlast, hle, hlt⟩ := getLast?_filter_range
    (p := fun k : Nat => decide (daysBeforeYear (n / 366 + 1 + k) ≤ n))
      (k := (n / 366 / 400 + 3).toNat)
    (decide_eq_true (by rw [daysBeforeYear_eq]; omega))
      (decide_eq_false (by rw [daysBeforeYear_eq]; omega))
  have hyear : yearOfDay n = n / 366 + 1 + i := by
    simp only [yearOfDay, filter_map, getLast?_map]
    unfold Function.comp
    rw [hlast]
    rfl
  have hle := of_decide_eq_true hle
  have hlt := of_decide_eq_false hlt
  push_cast at hlt
  rw [hyear]
  refine ⟨by omega, hle, ?_⟩
  rw [← Int.add_assoc] at hlt
  omega

theorem daysBeforeMonth_succ (year : Int) (month : Nat) :
    daysBeforeMonth year (month + 1 + 1) = daysBeforeMonth year (month + 1) + monthLength year
      (month + 1) := by
  simp [daysBeforeMonth, range_succ]

theorem daysBeforeMonth_thirteen (year : Int) :
    (daysBeforeMonth year 13 : Int) = daysBeforeYear (year + 1) - daysBeforeYear year := by
  have hmonths : daysBeforeMonth year 13 = 337 + monthLength year 2 := by
    simp [daysBeforeMonth, range_succ, monthLength]
    omega
  have hleap : isLeap year ↔ year % 4 = 0 ∧ (year % 100 ≠ 0 ∨ year % 400 = 0) := by
    simp [isLeap]
  have hlength : monthLength year 2 = if isLeap year then 29 else 28 := rfl
  rw [hmonths, hlength, daysBeforeYear_eq, daysBeforeYear_eq]
  split
  · next h =>
    have hdiv := hleap.1 h
    omega
  · next h =>
    have hdiv := mt hleap.2 h
    omega

theorem monthOfDay_spec {year : Int} {place : Nat} (hplace : place < daysBeforeMonth year 13) :
    ∃ month, 1 ≤ month ∧ month ≤ 12 ∧
      monthOfDay year place = (month, place - daysBeforeMonth year month + 1) ∧
      daysBeforeMonth year month ≤ place ∧
      place < daysBeforeMonth year month + monthLength year month := by
  obtain ⟨i, hi, hlast, hle, hlt⟩ := getLast?_filter_range
    (p := fun k : Nat => decide (daysBeforeMonth year (k + 1) ≤ place)) (k := 12)
    (decide_eq_true (Nat.zero_le _)) (decide_eq_false (Nat.not_le.2 hplace))
  have hle := of_decide_eq_true hle
  have hlt := of_decide_eq_false hlt
  rw [daysBeforeMonth_succ] at hlt
  refine ⟨i + 1, by omega, by omega, ?_, hle, by omega⟩
  have hmonth : (((List.range 12).map (· + 1)).filter fun m => daysBeforeMonth year m ≤
      place).getLast?.getD 1 = i + 1 := by
    rw [filter_map, getLast?_map]
    unfold Function.comp
    rw [hlast]
    rfl
  simp only [monthOfDay, hmonth]

structure IsDate (year month dayOfMonth : Nat) : Prop where
  inYears : 1 ≤ year ∧ year ≤ 9999
  inYear : 1 ≤ month ∧ month ≤ 12
  inMonth : 1 ≤ dayOfMonth ∧ dayOfMonth ≤ monthLength year month

/-- Every day up to the last one has a date, which names just that day. -/
theorem dateOfDay_spec {n : Int} (hn : 0 ≤ n) (hend : n < lastDay) :
    ∃ year month dayOfMonth :
    Nat, dateOfDay n = ((year : Int), month, dayOfMonth) ∧ IsDate year month dayOfMonth ∧
      dayNumber year month dayOfMonth = n := by
  obtain ⟨hone, hle, hlt⟩ := yearOfDay_spec hn
  obtain ⟨year, hyear⟩ := Int.eq_ofNat_of_zero_le (show 0 ≤ yearOfDay n by omega)
  rw [hyear] at hone hle hlt
  have hthirteen := daysBeforeMonth_thirteen year
  obtain ⟨month, hfirst, hmonth, hof, hbefore, hafter⟩ := monthOfDay_spec
    (show (n - daysBeforeYear year).toNat < daysBeforeMonth year 13 by omega)
  refine ⟨year, month, (n - daysBeforeYear year).toNat - daysBeforeMonth year month + 1, ?_,
    ⟨⟨by omega, ?_⟩, ⟨hfirst, hmonth⟩, ⟨Nat.le_add_left 1 _, by omega⟩⟩, ?_⟩
  · simp only [dateOfDay, hyear, hof]
  · -- a later year would lie behind the last day
    rw [lastDay, daysBeforeYear_eq] at hend
    rw [daysBeforeYear_eq] at hle
    omega
  · unfold dayNumber
    push_cast
    omega

section Padded

variable {width n : Nat}

theorem toList_padded (width n : Nat) :
    (padded width n).toList =
      List.replicate (width - (Nat.toDigits 10 n).length) '0' ++ Nat.toDigits 10 n := by
  simp [padded, Text.padLeft, Decimal.digits]

theorem isDigit_of_mem_padded {c : Char} (hc : c ∈ (padded width n).toList) : Json.isDigit c := by
  rw [toList_padded] at hc
  rcases mem_append.1 hc with hzero | hdigit
  · rw [eq_of_mem_replicate hzero]
    decide
  · exact Json.isDigit_of_mem_toDigits hdigit

theorem length_padded (hwidth : 0 < width) (hn : n < 10 ^ width) :
    (padded width n).toList.length = width := by
  have hlength : (Nat.toDigits 10 n).length ≤ width :=
    (Nat.length_toDigits_le_iff (by decide) hwidth).2 hn
  rw [toList_padded, length_append, length_replicate]
  omega

theorem digitsValue_padded : Json.digitsValue (padded width n).toList = n := by
  rw [toList_padded, Json.digitsValue_append, Json.digitsValue_zeros, Json.digitsValue_toDigits]
  omega

theorem digits?_padded (hwidth : 0 < width) (hn : n < 10 ^ width) (rest : List Char) :
    digits? width ((padded width n).toList ++ rest) = some (n, rest) := by
  have hlength := length_padded hwidth hn
  have htake : ((padded width n).toList ++ rest).take width = (padded width n).toList :=
    take_left' hlength
  have hdrop : ((padded width n).toList ++ rest).drop width = rest := drop_left' hlength
  have hdigits : (padded width n).toList.all Json.isDigit :=
    all_eq_true.2 fun c => isDigit_of_mem_padded
  simp [digits?, htake, hdrop, hlength, hdigits, digitsValue_padded]

end Padded

theorem fraction?_padded {f : Nat} (hf : f < 10 ^ 6) :
    fraction? (padded 6 f).toList = some (f, []) := by
  have hread := digits?_padded (by decide) hf []
  rw [append_nil] at hread
  simp [fraction?, length_padded (by decide) hf, hread]

theorem padded_two {n : Nat} (hn : n < 100) : ∃ a b, (padded 2 n).toList = [a, b] :=
  length_eq_two.1 (length_padded (by decide) hn)

variable {m t y d : Nat}

theorem clock?_colons {h s : Nat} (hh : h < 100) (hm : m < 100) (hs : s < 100) {rest : List Char}
    {f : Nat} (hrest : rest = [] ∧ f = 0 ∨ ∃ c cs, rest = '.' :: c :: cs ∧
      fraction? (c :: cs) = some (f, [])) :
    clock? ((padded 2 h).toList ++ ':' :: ((padded 2 m).toList ++ ':' ::
      ((padded 2 s).toList ++ rest))) = some ((h, m, s, f), false) := by
  have hread {n : Nat} (hn : n < 100) (cs : List Char) : digits? 2 ((padded 2 n).toList ++ cs) =
      some (n, cs) :=
    digits?_padded (by decide) hn cs
  obtain ⟨a, b, hab⟩ := padded_two hm
  obtain ⟨a', b', hab'⟩ := padded_two hs
  have hminutes := hread hm (':' :: ((padded 2 s).toList ++ rest))
  have hseconds := hread hs rest
  rw [hab, hab'] at hminutes
  rw [hab'] at hseconds
  rw [clock?, hread hh, hab, hab']
  simp only [cons_append, nil_append] at hminutes hseconds ⊢
  rcases hrest with ⟨rfl, rfl⟩ | ⟨c, cs, rfl, hfraction⟩
  · simp [hminutes, hseconds]
  · simp [hminutes, hseconds, hfraction]

def fractionText (f : Nat) : List Char :=
  if f = 0 then [] else '.' :: (padded 6 f).toList

theorem toList_clockText (t : Nat) :
    (clockText t).toList = (padded 2 (t / 1000000 / 3600)).toList ++ ':' ::
      ((padded 2 (t / 1000000 / 60 % 60)).toList ++ ':' ::
        ((padded 2 (t / 1000000 % 60)).toList ++ fractionText (t % 1000000))) := by
  by_cases hf : t % 1000000 = 0 <;> simp [clockText, fractionText, hf]

theorem clock?_clockText (ht : t < 86400000000) :
    clock? (clockText t).toList =
      some ((t / 1000000 / 3600, t / 1000000 / 60 % 60, t / 1000000 % 60, t % 1000000), false) := by
  rw [toList_clockText]
  refine clock?_colons (by omega) (by omega) (by omega) ?_
  unfold fractionText
  split
  · next hf => exact .inl ⟨rfl, hf⟩
  · have hf : t % 1000000 < 10 ^ 6 := Nat.mod_lt _ (by decide)
    have hfraction := fraction?_padded hf
    cases hcs : (padded 6 (t % 1000000)).toList with
    | nil =>
      have hlength := length_padded (by decide) hf
      rw [hcs] at hlength
      cases hlength
    | cons c cs =>
      rw [hcs] at hfraction
      exact .inr ⟨c, cs, rfl, hfraction⟩

theorem mem_clockText {c : Char} (hc : c ∈ (clockText t).toList) :
    Json.isDigit c ∨ c = ':' ∨ c = '.' := by
  have hfraction (hc : c ∈ fractionText (t % 1000000)) :
      Json.isDigit c ∨ c = ':' ∨ c = '.' := by
    unfold fractionText at hc
    split at hc
    · cases hc
    · rcases mem_cons.1 hc with rfl | hc
      · exact .inr (.inr rfl)
      · exact .inl (isDigit_of_mem_padded hc)
  rw [toList_clockText] at hc
  simp only [mem_append, mem_cons] at hc
  rcases hc with hc | hc | hc | hc | hc | hc
  · exact .inl (isDigit_of_mem_padded hc)
  · exact .inr (.inl hc)
  · exact .inl (isDigit_of_mem_padded hc)
  · exact .inr (.inl hc)
  · exact .inl (isDigit_of_mem_padded hc)
  · exact hfraction hc

theorem startsOffset_of_mem_clockText {c : Char} (hc : c ∈ (clockText t).toList) :
    startsOffset c = false := by
  refine Bool.eq_false_iff.2 fun hstarts => ?_
  simp only [startsOffset, Bool.or_eq_true, beq_iff_eq] at hstarts
  have hclock := mem_clockText hc
  rcases hstarts with (rfl | rfl) | rfl <;> revert hclock <;> decide

theorem date?_hyphens (hy : y < 10000) (hm : m < 100) (hd : d < 100) (rest : List Char) :
    date? ((padded 4 y).toList ++ '-' :: ((padded 2 m).toList ++ '-' ::
      ((padded 2 d).toList ++ rest))) = some ((y, m, d), rest) := by
  have hyear := digits?_padded (by decide : 0 < 4) hy
  have hmonth := digits?_padded (by decide : 0 < 2) hm
  have hday := digits?_padded (by decide : 0 < 2) hd
  simp [date?, hyear, hmonth, hday]

/-- The offset that stands behind a time of day, if one does. -/
def ZoneText (zone : List Char) (offset : Option Int) : Prop :=
  zone = [] ∧ offset = none ∨ ∃ sign rest o, zone = sign :: rest ∧ startsOffset sign = true ∧
    offset? zone = some o ∧ offset = some o

theorem parts?_clock (hy : y < 10000) (hm : m < 100) (hd : d < 100) (ht : t < 86400000000)
    (divider : Char) {zone : List Char} {offset : Option Int} (hzone : ZoneText zone offset) :
    parts? ((padded 4 y).toList ++ '-' :: ((padded 2 m).toList ++ '-' :: ((padded 2 d).toList ++
        divider :: ((clockText t).toList ++ zone)))) =
      some ((y, m, d), (t / 1000000 / 3600, t / 1000000 / 60 % 60, t / 1000000 % 60, t % 1000000),
        offset) := by
  have hclock : ∀ c ∈ (clockText t).toList, (!startsOffset c) := by
    intro c hc
    rw [startsOffset_of_mem_clockText hc]
    rfl
  have hne : (clockText t).toList ≠ [] := by
    rw [toList_clockText]
    simp
  rcases hzone with ⟨rfl, rfl⟩ | ⟨sign, rest, o, rfl, hsign, hoffset, rfl⟩
  · have htake : (clockText t).toList.takeWhile (fun c => !startsOffset c) = (clockText t).toList :=
      takeWhile_eq_self_iff.2 hclock
    have hdrop : (clockText t).toList.dropWhile (fun c => !startsOffset c) = [] :=
      dropWhile_eq_nil_iff.2 hclock
    simp [parts?, date?_hyphens hy hm hd, htake, hdrop, clock?_clockText ht,
      String.toList_eq_nil_iff.not.1 hne]
  · have htake : ((clockText t).toList ++ sign :: rest).takeWhile (fun c => !startsOffset c) =
        (clockText t).toList := by
      rw [takeWhile_append_of_pos hclock, takeWhile_cons_of_neg (by simp [hsign]), append_nil]
    have hdrop : ((clockText t).toList ++ sign :: rest).dropWhile (fun c => !startsOffset c) =
        sign :: rest := by
      rw [dropWhile_append_of_pos hclock, dropWhile_cons_of_neg (by simp [hsign])]
    simp [parts?, date?_hyphens hy hm hd, htake, hdrop, clock?_clockText ht, hoffset]

theorem parse_of_parts {text : String} {offset : Option Int}
    (hparts : parts? text.toList = some ((y, m, d), (t / 1000000 / 3600, t / 1000000 / 60 % 60,
      t / 1000000 % 60, t % 1000000), offset))
    (hoffset : ∀ o ∈ offset, -day < o ∧ o < day) (hy : 0 < y) (hm : 0 < m ∧ m ≤ 12)
    (hd : 0 < d ∧ d ≤ monthLength y m)
    (ht : t < 86400000000) : parse text = .ok ⟨dayNumber y m d * day + t, offset⟩ := by
  have hrange : (offset.any fun o => o ≤ -day || day ≤ o) = false := by
    cases offset with
    | none => rfl
    | some o =>
      obtain ⟨hlow, hhigh⟩ := hoffset o rfl
      simp [hlow, hhigh]
  rw [parse, hparts]
  simp only [hrange]
  rw [if_neg (by simp), if_neg (by omega), if_neg (by simp; omega), if_neg (by simp; omega),
    if_neg (by omega), if_neg (by omega), if_neg (by omega)]
  have hclock : (t / 1000000 / 3600 * 3600 + t / 1000000 / 60 % 60 * 60 + t / 1000000 % 60) *
      1000000 + t % 1000000 = t := by
    omega
  rw [hclock]

/-- A moment that the program wrote is read back. -/
theorem parse_toText {shown : Int} (hstart : 0 ≤ shown) (hend : shown < lastDay * day) :
    parse (toText ⟨shown, some 0⟩) = .ok ⟨shown, some 0⟩ := by
  obtain ⟨year, month, dayOfMonth, hdate, hisDate, hnumber⟩ := dateOfDay_spec
    (show 0 ≤ shown / day from Int.ediv_nonneg hstart (by decide))
    (show shown / day < lastDay from Int.ediv_lt_of_lt_mul (by decide) hend)
  obtain ⟨hyears, hyear, hmonth⟩ := hisDate
  have hlength : monthLength year month ≤ 31 := by unfold monthLength; grind
  have htext : (toText ⟨shown, some 0⟩).toList = (padded 4 year).toList ++ '-' ::
      ((padded 2 month).toList ++ '-' ::
        ((padded 2 dayOfMonth).toList ++ 'T' :: ((clockText (shown % day).toNat).toList ++
          (offsetText 0).toList))) := by
    simp [toText, dateText, hdate]
  -- the day and the time of day are what the moment shows
  have hsplit : shown / day * day + shown % day = shown := Int.ediv_mul_add_emod shown day
  obtain ⟨t, ht⟩ := Int.eq_ofNat_of_zero_le (Int.emod_nonneg shown (show day ≠ 0 by decide))
  have hlt : (t : Int) < 86400000000 := ht ▸ Int.emod_lt_of_pos shown (show 0 < day by decide)
  have hzone : ZoneText (offsetText 0).toList (some 0) :=
    .inr ⟨'+', ['0', '0', ':', '0', '0'], 0, by decide, by decide, by decide, rfl⟩
  rw [ht, Int.toNat_natCast] at htext
  rw [ht] at hsplit
  have hparts := parts?_clock (y := year) (m := month) (d := dayOfMonth) (t := t) (by omega)
    (by omega) (by omega) (by omega) 'T' hzone
  rw [← htext] at hparts
  rw [parse_of_parts hparts (by decide) (by omega) (by omega) (by omega) (by omega), hnumber,
    hsplit]

/-! ## Dates as they are written

Dates are read in several forms, of which the program writes one. -/

/-- What is written about the offset of a time of day: nothing, that there is none, or hours and
minutes. -/
inductive Zone where
  | unsaid
  | universal
  | shifted (west : Bool) (minutes : Nat) (minutes_lt : minutes < 1440)

def Zone.text : Zone → String
  | .unsaid => ""
  | .universal => "Z"
  | .shifted west minutes _ =>
    (if west then "-" else "+") ++ padded 2 (minutes / 60) ++ ":" ++ padded 2 (minutes % 60)

def Zone.offset : Zone → Option Int
  | .unsaid => none
  | .universal => some 0
  | .shifted west minutes _ =>
    let size : Int := minutes * 60000000
    some (if west then -size else size)

/-- A time of day, in microseconds, as it stands behind a date. -/
structure WrittenClock where
  /-- Whether a blank divides date and time; else a letter does. -/
  blank : Bool := false
  time : Nat
  time_lt : time < 86400000000
  zone : Zone

def WrittenClock.text (c : WrittenClock) : String :=
  (if c.blank then " " else "T") ++ clockText c.time ++ c.zone.text

/-- A date of the calendar as it is written, with a time of day or without. -/
structure WrittenDate where
  year : Nat
  month : Nat
  dayOfMonth : Nat
  year_pos : 0 < year
  year_lt : year < 10000
  month_pos : 0 < month
  month_le : month ≤ 12
  day_pos : 0 < dayOfMonth
  day_le : dayOfMonth ≤ monthLength year month
  clock : Option WrittenClock

namespace WrittenDate

variable (w : WrittenDate)

def text : String :=
  padded 4 w.year ++ "-" ++ padded 2 w.month ++ "-" ++ padded 2 w.dayOfMonth ++
    match w.clock with
    | some c => c.text
    | none => ""

def moment : Moment :=
  match w.clock with
  | some c => ⟨dayNumber w.year w.month w.dayOfMonth * day + c.time, c.zone.offset⟩
  | none => ⟨dayNumber w.year w.month w.dayOfMonth * day, none⟩

end WrittenDate

theorem clock?_minutes {h : Nat} (hh : h < 100) (hm : m < 100) :
    clock? ((padded 2 h).toList ++ ':' :: (padded 2 m).toList) = some ((h, m, 0, 0), false) := by
  have hhours := digits?_padded (by decide : 0 < 2) hh (':' :: (padded 2 m).toList)
  have hminutes := digits?_padded (by decide : 0 < 2) hm []
  obtain ⟨a, b, hab⟩ := padded_two hm
  rw [append_nil] at hminutes
  rw [hab] at hhours hminutes ⊢
  simp [clock?, hhours, hminutes]

theorem zoneText_text (z : Zone) : ZoneText z.text.toList z.offset := by
  cases z with
  | unsaid => exact .inl ⟨rfl, rfl⟩
  | universal => exact .inr ⟨'Z', [], 0, rfl, rfl, rfl, rfl⟩
  | shifted west minutes hminutes =>
    have hclock := clock?_minutes (h := minutes / 60) (m := minutes % 60) (by omega) (by omega)
    have hsize : ((minutes / 60 * 3600 + minutes % 60 * 60 + 0) * 1000000 + 0 : Nat) =
        (minutes : Int) * 60000000 := by
      omega
    cases west with
    | false =>
      refine .inr
        ⟨'+', (padded 2 (minutes / 60)).toList ++ ':' :: (padded 2 (minutes % 60)).toList, _, ?_,
          rfl, ?_, rfl⟩
      · simp [Zone.text]
      · simp [Zone.text, offset?, hclock]
        omega
    | true =>
      refine .inr
        ⟨'-', (padded 2 (minutes / 60)).toList ++ ':' :: (padded 2 (minutes % 60)).toList, _, ?_,
          rfl, ?_, rfl⟩
      · simp [Zone.text]
      · simp [Zone.text, offset?, hclock]
        omega

theorem Zone.offset_lt (z : Zone) : ∀ o ∈ z.offset, -day < o ∧ o < day := by
  have hday : day = 86400000000 := rfl
  cases z with
  | unsaid => simp [Zone.offset]
  | universal => simp [Zone.offset, hday]
  | shifted west minutes hminutes =>
    intro o ho
    obtain rfl := Option.some.inj ho
    cases west <;> simp <;> omega

namespace WrittenDate

variable (w : WrittenDate)

/-- **A date of any of these forms is read as what it means.** -/
theorem parse_text : parse w.text = .ok w.moment := by
  have hlength : monthLength w.year w.month ≤ 31 := by unfold monthLength; grind
  have hday := w.day_le
  have hmonth := w.month_le
  cases hclock : w.clock with
  | none =>
    have htext :
        w.text.toList = (padded 4 w.year).toList ++ '-' :: ((padded 2 w.month).toList ++ '-' ::
          ((padded 2 w.dayOfMonth).toList ++ [])) := by
      simp [text, hclock]
    have hparts : parts? w.text.toList = some ((w.year, w.month, w.dayOfMonth),
        (0 / 1000000 / 3600, 0 / 1000000 / 60 % 60, 0 / 1000000 % 60, 0 % 1000000), none) := by
      rw [htext, parts?, date?_hyphens w.year_lt (by omega) (by omega)]
      rfl
    rw [parse_of_parts hparts (by simp) w.year_pos ⟨w.month_pos, hmonth⟩ ⟨w.day_pos, hday⟩
      (by decide)]
    simp [moment, hclock]
  | some c =>
    have htext :
        w.text.toList = (padded 4 w.year).toList ++ '-' :: ((padded 2 w.month).toList ++ '-' ::
          ((padded 2 w.dayOfMonth).toList ++ (if c.blank then ' ' else 'T') ::
            ((clockText c.time).toList ++ c.zone.text.toList))) := by
      cases hblank : c.blank <;> simp [text, hclock, WrittenClock.text, hblank]
    have hparts := parts?_clock (y := w.year) (m := w.month) (d := w.dayOfMonth) (t := c.time)
      w.year_lt (by omega)
      (by omega) c.time_lt (if c.blank then ' ' else 'T') (zoneText_text c.zone)
    rw [← htext] at hparts
    rw [parse_of_parts hparts c.zone.offset_lt w.year_pos ⟨w.month_pos, hmonth⟩ ⟨w.day_pos, hday⟩
      c.time_lt]
    simp [moment, hclock]

end WrittenDate

def IsDateChar (c : Char) : Prop :=
  Json.isDigit c = true ∨ c ∈ ['-', ':', '.', '+', ' ', 'T', 'Z']

instance (c : Char) : Decidable (IsDateChar c) :=
  inferInstanceAs (Decidable (_ ∨ _))

variable {c : Char}

theorem isDateChar_of_mem_padded {k n : Nat} (hc : c ∈ (padded k n).toList) : IsDateChar c :=
  .inl (isDigit_of_mem_padded hc)

theorem Zone.isDateChar_of_mem {z : Zone} (hc : c ∈ z.text.toList) : IsDateChar c := by
  cases z with
  | unsaid => cases hc
  | universal =>
    obtain rfl := mem_singleton.1 hc
    decide
  | shifted west minutes hminutes =>
    simp only [Zone.text, String.toList_append, mem_append] at hc
    rcases hc with ((hc | hc) | hc) | hc
    · cases west <;> obtain rfl := mem_singleton.1 hc <;> decide
    · exact isDateChar_of_mem_padded hc
    · obtain rfl := mem_singleton.1 hc
      decide
    · exact isDateChar_of_mem_padded hc

theorem WrittenClock.isDateChar_of_mem {clock : WrittenClock} (hc : c ∈ clock.text.toList) :
    IsDateChar c := by
  simp only [WrittenClock.text, String.toList_append, mem_append] at hc
  rcases hc with (hc | hc) | hc
  · cases hblank : clock.blank <;> rw [hblank] at hc <;> obtain rfl := mem_singleton.1 hc <;> decide
  · rcases mem_clockText hc with hc | rfl | rfl
    · exact .inl hc
    · decide
    · decide
  · exact Zone.isDateChar_of_mem hc

theorem WrittenDate.isDateChar_of_mem {w : WrittenDate} (hc : c ∈ w.text.toList) :
    IsDateChar c := by
  simp only [WrittenDate.text, String.toList_append, mem_append] at hc
  rcases hc with ((((hc | hc) | hc) | hc) | hc) | hc
  · exact isDateChar_of_mem_padded hc
  · obtain rfl := mem_singleton.1 hc
    decide
  · exact isDateChar_of_mem_padded hc
  · obtain rfl := mem_singleton.1 hc
    decide
  · exact isDateChar_of_mem_padded hc
  · split at hc
    · exact WrittenClock.isDateChar_of_mem hc
    · cases hc

end CodeAtlas.Moment
