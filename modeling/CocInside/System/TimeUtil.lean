import Mathlib.Algebra.Group.Int.Defs
import Mathlib.Algebra.Group.Nat.Defs
import Mathlib.Data.Int.Basic
import Mathlib.Data.List.Basic
import Mathlib.Tactic.Common

/-!
# The clock and the day

`TimeUtil` keeps the last clock reading and the local day it falls in. The constructor seeds
`_nextDay` with the midnight of the day it starts in, so that the first `_Update` moves on to the
day and fills the other fields.

* `TimeUtil`, `sharpDay`, `TimeUtil.update`, `TimeUtil.create`: the class. `mulInt`: the product of
  `int`s that `SharpDay` takes, which may overflow.
* `localMidnight`: the last midnight of a zone, on the integers.
* `sharpDay_midnight_iff`: when `SharpDay` is that midnight and counts days from it; in zones up to
  twelve hours off and for fewer than 24856 days, always.
* `day_tracking`: the day of the fields is the local day of the last reading, along any readings.

The calendar fields come from `localtime`, a parameter here: they depend on the zone's tables.

Source: `System/TimeUtil.h`, `System/TimeUtil.cpp`.
-/

namespace CocInside.System

/-- The fields of `struct tm` that are used, as they are narrowed. -/
structure LocalTime where
  wday : UInt8
  mday : UInt8
  mon : UInt8
deriving DecidableEq

/-- Source: `TimeUtil.h`, `TimeUtil`. -/
structure TimeUtil where
  now : UInt32
  thisDay : UInt32
  nextDay : UInt32
  weekDay : UInt8
  monthDay : UInt8
  month : UInt8
  testMonthDay : UInt8
deriving DecidableEq

/-- The product of two `int`s. One that is not an `int` is undefined. Source: `System/TimeUtil.h`,
`TimeUtil::SharpDay(int, UInt32)`. -/
def mulInt (a b : Int32) : Option Int32 :=
  if -2 ^ 31 ≤ a.toInt * b.toInt ∧ a.toInt * b.toInt < 2 ^ 31 then
    some (Int32.ofInt (a.toInt * b.toInt))
  else none

/-- The start of the day that `SharpDay` counts from: `tmptm` before the days are added. Source:
`System/TimeUtil.h`, `TimeUtil::SharpDay(int, UInt32)`. -/
def dayStart (tzone tm : UInt32) : UInt32 :=
  let tmptm := (tm + tzone) / 86400 * 86400 + tzone
  if tmptm > tm then tmptm - 86400
  else if tmptm + 86400 ≤ tm then tmptm + 86400
  else tmptm

/-- `tzone` is the static `_tzone`. The seconds are counted in `int` and added as a `UInt32`.
Source: `TimeUtil.h`, `TimeUtil::SharpDay(int, UInt32)`. -/
def sharpDay (tzone : UInt32) (c : Int32) (tm : UInt32) : Option UInt32 :=
  (mulInt c 86400).map fun seconds => dayStart tzone tm + seconds.toUInt32

/-- With no days to add it is the start of the day. -/
@[simp] lemma sharpDay_noDays (tzone tm : UInt32) :
    sharpDay tzone 0 tm = some (dayStart tzone tm) := by
  have hmul : mulInt 0 86400 = some 0 := by decide
  rw [sharpDay, hmul, Option.map_some, show (0 : Int32).toUInt32 = 0 from rfl, UInt32.add_zero]

namespace TimeUtil

/-- What `_Update` returns and leaves, for the clock reading `time`.
Source: `TimeUtil.cpp`, `TimeUtil::_Update`. -/
def update (localtime : UInt32 → LocalTime) (u : TimeUtil) (time : UInt32) : Bool × TimeUtil :=
  let u := { u with now := time }
  if u.now < u.nextDay then (false, u)
  else
    let days := (u.now - u.nextDay) / 86400
    let thisDay := u.nextDay + days * 86400
    let tm := localtime u.now
    (true, { u with
      thisDay := thisDay
      nextDay := thisDay + 86400
      weekDay := tm.wday
      monthDay := tm.mday
      month := tm.mon })

/-- The constructor, in storage that holds `junk`: `time` is read once for the seed of `_nextDay`, and
again by `_Update`.
Source: `TimeUtil.cpp`, `TimeUtil::TimeUtil`. -/
def create (localtime : UInt32 → LocalTime) (tzone : UInt32) (junk : TimeUtil)
    (time₀ time₁ : UInt32) : TimeUtil :=
  let seed := (sharpDay tzone 0 time₀).get (by rw [sharpDay_noDays]; rfl)
  let u := ({ junk with nextDay := seed }.update localtime time₁).2
  { u with testMonthDay := u.monthDay }

/-- Any number of calls of `Update`, at the readings `times`. -/
def updates (localtime : UInt32 → LocalTime) (u : TimeUtil) (times : List UInt32) : TimeUtil :=
  times.foldl (fun u time => (u.update localtime time).2) u

end TimeUtil

/-! ## Local midnight -/

/-- The last midnight not after `t`, in a zone whose clocks are `west` seconds behind. -/
def localMidnight (west t : ℤ) : ℤ := t - (t - west) % 86400

/-- The midnight of a day is the one point of its zone's midnights with the day after it. -/
lemma eq_localMidnight {west t m : ℤ} (hm : (m - west) % 86400 = 0) (hle : m ≤ t)
    (hlt : t < m + 86400) : m = localMidnight west t := by
  unfold localMidnight
  omega

/-- The day has begun. -/
lemma localMidnight_le (west t : ℤ) : localMidnight west t ≤ t := by
  unfold localMidnight
  omega

/-- The day is not over. -/
lemma lt_localMidnight_add (west t : ℤ) : t < localMidnight west t + 86400 := by
  unfold localMidnight
  omega

/-- From the offset to midnight there are whole days. -/
lemma localMidnight_emod (west t : ℤ) : (localMidnight west t - west) % 86400 = 0 := by
  unfold localMidnight
  omega

/-- A signed number added to a `UInt32`. -/
lemma toNat_add_ofInt (x : UInt32) (z : ℤ) :
    ((x + UInt32.ofInt z).toNat : ℤ) = (x.toNat + z) % 2 ^ 32 := by
  rw [UInt32.toNat_add, UInt32.ofInt, UInt32.toNat_ofNat']
  omega

/-- An `int` added to a `UInt32`. -/
lemma toNat_add_toUInt32 (x : UInt32) (n : Int32) :
    ((x + n.toUInt32).toNat : ℤ) = (x.toNat + n.toInt) % 2 ^ 32 := by
  have hn : (n.toUInt32.toNat : ℤ) = n.toInt % 2 ^ 32 := by
    have h := BitVec.toInt_eq_toNat_cond n.toBitVec
    have hlt := n.toBitVec.isLt
    rw [show n.toUInt32.toNat = n.toBitVec.toNat from rfl,
      show n.toInt = n.toBitVec.toInt from rfl, h]
    split_ifs <;> omega
  rw [UInt32.toNat_add]
  omega

/-- Whether the one correction by a day is enough: the clocks of the zone are at most twelve hours
ahead, or its time of day is past the hours by which they are further ahead, twice. -/
def Corrected (west t : ℤ) : Prop := -2 * west - 86400 ≤ (t - west) % 86400

/-- The start of the day, from the third day of the epoch on and in all zones in use: the local
midnight, or the one before it where the correction does not reach. -/
lemma dayStart_spec {west : ℤ} {t : UInt32} (hw : -50400 ≤ west) (hw' : west ≤ 43200)
    (ht : 2 * 86400 ≤ t.toNat) (ht' : t.toNat < 2 ^ 32 - 2 * 86400) :
    (Corrected west t.toNat →
      ((dayStart (UInt32.ofInt west) t).toNat : ℤ) = localMidnight west t.toNat) ∧
    (¬Corrected west t.toNat →
      ((dayStart (UInt32.ofInt west) t).toNat : ℤ) = localMidnight west t.toNat - 86400) := by
  have hday : (86400 : UInt32).toNat = 86400 := rfl
  have hsum : (((t + UInt32.ofInt west) / 86400 * 86400 + UInt32.ofInt west).toNat : ℤ)
      = (t.toNat + west) / 86400 * 86400 + west := by
    have hin := toNat_add_ofInt t west
    rw [toNat_add_ofInt, UInt32.toNat_mul, UInt32.toNat_div, hday]
    omega
  unfold dayStart Corrected localMidnight
  dsimp only
  generalize (t + UInt32.ofInt west) / 86400 * 86400 + UInt32.ofInt west = x at hsum ⊢
  split_ifs with hgt hle
  · -- a day too late
    rw [gt_iff_lt, UInt32.lt_iff_toNat_lt] at hgt
    rw [UInt32.toNat_sub_of_le _ _ (by rw [UInt32.le_iff_toNat_le, hday]; omega), hday]
    omega
  · -- a day too early, or two
    rw [UInt32.le_iff_toNat_le, UInt32.toNat_add, hday] at hle
    rw [gt_iff_lt, UInt32.lt_iff_toNat_lt] at hgt
    rw [UInt32.toNat_add, hday]
    omega
  · rw [UInt32.le_iff_toNat_le, UInt32.toNat_add, hday] at hle
    rw [gt_iff_lt, UInt32.lt_iff_toNat_lt] at hgt
    omega

/-- The result for `c` days is a `UInt32`. -/
def Representable (west : ℤ) (tm : UInt32) (c : Int32) : Prop :=
  ∀ m, sharpDay (UInt32.ofInt west) 0 tm = some m →
    0 ≤ m.toNat + c.toInt * 86400 ∧ m.toNat + c.toInt * 86400 < 2 ^ 32

/-- What `SharpDay` promises for a time and a number of days: with no days it is the local midnight
`m`, and every day added to it or taken off it counts 86400 seconds. -/
def MidnightLaw (west : ℤ) (tm : UInt32) (c : Int32) : Prop :=
  ∃ m r, sharpDay (UInt32.ofInt west) 0 tm = some m ∧
    m.toNat ≤ tm.toNat ∧ tm.toNat < m.toNat + 86400 ∧ ((m.toNat : ℤ) - west) % 86400 = 0 ∧
    sharpDay (UInt32.ofInt west) c tm = some r ∧ (r.toNat : ℤ) = m.toNat + c.toInt * 86400

/-- The seconds of that many days are an `int`. -/
lemma mulInt_days_eq_some_iff (c seconds : Int32) :
    mulInt c 86400 = some seconds ↔
      (-24855 ≤ c.toInt ∧ c.toInt ≤ 24855) ∧ seconds = Int32.ofInt (c.toInt * 86400) := by
  have hday : (86400 : Int32).toInt = 86400 := rfl
  unfold mulInt
  rw [hday]
  split_ifs with h
  · rw [Option.some.injEq, eq_comm]
    exact (and_iff_right (by omega)).symm
  · exact iff_of_false (by simp) (by omega)

/-- The days are added to the start of the day, if their seconds are an `int`. -/
lemma sharpDay_eq_some_iff {tzone tm r : UInt32} {c : Int32} :
    sharpDay tzone c tm = some r ↔ (-24855 ≤ c.toInt ∧ c.toInt ≤ 24855) ∧
      (r.toNat : ℤ) = ((dayStart tzone tm).toNat + c.toInt * 86400) % 2 ^ 32 := by
  have hr := r.toNat_lt
  simp only [sharpDay, Option.map_eq_some_iff, mulInt_days_eq_some_iff]
  constructor
  · rintro ⟨_, ⟨hc, rfl⟩, rfl⟩
    refine ⟨hc, ?_⟩
    rw [toNat_add_toUInt32, Int32.toInt_ofInt_of_le (by omega) (by omega)]
  · rintro ⟨hc, hsum⟩
    refine ⟨_, ⟨hc, rfl⟩, ?_⟩
    rw [← UInt32.toNat_inj, ← Int.natCast_inj, hsum, toNat_add_toUInt32,
      Int32.toInt_ofInt_of_le (by omega) (by omega)]

/-- **Local midnight, exactly.** In every zone in use, for every time and every number of days whose
result is a `UInt32`, `SharpDay` keeps its promise if and only if the time of day is not in the
early hours that the correction misses (there are such hours only more than twelve hours east), and
the seconds of the days do not overflow an `int`. -/
theorem sharpDay_midnight_iff (west : ℤ) (tm : UInt32) (c : Int32) (hw : -50400 ≤ west)
    (hw' : west ≤ 43200) (ht : 2 * 86400 ≤ tm.toNat) (ht' : tm.toNat < 2 ^ 32 - 2 * 86400)
    (hc : Representable west tm c) :
    MidnightLaw west tm c ↔
      Corrected west tm.toNat ∧ -24855 ≤ c.toInt ∧ c.toInt ≤ 24855 := by
  obtain ⟨hpos, hneg⟩ := dayStart_spec hw hw' ht ht'
  have hle := localMidnight_le west tm.toNat
  have hlt := lt_localMidnight_add west tm.toNat
  have hmod := localMidnight_emod west tm.toNat
  have hrange := hc _ (sharpDay_noDays _ _)
  have hzero := sharpDay_noDays (UInt32.ofInt west) tm
  set m := dayStart (UInt32.ofInt west) tm with hm
  constructor
  · rintro ⟨m', r, hm', -, hday, -, hr, -⟩
    obtain rfl := Option.some.inj (hzero.symm.trans hm')
    refine ⟨?_, (sharpDay_eq_some_iff.mp hr).1⟩
    by_contra hcor
    have := hneg hcor
    omega
  · rintro ⟨hcor, hdays⟩
    have hmid := hpos hcor
    have hcast : ((UInt32.ofInt (m.toNat + c.toInt * 86400)).toNat : ℤ)
        = (m.toNat + c.toInt * 86400) % 2 ^ 32 := by
      rw [UInt32.ofInt, UInt32.toNat_ofNat']
      omega
    refine ⟨m, UInt32.ofInt (m.toNat + c.toInt * 86400), hzero, by omega, by omega, by omega,
      sharpDay_eq_some_iff.mpr ⟨hdays, hcast⟩, ?_⟩
    rw [hcast]
    exact Int.emod_eq_of_lt hrange.1 hrange.2

/-- Two hours west, a day on. -/
theorem sharpDay_midnight_west :
    sharpDay (UInt32.ofInt 7200) 1 1400000000 = some 1400032800 ∧
      MidnightLaw 7200 1400000000 1 := by
  have hstart : dayStart (UInt32.ofInt 7200) 1400000000 = 1399946400 := by decide
  have hc : Representable 7200 1400000000 1 := by
    intro m hm
    rw [sharpDay_noDays, hstart, Option.some.injEq] at hm
    subst hm
    decide
  exact ⟨by decide, (sharpDay_midnight_iff 7200 1400000000 1 (by decide) (by decide) (by decide)
    (by decide) hc).mpr ⟨by unfold Corrected; decide, by decide, by decide⟩⟩

/-- Fourteen hours east, at one in the morning: the day starts a day too early. And at Greenwich the
seconds of 24856 days overflow, though the day they lead to is a `UInt32`. -/
theorem sharpDay_far_east :
    (∃ m, sharpDay (UInt32.ofInt (-50400)) 0 1400065200 = some m ∧
      m.toNat + 86400 < 1400065200) ∧
      ¬MidnightLaw (-50400) 1400065200 0 ∧
    Representable 0 1400000000 24856 ∧ ¬MidnightLaw 0 1400000000 24856 := by
  have hm : (dayStart (UInt32.ofInt (-50400)) 1400065200).toNat + 86400 < 1400065200 := by decide
  refine ⟨⟨_, sharpDay_noDays _ _, hm⟩, ?_, ?_, ?_⟩
  · rintro ⟨m, r, hm', -, hday, -⟩
    rw [sharpDay_noDays, Option.some.injEq] at hm'
    subst hm'
    exact absurd hday (Nat.not_lt.mpr (Nat.le_of_lt hm))
  · intro m hm'
    have hstart : dayStart (UInt32.ofInt 0) 1400000000 = 1399939200 := by decide
    rw [sharpDay_noDays, hstart, Option.some.injEq] at hm'
    subst hm'
    decide
  · rintro ⟨m, r, -, -, -, -, hr, -⟩
    have hnone : sharpDay (UInt32.ofInt 0) 24856 1400000000 = none := by decide
    rw [hnone] at hr
    cases hr

/-! ## Along the readings -/

namespace TimeUtil

variable (localtime : UInt32 → LocalTime) {west : ℤ} {u : TimeUtil} {t : UInt32}

/-- The fields hold the local day of the last reading. -/
structure InDay (west : ℤ) (u : TimeUtil) : Prop where
  thisDay : (u.thisDay.toNat : ℤ) = localMidnight west u.now.toNat
  nextDay : u.nextDay.toNat = u.thisDay.toNat + 86400

/-- The next day is still to come. -/
lemma InDay.lt_nextDay (h : InDay west u) : u.now.toNat < u.nextDay.toNat := by
  have hlt := lt_localMidnight_add west u.now.toNat
  have hday := h.thisDay
  have hnext := h.nextDay
  omega

/-- The next day begins at a midnight. -/
lemma InDay.nextDay_emod (h : InDay west u) : ((u.nextDay.toNat : ℤ) - west) % 86400 = 0 := by
  have hmod := localMidnight_emod west u.now.toNat
  have hday := h.thisDay
  have hnext := h.nextDay
  omega

/-- A reading at or after `_nextDay`, however many days after it. -/
lemma update_of_le (hmod : ((u.nextDay.toNat : ℤ) - west) % 86400 = 0) (hle : u.nextDay ≤ t)
    (ht : t.toNat < 2 ^ 32 - 2 * 86400) :
    (u.update localtime t).1 = true ∧ (u.update localtime t).2.now = t ∧
      InDay west (u.update localtime t).2 := by
  have hle' := UInt32.le_iff_toNat_le.mp hle
  have hday : (86400 : UInt32).toNat = 86400 := rfl
  have hthis : (u.nextDay + (t - u.nextDay) / 86400 * 86400).toNat
      = u.nextDay.toNat + (t.toNat - u.nextDay.toNat) / 86400 * 86400 := by
    rw [UInt32.toNat_add, UInt32.toNat_mul, UInt32.toNat_div, UInt32.toNat_sub_of_le _ _ hle, hday]
    omega
  have hnext : (u.nextDay + (t - u.nextDay) / 86400 * 86400 + 86400).toNat
      = u.nextDay.toNat + (t.toNat - u.nextDay.toNat) / 86400 * 86400 + 86400 := by
    rw [UInt32.toNat_add, hthis, hday]
    omega
  unfold update
  rw [if_neg (UInt32.not_lt.mpr hle)]
  refine ⟨rfl, rfl, ?_, ?_⟩
  · show ((u.nextDay + (t - u.nextDay) / 86400 * 86400).toNat : ℤ) = localMidnight west t.toNat
    rw [hthis]
    apply eq_localMidnight <;> omega
  · show (u.nextDay + (t - u.nextDay) / 86400 * 86400 + 86400).toNat = _
    rw [hnext, hthis]

/-- A reading before `_nextDay`. -/
lemma update_of_lt (hlt : t < u.nextDay) :
    u.update localtime t = (false, { u with now := t }) := by
  unfold update
  rw [if_pos hlt]

/-- One call of `Update` with a reading that is not before the last one. -/
lemma InDay.update (h : InDay west u) (hle : u.now ≤ t) (ht : t.toNat < 2 ^ 32 - 2 * 86400) :
    (u.update localtime t).2.now = t ∧ InDay west (u.update localtime t).2 ∧
      ((u.update localtime t).1 = true ↔
        localMidnight west t.toNat ≠ localMidnight west u.now.toNat) := by
  have hle' := UInt32.le_iff_toNat_le.mp hle
  have hday := h.thisDay
  have hnext := h.nextDay
  have hmidnight := localMidnight_emod west u.now.toNat
  have hbefore := localMidnight_le west u.now.toNat
  by_cases hlt : t < u.nextDay
  · have hlt' := UInt32.lt_iff_toNat_lt.mp hlt
    -- still the same day
    have hsame : localMidnight west u.now.toNat = localMidnight west t.toNat := by
      apply eq_localMidnight <;> omega
    rw [update_of_lt localtime hlt]
    refine ⟨rfl, ⟨?_, hnext⟩, ?_⟩
    · exact hday.trans hsame
    · simp [hsame]
  · have hge := UInt32.not_lt.mp hlt
    obtain ⟨htrue, hnow, hin⟩ := update_of_le localtime h.nextDay_emod hge ht
    have hge' := UInt32.le_iff_toNat_le.mp hge
    have hafter := lt_localMidnight_add west t.toNat
    refine ⟨hnow, hin, iff_of_true htrue ?_⟩
    omega

/-- `_testMonthDay` has no part in it. -/
lemma InDay.setTestMonthDay (h : u.now = t ∧ InDay west u) (day : UInt8) :
    { u with testMonthDay := day }.now = t ∧ InDay west { u with testMonthDay := day } :=
  ⟨h.1, h.2.thisDay, h.2.nextDay⟩

/-- The constructor, from a seed that is the midnight of its first reading. -/
lemma inDay_create {tzone : UInt32} (junk : TimeUtil) {time₀ time₁ : UInt32}
    (hseed : ((dayStart tzone time₀).toNat : ℤ) = localMidnight west time₀.toNat)
    (hle : time₀ ≤ time₁) (ht : time₁.toNat < 2 ^ 32 - 2 * 86400) :
    (create localtime tzone junk time₀ time₁).now = time₁ ∧
      InDay west (create localtime tzone junk time₀ time₁) := by
  have hmod : (((dayStart tzone time₀).toNat : ℤ) - west) % 86400 = 0 := by
    rw [hseed]
    exact localMidnight_emod west _
  have hle' : dayStart tzone time₀ ≤ time₁ := by
    rw [UInt32.le_iff_toNat_le] at hle ⊢
    have := localMidnight_le west time₀.toNat
    omega
  obtain ⟨-, hin⟩ := update_of_le localtime
    (u := { junk with nextDay := dayStart tzone time₀ }) hmod hle' ht
  have hcreate : create localtime tzone junk time₀ time₁
      = { (update localtime { junk with nextDay := dayStart tzone time₀ } time₁).2 with
          testMonthDay :=
            (update localtime { junk with nextDay := dayStart tzone time₀ } time₁).2.monthDay } := by
    simp only [create, sharpDay_noDays, Option.get_some]
  rw [hcreate]
  exact InDay.setTestMonthDay hin _

/-- Any number of readings, each not before the last. -/
lemma InDay.updates (h : InDay west u) {times : List UInt32}
    (hmono : (u.now :: times).Pairwise (· ≤ ·))
    (ht : ∀ t ∈ times, t.toNat < 2 ^ 32 - 2 * 86400) :
    (u.updates localtime times).now = (u.now :: times).getLast (List.cons_ne_nil _ _) ∧
      InDay west (u.updates localtime times) := by
  induction times generalizing u with
  | nil => exact ⟨rfl, h⟩
  | cons t times ih =>
      rw [List.pairwise_cons] at hmono
      obtain ⟨hnow, hin, -⟩ := h.update localtime (hmono.1 t List.mem_cons_self)
        (ht t List.mem_cons_self)
      have hrest := ih hin (by rw [hnow]; exact hmono.2)
        (fun t' ht' => ht t' (List.mem_cons_of_mem t ht'))
      rw [TimeUtil.updates, List.foldl_cons, List.getLast_cons (List.cons_ne_nil t times)]
      simp only [hnow] at hrest
      exact hrest

end TimeUtil

/-- **Day tracking.** Let the seed `SharpDay(0, time₀)` be the local midnight of the constructor's first
reading. Then along any readings that do not go back, after the constructor and any number of
updates, the fields hold the local day of the last reading; and the next `Update` returns true
exactly when its reading falls in another day, however far ahead. -/
theorem day_tracking (localtime : UInt32 → LocalTime) (west : ℤ) (tzone : UInt32) (junk : TimeUtil)
    (time₀ time₁ : UInt32) (times : List UInt32) {seed : UInt32}
    (hsharp : sharpDay tzone 0 time₀ = some seed)
    (hseed : (seed.toNat : ℤ) = localMidnight west time₀.toNat)
    (hmono : (time₀ :: time₁ :: times).Pairwise (· ≤ ·))
    (hlt : ∀ t ∈ time₁ :: times, t.toNat < 2 ^ 32 - 2 * 86400) :
    let u := (TimeUtil.create localtime tzone junk time₀ time₁).updates localtime times
    u.now = (time₁ :: times).getLast (List.cons_ne_nil _ _) ∧
    u.thisDay ≤ u.now ∧ u.now < u.nextDay ∧ u.nextDay = u.thisDay + 86400 ∧
    (u.thisDay.toNat : ℤ) = localMidnight west u.now.toNat ∧
    ∀ t, u.now ≤ t → t.toNat < 2 ^ 32 - 2 * 86400 →
      ((u.update localtime t).1 = true ↔
        localMidnight west t.toNat ≠ localMidnight west u.now.toNat) := by
  intro u
  rw [sharpDay_noDays, Option.some.injEq] at hsharp
  subst hsharp
  rw [List.pairwise_cons] at hmono
  obtain ⟨hnow₁, hin₁⟩ := TimeUtil.inDay_create localtime junk hseed
    (hmono.1 time₁ List.mem_cons_self) (hlt time₁ List.mem_cons_self)
  obtain ⟨hnow, hin⟩ := hin₁.updates localtime (by rw [hnow₁]; exact hmono.2)
    (fun t ht => hlt t (List.mem_cons_of_mem time₁ ht))
  have hle := localMidnight_le west u.now.toNat
  have hday : (u.thisDay.toNat : ℤ) = localMidnight west u.now.toNat := hin.thisDay
  have hnext : u.nextDay.toNat = u.thisDay.toNat + 86400 := hin.nextDay
  refine ⟨?_, ?_, ?_, ?_, hday, ?_⟩
  · simpa only [hnow₁] using hnow
  · rw [UInt32.le_iff_toNat_le]
    omega
  · exact UInt32.lt_iff_toNat_lt.mpr hin.lt_nextDay
  · have hbound := u.nextDay.toNat_lt
    rw [← UInt32.toNat_inj, UInt32.toNat_add]
    show u.nextDay.toNat = (u.thisDay.toNat + 86400) % 2 ^ 32
    omega
  · intro t ht hbound
    exact (hin.update localtime ht hbound).2.2

/-- A zone eight hours east: two readings in one day, and one three days on. -/
theorem day_tracking_east :
    let lt : UInt32 → LocalTime := fun _ => ⟨0, 1, 0⟩
    let u := (TimeUtil.create lt (UInt32.ofInt (-28800)) ⟨1, 2, 3, 4, 5, 6, 7⟩ 1400000000
      1400000001).updates lt [1400000100]
    u.thisDay = 1399996800 ∧ (u.update lt 1400259200).1 = true := by
  intro lt u
  have hlt : ∀ t ∈ [1400000001, 1400000100], UInt32.toNat t < 2 ^ 32 - 2 * 86400 :=
    List.forall_mem_cons.mpr ⟨by decide, List.forall_mem_cons.mpr ⟨by decide, nofun⟩⟩
  have h := day_tracking lt (-28800) (UInt32.ofInt (-28800)) ⟨1, 2, 3, 4, 5, 6, 7⟩ 1400000000
    1400000001 [1400000100] (sharpDay_noDays _ _) (by decide) (by decide) hlt
  exact ⟨by decide, (h.2.2.2.2.2 1400259200 (by decide) (by decide)).mpr (by decide)⟩

end CocInside.System
