import Mathlib.Data.List.Basic
import Mathlib.Logic.Function.Basic
import Mathlib.Tactic.Common
import Mathlib.Tactic.Ring

/-!
# Alarms

What a service of repeated timers promises to its user, by the steps the user sees.

* `Alarm`: what was asked for, and how often it has been called. `Alarm.due` is the earliest time of
  the next call, `Alarm.latest` the time by which it is to be made.
* `Alarms.Step`, `Alarms.Run`: a call is of an alarm that is set, with its data, not before it is due,
  and not again if the alarm does not repeat.
* `Alarms.Run.calls_spaced`: the calls of an alarm are, on the average, its interval apart.
-/

namespace CocInside.Lib

variable {ι δ : Type*} [DecidableEq ι]

/-- An alarm: its data, when it was set, after how long it is due first and then again, how often it
was called and when last. -/
structure Alarm (δ : Type*) where
  data : δ
  added : ℕ
  first : ℕ
  interval : ℕ
  calls : ℕ
  last : ℕ

namespace Alarm

/-- The next call is not made before. -/
def due (a : Alarm δ) : ℕ := a.added + a.first + a.calls * a.interval

/-- There is a next call. -/
def Ongoing (a : Alarm δ) : Prop := a.calls = 0 ∨ a.interval ≠ 0

/-- The next call may be made from here on. -/
def latest (a : Alarm δ) : ℕ := a.last + if a.calls = 0 then a.first else a.interval

/-- The alarm is called. -/
def call (a : Alarm δ) (now : ℕ) : Alarm δ := { a with calls := a.calls + 1, last := now }

/-- The alarm is set. -/
def start (data : δ) (now first interval : ℕ) : Alarm δ := ⟨data, now, first, interval, 0, now⟩

/-- Each call moves the due time by the interval. -/
lemma due_call (a : Alarm δ) (now : ℕ) : (a.call now).due = a.due + a.interval := by
  show a.added + a.first + (a.calls + 1) * a.interval = a.added + a.first + a.calls * a.interval + _
  ring

/-- The next call is due an interval after the last one at the latest. -/
lemma latest_call (a : Alarm δ) (now : ℕ) : (a.call now).latest = now + a.interval := rfl

/-- All calls there were are as far apart as they should be. -/
structure Spaced (a : Alarm δ) (now : ℕ) : Prop where
  last_le : a.last ≤ now
  calls_le : a.calls ≠ 0 → a.added + a.first + (a.calls - 1) * a.interval ≤ a.last
  once : a.interval = 0 → a.calls ≤ 1

/-- Time that passes leaves the calls as far apart. -/
lemma Spaced.mono {a : Alarm δ} {now now' : ℕ} (h : a.Spaced now) (hle : now ≤ now') :
    a.Spaced now' :=
  ⟨h.last_le.trans hle, h.calls_le, h.once⟩

/-- An alarm that is set has no calls to be apart. -/
lemma spaced_start (data : δ) (now first interval : ℕ) : (start data now first interval).Spaced now :=
  ⟨le_rfl, fun h => absurd rfl h, fun _ => Nat.zero_le 1⟩

/-- A call of an alarm that is due is far enough from the one before. -/
lemma spaced_call {a : Alarm δ} {now : ℕ} (hongoing : a.Ongoing) (hdue : a.due ≤ now) :
    (a.call now).Spaced now := by
  refine ⟨le_rfl, fun _ => hdue, fun hzero => ?_⟩
  rcases hongoing with hcalls | hinterval
  · show a.calls + 1 ≤ 1
    rw [hcalls]
  · exact absurd hzero hinterval

end Alarm

/-- The time, and the alarms that are set. -/
structure Alarms (ι δ : Type*) where
  now : ℕ
  alarm : ι → Option (Alarm δ)

/-- What the user sees. -/
inductive AlarmLabel (ι δ : Type*) where
  | wait (time : ℕ)
  | added (i : ι) (first interval : ℕ) (data : δ)
  | deleted (i : ι)
  | called (i : ι) (data : δ)

namespace Alarms

/-- No alarm is set. -/
def start (now : ℕ) : Alarms ι δ := ⟨now, fun _ => none⟩

/-- Another alarm, or none, under a name. -/
def set (σ : Alarms ι δ) (i : ι) (a : Option (Alarm δ)) : Alarms ι δ :=
  { σ with alarm := Function.update σ.alarm i a }

/-- The alarm under that name. -/
@[simp] lemma alarm_set_self (σ : Alarms ι δ) (i : ι) (o : Option (Alarm δ)) :
    (σ.set i o).alarm i = o := by
  simp [set]

/-- The others. -/
lemma alarm_set_of_ne (σ : Alarms ι δ) {i j : ι} (o : Option (Alarm δ)) (h : j ≠ i) :
    (σ.set i o).alarm j = σ.alarm j := by
  simp [set, h]

/-- Setting what is there changes nothing. -/
lemma set_eq_self (σ : Alarms ι δ) {i : ι} {o : Option (Alarm δ)} (h : σ.alarm i = o) :
    σ.set i o = σ := by
  simp [set, ← h]

/-- One thing that happens to a family of alarms: time passes, an alarm is set, taken away or
called. -/
inductive Step : Alarms ι δ → AlarmLabel ι δ → Alarms ι δ → Prop where
  | wait {σ : Alarms ι δ} (time : ℕ) : Step σ (.wait time) { σ with now := σ.now + time }
  | added {σ : Alarms ι δ} {i : ι} (first interval : ℕ) (data : δ) (h : σ.alarm i = none) :
      Step σ (.added i first interval data)
        (σ.set i (some (Alarm.start data σ.now first interval)))
  | deleted {σ : Alarms ι δ} {i : ι} {a : Alarm δ} (h : σ.alarm i = some a) :
      Step σ (.deleted i) (σ.set i none)
  | called {σ : Alarms ι δ} {i : ι} {a : Alarm δ} {data : δ} (h : σ.alarm i = some a)
      (hdata : a.data = data) (hongoing : a.Ongoing) (hdue : a.due ≤ σ.now) :
      Step σ (.called i data) (σ.set i (some (a.call σ.now)))

/-- Steps one after the other. -/
inductive Run : Alarms ι δ → List (AlarmLabel ι δ) → Alarms ι δ → Prop where
  | nil {σ : Alarms ι δ} : Run σ [] σ
  | cons {σ τ υ : Alarms ι δ} {l : AlarmLabel ι δ} {ls : List (AlarmLabel ι δ)} (h : Step σ l τ)
      (hrest : Run τ ls υ) : Run σ (l :: ls) υ

variable {σ τ υ : Alarms ι δ} {ls ls' : List (AlarmLabel ι δ)}

/-- A run behind a run. -/
lemma Run.append (h : Run σ ls τ) (h' : Run τ ls' υ) : Run σ (ls ++ ls') υ := by
  induction h with
  | nil => exact h'
  | cons hstep _ ih => exact .cons hstep (ih h')

/-- A run of one step. -/
lemma Run.single {l : AlarmLabel ι δ} (h : Step σ l τ) : Run σ [l] τ := .cons h .nil

/-- Where a step ends is settled by what the user sees. -/
lemma Step.unique {l : AlarmLabel ι δ} (h : Step σ l τ) (h' : Step σ l υ) : τ = υ := by
  cases h with
  | wait => cases h'; rfl
  | added => cases h'; rfl
  | deleted => cases h'; rfl
  | called ha =>
      cases h' with
      | called ha' =>
          cases ha.symm.trans ha'
          rfl

/-- What happens determines the family it leaves. -/
lemma Run.unique (h : Run σ ls τ) (h' : Run σ ls υ) : τ = υ := by
  induction h with
  | nil =>
      cases h'
      rfl
  | cons hstep _ ih =>
      cases h' with
      | cons hstep' hrest' =>
          cases hstep.unique hstep'
          exact ih hrest'

/-- What holds of an alarm that is set, and what is kept by its calls and as time passes, holds of all
alarms of a run. -/
lemma Run.alarm_invariant {I : Alarm δ → ℕ → Prop} (h : Run σ ls τ)
    (hwait : ∀ a now time, I a now → I a (now + time))
    (hstart : ∀ data now first interval, I (Alarm.start data now first interval) now)
    (hcall : ∀ a now, I a now → a.Ongoing → a.due ≤ now → I (a.call now) now)
    (hσ : ∀ i a, σ.alarm i = some a → I a σ.now) : ∀ i a, τ.alarm i = some a → I a τ.now := by
  induction h with
  | nil => exact hσ
  | @cons σ τ _ l _ hstep _ ih =>
      refine ih ?_
      have hset : ∀ {i o}, (∀ a, o = some a → I a σ.now) →
          ∀ j a, (σ.set i o).alarm j = some a → I a σ.now := by
        intro i o ho j a hj
        by_cases hji : j = i
        · rw [hji, alarm_set_self] at hj
          exact ho a hj
        · rw [alarm_set_of_ne σ o hji] at hj
          exact hσ j a hj
      cases hstep with
      | wait time => exact fun i a ha => hwait a σ.now time (hσ i a ha)
      | added first interval data _ =>
          refine hset fun a ha => ?_
          cases ha
          exact hstart data σ.now first interval
      | deleted _ => exact hset fun a ha => by cases ha
      | @called i a _ hi _ hongoing hdue =>
          refine hset fun a' ha' => ?_
          cases ha'
          exact hcall a σ.now (hσ i a hi) hongoing hdue

/-- **Spacing.** The calls of an alarm are, on the average, its interval apart. -/
theorem Run.calls_spaced {t : ℕ} (h : Run (start t) ls τ) {i : ι} {a : Alarm δ}
    (ha : τ.alarm i = some a) : a.Spaced τ.now := by
  refine Run.alarm_invariant (I := Alarm.Spaced) h ?_ ?_ ?_ ?_ i a ha
  · exact fun a now time h => h.mono (Nat.le_add_right _ _)
  · exact fun data now first interval => Alarm.spaced_start data now first interval
  · exact fun a now _ hongoing hdue => Alarm.spaced_call hongoing hdue
  · intro i a hstart
    cases hstart

end Alarms

end CocInside.Lib
