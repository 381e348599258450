import CocInside.System.Timer
import Mathlib.Algebra.BigOperators.Group.List.Basic
import Mathlib.Data.Finset.Card
import Mathlib.Order.Interval.Finset.Nat
import Mathlib.Tactic.Ring

/-!
# What one call of `process` fires

For an `onTimer` that leaves the timers alone, `process` is a function of the timers and the clock.

* `TimerStruct.dueCount`, `TimerStruct.firings`: how often a timer falls due up to a time, and how
  often it is fired.
* `Timer.Schedule`: what a call is to do, in terms of the timers before it, those after it, and the
  part of the log it writes.
* `Timer.exists_schedule`: from any timers that are `Ready`, the loop ends and does it. A turn of
  the loop takes one unit off `Timer.work`; the schedule of the rest of the call is completed by what
  the turn did to its one timer (`Schedule.turn`: `Schedule.drop`, `Schedule.again`).
* `process_schedule`: the same for timers built by calls of `add` and `remove`.
-/

namespace CocInside.System

open CocInside.Lib

/-! ## Due times of one timer -/

namespace TimerStruct

/-- How many of the due times `timeNext`, `timeNext + interval`, … are not after `now`. -/
def dueCount (s : TimerStruct) (now : UInt32) : ℕ :=
  Nat.count (fun j => s.timeNext.toNat + j * s.interval.toNat ≤ now.toNat) (now.toNat + 1)

/-- How often the timer is to be fired: once for each due time, but no more than `count` times if
the count is not negative. -/
def firings (s : TimerStruct) (now : UInt32) : ℕ :=
  if s.count < 0 then s.dueCount now else min (s.dueCount now) s.count.toNat

/-- A timer with a last firing, which falls due. -/
def Exhausted (s : TimerStruct) (now : UInt32) : Prop := 0 < s.count ∧ s.count ≤ s.dueCount now

instance (s : TimerStruct) (now : UInt32) : Decidable (s.Exhausted now) :=
  inferInstanceAs (Decidable (_ ∧ _))

/-- `s'` is `s` after `k` firings. -/
structure Advanced (s s' : TimerStruct) (k : ℕ) : Prop where
  timeNext : s'.timeNext.toNat = s.timeNext.toNat + k * s.interval.toNat
  interval : s'.interval = s.interval
  count : s'.count = if 0 < s.count then s.count - k else s.count
  data : s'.data = s.data

variable {s s' : TimerStruct} {now : UInt32}

/-- A timer that is not due has none. -/
lemma dueCount_eq_zero (h : now.toNat < s.timeNext.toNat) : s.dueCount now = 0 := by
  rw [dueCount, Nat.count_eq_card_filter_range, Finset.card_eq_zero, Finset.filter_eq_empty_iff]
  intro j _
  omega

/-- The due times not after `now` are the first ones. -/
lemma dueCount_eq (hi : 0 < s.interval.toNat) (h : s.timeNext.toNat ≤ now.toNat) :
    s.dueCount now = (now.toNat - s.timeNext.toNat) / s.interval.toNat + 1 := by
  have hle : (now.toNat - s.timeNext.toNat) / s.interval.toNat ≤ now.toNat :=
    (Nat.div_le_self _ _).trans (Nat.sub_le _ _)
  have hset : (Finset.range (now.toNat + 1)).filter
      (fun j => s.timeNext.toNat + j * s.interval.toNat ≤ now.toNat)
      = Finset.range ((now.toNat - s.timeNext.toNat) / s.interval.toNat + 1) := by
    ext j
    rw [Finset.mem_filter, Finset.mem_range, Finset.mem_range, Nat.lt_succ_iff, Nat.lt_succ_iff,
      Nat.le_div_iff_mul_le hi]
    constructor
    · rintro ⟨-, hj⟩
      omega
    · intro hj
      have hj' := (Nat.le_div_iff_mul_le hi).mpr hj
      exact ⟨by omega, by omega⟩
  rw [dueCount, Nat.count_eq_card_filter_range, hset, Finset.card_range]

/-- A timer that is due has a due time that is not after `now`. -/
lemma dueCount_pos (hi : 0 < s.interval.toNat) (h : s.timeNext.toNat ≤ now.toNat) :
    0 < s.dueCount now := by
  rw [dueCount_eq hi h]
  exact Nat.succ_pos _

/-- A due timer falls due once more than it does from its next due time on. -/
lemma dueCount_succ (hi : 0 < s.interval.toNat) (h : s.timeNext.toNat ≤ now.toNat)
    (ha : s.Advanced s' 1) : s.dueCount now = s'.dueCount now + 1 := by
  have hnext := ha.timeNext
  rw [one_mul] at hnext
  rw [dueCount_eq hi h]
  by_cases hdue : s'.timeNext.toNat ≤ now.toNat
  · rw [dueCount_eq (by rw [ha.interval]; exact hi) hdue, ha.interval, hnext]
    have hsub : now.toNat - s.timeNext.toNat
        = (now.toNat - (s.timeNext.toNat + s.interval.toNat)) + s.interval.toNat := by omega
    rw [hsub, Nat.add_div_right _ hi]
  · rw [dueCount_eq_zero (by omega), Nat.div_eq_of_lt (by omega)]

/-- A timer without firings left is not fired. -/
lemma firings_eq_zero (h : s.count = 0) : s.firings now = 0 := by
  simp [firings, h]

/-- A due timer with one firing left is fired once. -/
lemma firings_eq_one (hi : 0 < s.interval.toNat) (h : s.timeNext.toNat ≤ now.toNat)
    (hc : s.count = 1) : s.firings now = 1 := by
  simp [firings, hc, dueCount_eq hi h]

/-- A due timer that goes on is fired once more than from its next due time on. -/
lemma firings_succ (hi : 0 < s.interval.toNat) (h : s.timeNext.toNat ≤ now.toNat)
    (hc0 : s.count ≠ 0) (hc1 : s.count ≠ 1) (ha : s.Advanced s' 1) :
    s.firings now = s'.firings now + 1 := by
  have hdue := dueCount_succ hi h ha
  have hcount := ha.count
  unfold firings
  split_ifs at hcount ⊢ <;> omega

/-- Going on does not change whether the last firing falls due. -/
lemma exhausted_iff (hi : 0 < s.interval.toNat) (h : s.timeNext.toNat ≤ now.toNat)
    (hc1 : s.count ≠ 1) (ha : s.Advanced s' 1) : s.Exhausted now ↔ s'.Exhausted now := by
  have hdue := dueCount_succ hi h ha
  have hcount := ha.count
  unfold Exhausted
  split_ifs at hcount <;> omega

/-- One firing and then `k` more. -/
lemma Advanced.trans {s'' : TimerStruct} {k : ℕ} (ha : s.Advanced s' 1) (hc1 : s.count ≠ 1)
    (hb : s'.Advanced s'' k) : s.Advanced s'' (k + 1) := by
  have hcount := ha.count
  refine ⟨?_, ?_, ?_, ?_⟩
  · rw [hb.timeNext, ha.timeNext, ha.interval]
    ring
  · rw [hb.interval, ha.interval]
  · rw [hb.count]
    split_ifs at hcount ⊢ <;> push_cast <;> omega
  · rw [hb.data, ha.data]

end TimerStruct

/-! ## Firings in a log -/

/-- The due times for which `td` was fired, in order. -/
def firingsOf (td : ℕ) (log : List TimerLog) : List ℕ :=
  log.filterMap fun
    | .fired p _ due => if p = td then some due.toNat else none
    | _ => none

/-- The due times of all firings, in order. -/
def dueTimes (log : List TimerLog) : List ℕ :=
  log.filterMap fun
    | .fired _ _ due => some due.toNat
    | _ => none

/-- The firings of a timer in two logs. -/
lemma firingsOf_append (td : ℕ) (l m : List TimerLog) :
    firingsOf td (l ++ m) = firingsOf td l ++ firingsOf td m := List.filterMap_append

/-- The due times in two logs. -/
lemma dueTimes_append (l m : List TimerLog) : dueTimes (l ++ m) = dueTimes l ++ dueTimes m :=
  List.filterMap_append

/-- Every firing is the firing of some timer. -/
lemma exists_mem_firingsOf {d : ℕ} {log : List TimerLog} (h : d ∈ dueTimes log) :
    ∃ td, d ∈ firingsOf td log := by
  obtain ⟨e, he, hd⟩ := List.mem_filterMap.mp h
  cases e with
  | fired p data due =>
      cases hd
      exact ⟨p, List.mem_filterMap.mpr ⟨_, he, if_pos rfl⟩⟩
  | added td count => cases hd
  | removed td => cases hd
  | deleted td => cases hd

/-! ## The schedule of a call -/

namespace Timer

/-- What a call of `process` at `now` is to do: from the timers `t` it makes `t'`, appending `new` to
the log. -/
structure Schedule (now : UInt32) (t t' : Timer) (new : List TimerLog) : Prop where
  log : t'.log = t.log ++ new
  /-- Each timer is fired for the due times it is to be fired for. -/
  fired : ∀ td ∈ t.timers, firingsOf td new
    = (List.range ((t.mem td).firings now)).map
        fun j => (t.mem td).timeNext.toNat + j * (t.mem td).interval.toNat
  /-- Nothing else is fired. -/
  only : ∀ td, td ∉ t.timers → firingsOf td new = []
  /-- The firings are in the order of their due times. -/
  sorted : (dueTimes new).Pairwise (· ≤ ·)
  /-- The loop ends at a timer with firings left and not due. -/
  stopped : ∃ td l, t'.timers = td :: l ∧ (t'.mem td).count ≠ 0 ∧ now < (t'.mem td).timeNext
  /-- Nothing that is left is due. -/
  not_due : ∀ td ∈ t'.timers, now < (t'.mem td).timeNext
  /-- A timer that had its last firing is deleted. -/
  exhausted : ∀ td ∈ t.timers, (t.mem td).Exhausted now → td ∉ t'.timers ∧ .deleted td ∈ new
  /-- A timer that goes on is kept and advanced. -/
  kept : ∀ td ∈ t.timers, (t.mem td).count ≠ 0 → ¬(t.mem td).Exhausted now →
    td ∈ t'.timers ∧ (t.mem td).Advanced (t'.mem td) ((t.mem td).firings now)
  /-- A removed timer is deleted, or stands behind the one the loop ends at. -/
  removed : ∀ td ∈ t.timers, (t.mem td).count = 0 →
    (td ∉ t'.timers ∧ .deleted td ∈ new) ∨
    (td ∈ t'.timers ∧ t'.mem td = t.mem td ∧
      ∀ p l, t'.timers = p :: l → t'.due p ≤ t'.due td)
  /-- No timer appears, and none is deleted that stays. -/
  subset : ∀ td ∈ t'.timers, td ∈ t.timers ∧ .deleted td ∉ new
  /-- The vector is a heap of distinct timers. -/
  ordered : t'.Ordered

/-- What `process` needs of the timers it is called for: due times that can be counted on without
overflow, and one timer with firings left that is not due when all that is due has been fired. -/
structure Ready (now : UInt32) (t : Timer) : Prop where
  ordered : t.Ordered
  interval_pos : ∀ td ∈ t.timers, 0 < (t.mem td).interval.toNat
  no_overflow : ∀ td ∈ t.timers, (t.mem td).count ≠ 0 → ¬(t.mem td).Exhausted now →
    (t.mem td).timeNext.toNat + (t.mem td).firings now * (t.mem td).interval.toNat < 2 ^ 32
  stays : ∃ td ∈ t.timers, (t.mem td).count ≠ 0 ∧ ¬(t.mem td).Exhausted now

/-- A bound on the turns the loop takes. -/
def work (now : UInt32) (t : Timer) : ℕ :=
  (t.timers.map fun td => (t.mem td).firings now + 1).sum

variable {now : UInt32} {t t₁ t' : Timer} {td : ℕ} {l : List ℕ} {pre new : List TimerLog}

/-- What is fired was due no earlier than the timers there are. -/
lemma Schedule.le_dueTimes {m : ℕ} (h : Schedule now t t' new) (hm : ∀ p ∈ t.timers, m ≤ t.due p) :
    ∀ d ∈ dueTimes new, m ≤ d := by
  intro d hd
  obtain ⟨p, hp⟩ := exists_mem_firingsOf hd
  by_cases hmem : p ∈ t.timers
  · rw [h.fired p hmem] at hp
    obtain ⟨j, -, rfl⟩ := List.mem_map.mp hp
    exact (hm p hmem).trans (Nat.le_add_right _ _)
  · rw [h.only p hmem] at hp
    cases hp

/-- Prepending the firings of the front keeps the order of the due times. -/
lemma Schedule.sorted_append (h : Schedule now t₁ t' new) {d : ℕ}
    (hpre : dueTimes pre = [] ∨ dueTimes pre = [d])
    (hd : ∀ p ∈ t₁.timers, d ≤ t₁.due p) : (dueTimes (pre ++ new)).Pairwise (· ≤ ·) := by
  rw [dueTimes_append]
  rcases hpre with hpre | hpre
  · rw [hpre]
    exact h.sorted
  · rw [hpre]
    exact List.pairwise_cons.mpr ⟨h.le_dueTimes hd, h.sorted⟩

/-- A turn from `t` to `t₁` that appends `pre` to the log and is about the timer `td` alone. -/
structure Touches (t t₁ : Timer) (td : ℕ) (pre : List TimerLog) : Prop where
  log : t₁.log = t.log ++ pre
  mem : ∀ p, p ≠ td → t₁.mem p = t.mem p
  timers : ∀ p, p ≠ td → (p ∈ t₁.timers ↔ p ∈ t.timers)
  fired : ∀ p, p ≠ td → firingsOf p pre = []
  deleted : ∀ p, p ≠ td → .deleted p ∉ pre

/-- What a schedule says of one timer. -/
structure ScheduledAt (now : UInt32) (t t' : Timer) (new : List TimerLog) (td : ℕ) : Prop where
  fired : firingsOf td new = (List.range ((t.mem td).firings now)).map
    fun j => (t.mem td).timeNext.toNat + j * (t.mem td).interval.toNat
  exhausted : (t.mem td).Exhausted now → td ∉ t'.timers ∧ .deleted td ∈ new
  kept : (t.mem td).count ≠ 0 → ¬(t.mem td).Exhausted now →
    td ∈ t'.timers ∧ (t.mem td).Advanced (t'.mem td) ((t.mem td).firings now)
  removed : (t.mem td).count = 0 → (td ∉ t'.timers ∧ .deleted td ∈ new) ∨
    (td ∈ t'.timers ∧ t'.mem td = t.mem td ∧ ∀ p l, t'.timers = p :: l → t'.due p ≤ t'.due td)
  stays : td ∈ t'.timers → .deleted td ∉ new

/-- A timer the turn is not about is scheduled by the rest of the call. -/
lemma Schedule.scheduledAt_of_ne (h : Schedule now t₁ t' new) (hturn : t.Touches t₁ td pre) {p : ℕ}
    (hptd : p ≠ td) (hp : p ∈ t.timers) : ScheduledAt now t t' (pre ++ new) p := by
  have hp₁ := (hturn.timers p hptd).mpr hp
  have hmem := hturn.mem p hptd
  refine ⟨?_, ?_, ?_, ?_, ?_⟩
  · rw [firingsOf_append, hturn.fired p hptd, List.nil_append, h.fired p hp₁, hmem]
  · intro hex
    rw [← hmem] at hex
    obtain ⟨hout, hin⟩ := h.exhausted p hp₁ hex
    exact ⟨hout, List.mem_append_right _ hin⟩
  · intro hc hex
    rw [← hmem] at hc hex ⊢
    exact h.kept p hp₁ hc hex
  · intro hc
    rw [← hmem] at hc ⊢
    rcases h.removed p hp₁ hc with ⟨hout, hin⟩ | hin
    · exact .inl ⟨hout, List.mem_append_right _ hin⟩
    · exact .inr hin
  · intro hin
    rw [List.mem_append, not_or]
    exact ⟨hturn.deleted p hptd, (h.subset p hin).2⟩

/-- A turn before the rest of the call: it is left to say what becomes of its timer. -/
lemma Schedule.turn (h : Schedule now t₁ t' new) (hturn : t.Touches t₁ td pre) (htd : td ∈ t.timers)
    (hsorted : (dueTimes (pre ++ new)).Pairwise (· ≤ ·))
    (hat : ScheduledAt now t t' (pre ++ new) td) : Schedule now t t' (pre ++ new) := by
  have hall : ∀ p ∈ t.timers, ScheduledAt now t t' (pre ++ new) p := by
    intro p hp
    by_cases hptd : p = td
    · exact hptd ▸ hat
    · exact h.scheduledAt_of_ne hturn hptd hp
  refine ⟨?_, fun p hp => (hall p hp).fired, ?_, hsorted, h.stopped, h.not_due,
    fun p hp => (hall p hp).exhausted, fun p hp => (hall p hp).kept,
    fun p hp => (hall p hp).removed, ?_, h.ordered⟩
  · rw [h.log, hturn.log, List.append_assoc]
  · intro p hp
    have hptd : p ≠ td := by
      rintro rfl
      exact hp htd
    rw [firingsOf_append, hturn.fired p hptd, h.only p (fun hin => hp ((hturn.timers p hptd).mp hin))]
    rfl
  · intro p hin
    have hp : p ∈ t.timers := by
      by_cases hptd : p = td
      · exact hptd ▸ htd
      · exact (hturn.timers p hptd).mp (h.subset p hin).1
    exact ⟨hp, (hall p hp).stays hin⟩

/-- A turn that deletes the front, before the rest of the call. -/
lemma Schedule.drop (h : Schedule now t₁ t' new) (ho : t.Ordered) (hl : t.timers = td :: l)
    (hdrop : t.Dropped t₁ td l pre) (hdel : ∀ p, .deleted p ∈ pre ↔ p = td)
    (hothers : ∀ p, p ≠ td → firingsOf p pre = [])
    (hfired : firingsOf td pre = (List.range ((t.mem td).firings now)).map
        fun j => (t.mem td).timeNext.toNat + j * (t.mem td).interval.toNat)
    (hdue : dueTimes pre = [] ∨ dueTimes pre = [t.due td])
    (hend : (t.mem td).count = 0 ∨ (t.mem td).Exhausted now) :
    Schedule now t t' (pre ++ new) := by
  have hin₁ : ∀ p, p ∈ t₁.timers ↔ p ≠ td ∧ p ∈ t.timers := fun _ => hdrop.mem_timers_iff ho hl
  have hturn : t.Touches t₁ td pre :=
    { log := hdrop.log
      mem := hdrop.mem
      timers := fun p hptd => (hin₁ p).trans (and_iff_right hptd)
      fired := hothers
      deleted := fun p hptd hin => hptd ((hdel p).mp hin) }
  have htd₁ : td ∉ t₁.timers := fun hin => ((hin₁ td).mp hin).1 rfl
  have htd' : td ∉ t'.timers := by
    intro hin
    exact htd₁ (h.subset td hin).1
  have hlast : .deleted td ∈ pre ++ new := List.mem_append_left _ ((hdel td).mpr rfl)
  refine h.turn hturn (hl ▸ List.mem_cons_self) (h.sorted_append hdue ?_) ?_
  · intro p hp
    obtain ⟨hptd, hpt⟩ := (hin₁ p).mp hp
    have hfront := (hl ▸ ho.heap).front_le p (hl ▸ hpt)
    rw [due, due, hdrop.mem p hptd]
    exact hfront
  · refine ⟨?_, fun _ => ⟨htd', hlast⟩, ?_, fun _ => .inl ⟨htd', hlast⟩, fun hin => absurd hin htd'⟩
    · rw [firingsOf_append, h.only td htd₁, List.append_nil]
      exact hfired
    · intro hc hex
      rcases hend with hz | hz
      · exact absurd hz hc
      · exact absurd hz hex

/-- A turn that fires the front and keeps it, before the rest of the call. -/
lemma Schedule.again (h : Schedule now t₁ t' new) (ho : t.Ordered) (hl : t.timers = td :: l)
    (hkept : t.Kept t₁ td) (hi : 0 < (t.mem td).interval.toNat)
    (hdue : (t.mem td).timeNext.toNat ≤ now.toNat) (hc0 : (t.mem td).count ≠ 0)
    (hc1 : (t.mem td).count ≠ 1) (ha : (t.mem td).Advanced (t₁.mem td) 1) :
    Schedule now t t' ([.fired td (t.mem td).data (t.mem td).timeNext] ++ new) := by
  have hturn : t.Touches t₁ td [.fired td (t.mem td).data (t.mem td).timeNext] :=
    { log := hkept.log
      mem := hkept.mem
      timers := fun _ _ => hkept.perm.mem_iff
      fired := fun p hptd => by simp [firingsOf, hptd.symm]
      deleted := fun p _ => by simp }
  have hfirings := TimerStruct.firings_succ hi hdue hc0 hc1 ha
  have hself : firingsOf td [.fired td (t.mem td).data (t.mem td).timeNext] = [t.due td] := by
    simp [firingsOf, due]
  have htd : td ∈ t.timers := hl ▸ List.mem_cons_self
  have htd₁ : td ∈ t₁.timers := hkept.perm.mem_iff.mpr htd
  have hc₁ : (t₁.mem td).count ≠ 0 := by
    rw [ha.count]
    split_ifs <;> omega
  refine h.turn hturn htd (h.sorted_append (d := t.due td) (.inr rfl) ?_) ?_
  · intro p hp
    have hfront := (hl ▸ ho.heap).front_le p (hl ▸ hkept.perm.mem_iff.mp hp)
    by_cases hptd : p = td
    · subst hptd
      rw [due, due, ha.timeNext]
      exact Nat.le_add_right _ _
    · rw [due, due, hkept.mem p hptd]
      exact hfront
  · refine ⟨?_, ?_, ?_, fun hc => absurd hc hc0, ?_⟩
    · rw [firingsOf_append, h.fired td htd₁, hself, hfirings, List.range_succ_eq_map, List.map_cons,
        List.map_map, Nat.zero_mul]
      refine congrArg (_ :: ·) (List.map_congr_left ?_)
      intro j _
      rw [ha.timeNext, ha.interval, Function.comp_apply, Nat.succ_eq_add_one]
      ring
    · intro hex
      rw [TimerStruct.exhausted_iff hi hdue hc1 ha] at hex
      obtain ⟨hout, hin⟩ := h.exhausted td htd₁ hex
      exact ⟨hout, List.mem_append_right _ hin⟩
    · intro _ hex
      rw [TimerStruct.exhausted_iff hi hdue hc1 ha] at hex
      obtain ⟨hin, hadv⟩ := h.kept td htd₁ hc₁ hex
      rw [hfirings]
      exact ⟨hin, ha.trans hc1 hadv⟩
    · intro hin
      rw [List.mem_append, not_or]
      exact ⟨by simp, (h.subset td hin).2⟩

/-- At the end of the loop nothing is left to do. -/
lemma Ready.schedule_stop (h : Ready now t) (hl : t.timers = td :: l) (hc : (t.mem td).count ≠ 0)
    (hdue : now < (t.mem td).timeNext) : Schedule now t t [] := by
  have hfront : ∀ p ∈ t.timers, t.due td ≤ t.due p := by
    intro p hp
    exact (hl ▸ h.ordered.heap).front_le p (hl ▸ hp)
  have hall : ∀ p ∈ t.timers, now.toNat < (t.mem p).timeNext.toNat := by
    intro p hp
    exact lt_of_lt_of_le (UInt32.lt_iff_toNat_lt.mp hdue) (hfront p hp)
  have hzero : ∀ p ∈ t.timers, (t.mem p).firings now = 0 := by
    intro p hp
    simp [TimerStruct.firings, TimerStruct.dueCount_eq_zero (hall p hp)]
  refine ⟨(List.append_nil _).symm, ?_, fun _ _ => rfl, List.Pairwise.nil, ⟨td, l, hl, hc, hdue⟩, ?_,
    ?_, ?_, ?_, ?_, h.ordered⟩
  · intro p hp
    rw [hzero p hp]
    rfl
  · intro p hp
    exact UInt32.lt_iff_toNat_lt.mpr (hall p hp)
  · intro p hp hex
    have := TimerStruct.dueCount_eq_zero (hall p hp)
    unfold TimerStruct.Exhausted at hex
    omega
  · intro p hp _ _
    rw [hzero p hp]
    refine ⟨hp, ?_, rfl, ?_, rfl⟩
    · omega
    · split_ifs <;> simp
  · intro p hp _
    refine .inr ⟨hp, rfl, ?_⟩
    intro q m hq
    rw [hl] at hq
    cases hq
    exact hfront p hp
  · intro p hp
    exact ⟨hp, List.not_mem_nil⟩

/-! ## The loop -/

/-- The next due time of a timer that goes on is a 32-bit number. -/
lemma Ready.next_lt (h : Ready now t) (htd : td ∈ t.timers)
    (hdue : (t.mem td).timeNext.toNat ≤ now.toNat) (hc0 : (t.mem td).count ≠ 0)
    (hc1 : (t.mem td).count ≠ 1) :
    (t.mem td).timeNext.toNat + (t.mem td).interval.toNat < 2 ^ 32 := by
  have hi := h.interval_pos td htd
  have hcount := TimerStruct.dueCount_eq hi hdue
  by_cases hex : (t.mem td).Exhausted now
  · have hone : 1 ≤ (now.toNat - (t.mem td).timeNext.toNat) / (t.mem td).interval.toNat := by
      unfold TimerStruct.Exhausted at hex
      omega
    rw [Nat.le_div_iff_mul_le hi] at hone
    have hlt := now.toNat_lt
    omega
  · have hpos : 1 ≤ (t.mem td).firings now := by
      have := TimerStruct.dueCount_pos hi hdue
      unfold TimerStruct.firings
      split_ifs <;> omega
    have hle := Nat.mul_le_mul_right (t.mem td).interval.toNat hpos
    have hlt := h.no_overflow td htd hc0 hex
    omega

/-- The work left when the front is gone. -/
lemma Ready.drop (h : Ready now t) (hl : t.timers = td :: l) (hdrop : t.Dropped t₁ td l pre)
    (hend : (t.mem td).count = 0 ∨ (t.mem td).Exhausted now) :
    Ready now t₁ ∧ t₁.work now < t.work now := by
  have hin₁ : ∀ p, p ∈ t₁.timers ↔ p ≠ td ∧ p ∈ t.timers :=
    fun _ => hdrop.mem_timers_iff h.ordered hl
  refine ⟨⟨hdrop.ordered, ?_, ?_, ?_⟩, hdrop.weight_lt h.ordered hl (·.firings now)⟩
  · intro p hp
    obtain ⟨hptd, hpt⟩ := (hin₁ p).mp hp
    rw [hdrop.mem p hptd]
    exact h.interval_pos p hpt
  · intro p hp
    obtain ⟨hptd, hpt⟩ := (hin₁ p).mp hp
    rw [hdrop.mem p hptd]
    exact h.no_overflow p hpt
  · obtain ⟨p, hp, hc, hex⟩ := h.stays
    have hptd : p ≠ td := by
      rintro rfl
      rcases hend with hz | hz
      · exact hc hz
      · exact hex hz
    refine ⟨p, (hin₁ p).mpr ⟨hptd, hp⟩, ?_⟩
    rw [hdrop.mem p hptd]
    exact ⟨hc, hex⟩

/-- The work left when the front has been fired and goes on. -/
lemma Ready.again (h : Ready now t) (hl : t.timers = td :: l) (hkept : t.Kept t₁ td)
    (hdue : (t.mem td).timeNext.toNat ≤ now.toNat) (hc0 : (t.mem td).count ≠ 0)
    (hc1 : (t.mem td).count ≠ 1) (ha : (t.mem td).Advanced (t₁.mem td) 1) :
    Ready now t₁ ∧ t₁.work now < t.work now := by
  have htd : td ∈ t.timers := hl ▸ List.mem_cons_self
  have hi := h.interval_pos td htd
  have hfirings := TimerStruct.firings_succ hi hdue hc0 hc1 ha
  have hex := TimerStruct.exhausted_iff hi hdue hc1 ha
  have hwork : (t.mem td).advance.firings now < (t.mem td).firings now := by
    rw [hfirings, hkept.front]
    exact Nat.lt_succ_self _
  refine ⟨⟨hkept.ordered, ?_, ?_, ?_⟩, hkept.weight_lt (w := (·.firings now)) h.ordered hl hwork⟩
  · intro p hp
    by_cases hptd : p = td
    · subst hptd
      rw [ha.interval]
      exact hi
    · rw [hkept.mem p hptd]
      exact h.interval_pos p (hkept.perm.mem_iff.mp hp)
  · intro p hp hc hno
    by_cases hptd : p = td
    · subst hptd
      have hlt := h.no_overflow p htd hc0 (fun hyes => hno (hex.mp hyes))
      rw [hfirings, Nat.add_mul, one_mul] at hlt
      rw [ha.timeNext, ha.interval]
      omega
    · rw [hkept.mem p hptd] at hc hno ⊢
      exact h.no_overflow p (hkept.perm.mem_iff.mp hp) hc hno
  · obtain ⟨p, hp, hc, hno⟩ := h.stays
    refine ⟨p, hkept.perm.mem_iff.mpr hp, ?_⟩
    by_cases hptd : p = td
    · subst hptd
      rw [← hex, ha.count]
      refine ⟨?_, hno⟩
      split_ifs <;> omega
    · rw [hkept.mem p hptd]
      exact ⟨hc, hno⟩

variable {H : HeapOps ℕ ℕ}

/-- The loop takes a turn that leaves less work, and whose effect completes the schedule of the rest
of the call. -/
def Progress (H : HeapOps ℕ ℕ) (now : UInt32) (t : Timer) : Prop :=
  ∃ t₁ pre, t.turn H now = .next t₁ ∧ Ready now t₁ ∧ t₁.work now < t.work now ∧
    ∀ t' new, Schedule now t₁ t' new → Schedule now t t' (pre ++ new)

/-- A turn that deletes the front is progress. -/
lemma Ready.progress_drop (h : Ready now t) (hl : t.timers = td :: l)
    (hturn : t.turn H now = .next t₁) (hdrop : t.Dropped t₁ td l pre)
    (hdel : ∀ p, .deleted p ∈ pre ↔ p = td) (hothers : ∀ p, p ≠ td → firingsOf p pre = [])
    (hfired : firingsOf td pre = (List.range ((t.mem td).firings now)).map
        fun j => (t.mem td).timeNext.toNat + j * (t.mem td).interval.toNat)
    (hdue : dueTimes pre = [] ∨ dueTimes pre = [t.due td])
    (hend : (t.mem td).count = 0 ∨ (t.mem td).Exhausted now) : Progress H now t := by
  obtain ⟨hready, hwork⟩ := h.drop hl hdrop hend
  refine ⟨t₁, pre, hturn, hready, hwork, ?_⟩
  intro t' new hs
  exact hs.drop h.ordered hl hdrop hdel hothers hfired hdue hend

/-- A removed timer at the front. -/
lemma Ready.progress_removed (h : Ready now t) (hl : t.timers = td :: l)
    (hc0 : (t.mem td).count = 0) : Progress H now t := by
  obtain ⟨t₁, hturn, hdrop⟩ := h.ordered.turn_removed (H := H) hl hc0
  refine h.progress_drop hl hturn hdrop ?_ (fun _ _ => rfl) ?_ (.inl rfl) (.inl hc0)
  · simp
  · rw [TimerStruct.firings_eq_zero hc0]
    rfl

/-- A due timer at the front with one firing left. -/
lemma Ready.progress_last (h : Ready now t) (hl : t.timers = td :: l)
    (hc1 : (t.mem td).count = 1) (hdue : now ≥ (t.mem td).timeNext) : Progress H now t := by
  have hi := h.interval_pos td (hl ▸ List.mem_cons_self)
  have hdue' : (t.mem td).timeNext.toNat ≤ now.toNat := UInt32.le_iff_toNat_le.mp hdue
  have hend : (t.mem td).Exhausted now := by
    have := TimerStruct.dueCount_pos hi hdue'
    rw [TimerStruct.Exhausted, hc1]
    omega
  obtain ⟨t₁, hturn, hdrop⟩ := h.ordered.turn_last (H := H) hl hc1 hdue
  refine h.progress_drop hl hturn hdrop ?_ ?_ ?_ (.inr rfl) (.inr hend)
  · simp
  · intro p hp
    simp [firingsOf, hp.symm]
  · rw [TimerStruct.firings_eq_one hi hdue' hc1]
    simp [firingsOf]

/-- A due timer at the front that goes on. -/
lemma Ready.progress_again (h : Ready now t) (hl : t.timers = td :: l)
    (hc0 : (t.mem td).count ≠ 0) (hc1 : (t.mem td).count ≠ 1) (hdue : now ≥ (t.mem td).timeNext) :
    Progress H now t := by
  have htd : td ∈ t.timers := hl ▸ List.mem_cons_self
  have hdue' : (t.mem td).timeNext.toNat ≤ now.toNat := UInt32.le_iff_toNat_le.mp hdue
  obtain ⟨t₁, hturn, hkept⟩ := h.ordered.turn_again (H := H) hl hc0 hc1 hdue
  have ha : (t.mem td).Advanced (t₁.mem td) 1 := by
    have hlt := h.next_lt htd hdue' hc0 hc1
    rw [hkept.front]
    refine ⟨?_, rfl, rfl, rfl⟩
    simp only [TimerStruct.advance, UInt32.toNat_add]
    rw [Nat.mod_eq_of_lt hlt, one_mul]
  obtain ⟨hready, hwork⟩ := h.again hl hkept hdue' hc0 hc1 ha
  refine ⟨t₁, [.fired td (t.mem td).data (t.mem td).timeNext], hturn, hready, hwork, ?_⟩
  intro t' new hs
  exact hs.again h.ordered hl hkept (h.interval_pos td htd) hdue' hc0 hc1 ha

/-- One turn of the loop from `Ready` timers: the `break` with nothing left to do, or progress. -/
lemma Ready.turn_cases (h : Ready now t) :
    (t.turn H now = .stop ∧ Schedule now t t []) ∨ Progress H now t := by
  obtain ⟨q, hq, -⟩ := h.stays
  cases hl : t.timers with
  | nil => simp [hl] at hq
  | cons td l =>
      by_cases hc0 : (t.mem td).count = 0
      · exact .inr (h.progress_removed hl hc0)
      · by_cases hdue : now ≥ (t.mem td).timeNext
        · by_cases hc1 : (t.mem td).count = 1
          · exact .inr (h.progress_last hl hc1 hdue)
          · exact .inr (h.progress_again hl hc0 hc1 hdue)
        · have hlt := UInt32.not_le.mp hdue
          exact .inl ⟨turn_eq_stop_iff.mpr ⟨td, l, hl, hc0, hlt⟩, h.schedule_stop hl hc0 hlt⟩

/-- From `Ready` timers the loop ends within its work and one turn, with the schedule done. -/
lemma Ready.exists_schedule (h : Ready now t) :
    ∃ t' new, (∀ fuel, t.work now < fuel → processLoop H now fuel t = some t') ∧
      Schedule now t t' new := by
  induction hw : t.work now using Nat.strongRecOn generalizing t with
  | ind w ih =>
      subst hw
      rcases h.turn_cases (H := H) with ⟨hturn, hs⟩ | ⟨t₁, pre, hturn, hready, hlt, hs⟩
      · refine ⟨t, [], ?_, hs⟩
        intro fuel hf
        obtain ⟨n, rfl⟩ := Nat.exists_eq_succ_of_ne_zero (Nat.ne_of_gt (Nat.zero_lt_of_lt hf))
        simp [processLoop, hturn]
      · obtain ⟨t', new, hrun, hs₁⟩ := ih _ hlt hready rfl
        refine ⟨t', pre ++ new, ?_, hs t' new hs₁⟩
        intro fuel hf
        obtain ⟨n, rfl⟩ := Nat.exists_eq_succ_of_ne_zero (Nat.ne_of_gt (Nat.zero_lt_of_lt hf))
        rw [processLoop, hturn]
        exact hrun n (by omega)

/-- A heap by due time is one under `timerCompare`. -/
lemma Ordered.timerCompare_eq_false (h : t.Ordered) {i a b : ℕ}
    (ha : t.timers[(i - 1) / 2]? = some a) (hb : t.timers[i]? = some b) :
    t.timerCompare a b = false := by
  rw [Bool.eq_false_iff, ne_eq, timerCompare_iff]
  exact not_lt.mpr (h.heap i a b ha hb)

end Timer

/-! ## Timers built by calls -/

/-- The calls that build a set of timers with positive intervals. -/
def TimerCall.Builds : TimerCall → Prop
  | .add _ _ interval _ _ _ => 0 < interval.toNat
  | .remove _ => True
  | .process _ => False
  | .turn => False
  | .back => False

/-- What any calls of `add` and `remove` leave. -/
structure TimerState.Built (s : TimerState) : Prop where
  ordered : s.timer.Ordered
  interval_pos : ∀ td ∈ s.timer.timers, 0 < (s.timer.mem td).interval.toNat

/-- At the start there is no timer. -/
lemma built_init (H : HeapOps ℕ ℕ) : (timerMachine H).init.Built where
  ordered := Timer.ordered_empty
  interval_pos := by simp [timerMachine, Timer.empty]

/-- A call that builds timers keeps them built. -/
lemma TimerState.Built.step {H : HeapOps ℕ ℕ} {s s' : TimerState} {e : TimerCall} (hs : s.Built)
    (he : e.Builds) (h : (timerMachine H).step s e = some s') : s'.Built := by
  cases e with
  | add allocated now interval firstInterval data count =>
      cases timerStepTo_of_step h
      refine ⟨hs.ordered.addFirst _ _ _ _ _ _, ?_⟩
      cases allocated with
      | false => exact hs.interval_pos
      | true =>
          intro td htd
          have hperm := Timer.timers_addFirst_perm (H := H) hs.ordered now interval firstInterval
            data count
          simp only [Timer.addFirst, Bool.not_true, Bool.false_eq_true, if_false]
          by_cases hnew : td = s.timer.fresh
          · subst hnew
            rw [Function.update_self]
            exact he
          · rw [Function.update_of_ne hnew]
            exact hs.interval_pos td (List.mem_of_ne_of_mem hnew (hperm.mem_iff.mp htd))
  | remove td =>
      cases timerStepTo_of_step h
      refine ⟨hs.ordered.remove td, ?_⟩
      intro p hp
      have hold := hs.interval_pos p hp
      by_cases hptd : p = td
      · subst hptd
        simpa [Timer.remove] using hold
      · simpa [Timer.remove, hptd] using hold
  | process now => exact he.elim
  | turn => exact he.elim
  | back => exact he.elim

/-- **Schedule of a call of `process`.** For timers built by any calls of `add` and `remove` with
positive intervals, and a time at which no due time overflows and some timer is left with firings
and not due, `process` ends and does exactly its schedule: each timer is fired for its due times up
to now, at most `count` of them, all firings in the order of the due times; what is exhausted or
removed and met is deleted, the rest is kept and advanced, and the vector stays a heap. -/
theorem process_schedule (H : HeapOps ℕ ℕ) (es : List TimerCall) (s : TimerState) (now : UInt32)
    (hes : ∀ e ∈ es, e.Builds) (hrun : (timerMachine H).run es = some s)
    (hover : ∀ td ∈ s.timer.timers, (s.timer.mem td).count ≠ 0 →
      ¬(s.timer.mem td).Exhausted now →
      (s.timer.mem td).timeNext.toNat
        + (s.timer.mem td).firings now * (s.timer.mem td).interval.toNat < 2 ^ 32)
    (hstays : ∃ td ∈ s.timer.timers, (s.timer.mem td).count ≠ 0 ∧
      ¬(s.timer.mem td).Exhausted now) :
    ∃ t' new, (∃ n, ∀ fuel, n ≤ fuel → s.timer.process H now fuel = some t') ∧
      Timer.Schedule now s.timer t' new ∧
      ∀ i a b, t'.timers[(i - 1) / 2]? = some a → t'.timers[i]? = some b →
        t'.timerCompare a b = false := by
  have hbuilt : s.Built :=
    (timerMachine H).meets_invariant (built_init H) (fun _ _ _ hs he h => hs.step he h)
      ((timerMachine H).meetsFrom_of_forall hes _) hrun
  have hready : Timer.Ready now s.timer := ⟨hbuilt.ordered, hbuilt.interval_pos, hover, hstays⟩
  obtain ⟨t', new, hloop, hs⟩ := hready.exists_schedule (H := H)
  refine ⟨t', new, ⟨s.timer.work now + 1, ?_⟩, hs, ?_⟩
  · intro fuel hf
    obtain ⟨q, hq, -⟩ := hstays
    rw [Timer.process, if_neg (List.ne_nil_of_mem hq)]
    exact hloop fuel hf
  · intro i a b ha hb
    exact hs.ordered.timerCompare_eq_false ha hb

/-- At time 25: a timer without an end that falls due at 5, 15 and 25, one with two firings that fall
due at 10 and 20, and one that was removed. -/
theorem process_schedule_at_25 :
    ∃ s, (timerMachine (siftOps ℕ ℕ)).run
        [.add true 0 10 5 7 (-1), .add true 0 10 10 8 2, .add true 0 9 9 9 1, .remove 2] = some s ∧
      ∃ t' new,
        (∃ n, ∀ fuel, n ≤ fuel → s.timer.process (siftOps ℕ ℕ) 25 fuel = some t') ∧
        Timer.Schedule 25 s.timer t' new ∧
        ∀ i a b, t'.timers[(i - 1) / 2]? = some a → t'.timers[i]? = some b →
          t'.timerCompare a b = false := by
  refine ⟨_, rfl, process_schedule (siftOps ℕ ℕ)
    [.add true 0 10 5 7 (-1), .add true 0 10 10 8 2, .add true 0 9 9 9 1, .remove 2]
    _ 25 ?_ rfl ?_ ?_⟩
  · intro e he
    simp only [List.mem_cons, List.not_mem_nil, or_false] at he
    rcases he with rfl | rfl | rfl | rfl
    · exact (by decide : 0 < (10 : UInt32).toNat)
    · exact (by decide : 0 < (10 : UInt32).toNat)
    · exact (by decide : 0 < (9 : UInt32).toNat)
    · trivial
  · decide
  · decide

end CocInside.System
