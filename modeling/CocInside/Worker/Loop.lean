import CocInside.Worker.Base

/-!
# Runs of a worker

The loop of a worker, as its steps: time passes, timers that are due get active, one of them is called;
between any two of them the callbacks of the worker add and delete timers, and it may be stopped.

* `Loop.exec`, `Loop.Steps`: a step, with what the user of the timers sees of it; a run.
* `Loop.Keeps`: the invariant of all runs.
* `Loop.memory_safe`: no run touches a freed object, and none of them is left at the end.
* `Loop.steps_refine`: a run is a run of `Alarms`.
* `Loop.turn_calls`: a turn calls every timer that is due, once, in the order of the deadlines.

Source: `CocTest/Classes/Worker/Base.cpp`, with `event_base_loop` of `event/event.c`.
-/

namespace CocInside.Worker

open CocInside.Lib CocInside.LibEvent

/-- Where `Base::loop` is. Source: `CocTest/Classes/Worker/Base.cpp`, `Base::loop`. -/
inductive Phase where
  | initializing
  | looping
  | uninitializing
  | over
  deriving DecidableEq

/-- A worker in its loop. Source: `CocTest/Classes/Worker/Base.cpp`, `Base::loop`. -/
structure Loop where
  base : Base
  phase : Phase

/-- What happens next: time passes, the loop is entered or left, a callback uses the timers, or the
loop takes one of its own steps. -/
inductive Op where
  | wait (time : ℕ)
  | enter
  | leave
  | addTimer (mem : MinHeap.Realloc ℕ) (w e : Option ℕ) (id : ℤ) (interval firstInterval : UInt32)
      (data : ℕ)
  | delTimer (id : ℤ)
  | stop
  | dispatch (time : ℕ)
  | fire (mem : MinHeap.Realloc ℕ)
  | clear

/-- There is memory for the heap. -/
def Op.HasMemory : Op → Prop
  | .addTimer mem .. => ¬ mem.Fails
  | .fire mem => ¬ mem.Fails
  | _ => True

namespace Loop

/-- After `event_base_new`, at the time `now`. Source: `CocTest/Classes/Worker/Base.cpp`,
`Base::loop`. -/
def start (now : ℕ) : Loop where
  base :=
    { evBase := ⟨fun _ => none, MinHeap.ctor, [], false, now⟩
      timers := ∅
      wtds := fun _ => none
      running := true }
  phase := .initializing

/-- What may come next. In the loop, time passes in `dispatch` only: events are added by the time of
the last one. `new` and `malloc` give what is free. -/
def Enabled (s : Loop) : Op → Prop
  | .wait _ => s.phase = .initializing ∨ s.phase = .uninitializing
  | .enter => s.phase = .initializing
  | .leave => s.phase = .initializing ∨ s.phase = .looping ∧
      (s.base.evBase.eventBreak ∨ s.base.evBase.timeheap.n = 0 ∧ s.base.evBase.activequeue = [])
  | .addTimer _ w e _ _ _ _ => s.phase ≠ .over ∧ (∀ x ∈ w, s.base.wtds x = none) ∧
      ∀ x ∈ e, s.base.evBase.events x = none
  | .delTimer _ => s.phase ≠ .over
  | .stop => True
  | .dispatch _ => s.phase = .looping ∧ s.base.evBase.eventBreak = false ∧
      s.base.evBase.activequeue = []
  | .fire _ => s.phase = .looping ∧ s.base.evBase.eventBreak = false ∧
      s.base.evBase.activequeue ≠ []
  | .clear => s.phase = .uninitializing

/-- What is done, with what is seen of it. Source: `CocTest/Classes/Worker/Base.cpp`, `Base::loop`.
-/
def exec (s : Loop) : Op → Option (List (AlarmLabel ℤ ℕ) × Loop)
  | .wait time => some ([.wait time],
      { s with base := { s.base with
          evBase := { s.base.evBase with now := s.base.evBase.now + time } } })
  | .enter => some ([],
      { base := { s.base with evBase := { s.base.evBase with eventBreak := false } }
        phase := .looping })
  | .leave => some ([], { s with phase := .uninitializing })
  | .addTimer mem w e id interval firstInterval data =>
      (s.base.addTimer mem w e id interval firstInterval data).map fun r =>
        (if r.1 then
          [.added id (timeval (if firstInterval ≠ 0 then firstInterval else interval))
            (timeval interval) data]
        else [], { s with base := r.2 })
  | .delTimer id =>
      (s.base.delTimer id).map fun r => (if r.1 then [.deleted id] else [], { s with base := r.2 })
  | .stop => some ([], { s with base := { s.base with running := false } })
  | .dispatch time => (s.base.dispatch time).map fun b => ([.wait time], { s with base := b })
  | .fire mem => (s.base.fire mem).map fun r =>
      ((r.1.map fun c => .called c.1 c.2).toList, { s with base := r.2 })
  | .clear => s.base.clear.map fun b => (s.base.timers.keys.map .deleted, ⟨b, .over⟩)

/-- Source: `Base::loop`. -/
inductive Steps : Loop → List Op → List (AlarmLabel ℤ ℕ) → Loop → Prop where
  | nil {s : Loop} : Steps s [] [] s
  | cons {s s₁ s' : Loop} {op : Op} {ops : List Op} {ls ls' : List (AlarmLabel ℤ ℕ)}
      (hen : s.Enabled op) (h : s.exec op = some (ls, s₁)) (hrest : Steps s₁ ops ls' s') :
      Steps s (op :: ops) (ls ++ ls') s'

/-- A timer without a first interval of its own, and there is no memory for its event. -/
def Crashes (s : Loop) : Op → Prop
  | .addTimer _ w e id _ firstInterval _ =>
      s.base.timer id = none ∧ w.isSome ∧ e = none ∧ firstInterval = 0
  | _ => False

/-! ## The invariant -/

/-- The invariant: that of the base, no break before the loop is entered, and nothing left when it
is over. `live` is what is asked for the deadlines to be exact. -/
structure Keeps (live : Prop) (σ : Alarms ℤ ℕ) (s : Loop) : Prop where
  base : s.base.Keeps (live ∧ s.base.evBase.eventBreak = false) σ s.base.timer
  not_break : s.phase = .initializing → s.base.evBase.eventBreak = false
  cleared : s.phase = .over → (∀ w, s.base.wtds w = none) ∧ ∀ e, s.base.evBase.events e = none

variable {live : Prop} {σ : Alarms ℤ ℕ} {s s' : Loop} {op : Op} {ops : List Op}
  {ls : List (AlarmLabel ℤ ℕ)}

/-- The invariant at the start. -/
lemma keeps_start (live : Prop) (now : ℕ) : Keeps live (Alarms.start now) (start now) := by
  have hevents : ∀ e ev, (start now).base.evBase.events e ≠ some ev := fun _ _ h => by cases h
  have hwtds : ∀ w d, (start now).base.wtds w ≠ some d := fun _ _ h => by cases h
  have hsound : (start now).base.evBase.Sound := by
    refine ⟨MinHeap.WellFormed.ctor, fun e => ?_, fun e => ?_, .nil, ?_, ?_⟩
    · exact iff_of_false List.not_mem_nil fun ⟨ev, hev, _⟩ => hevents e ev hev
    · exact iff_of_false List.not_mem_nil fun ⟨ev, hev, _⟩ => hevents e ev hev
    · exact fun e ev hev => absurd hev (hevents e ev)
    · exact fun e ev hev => absurd hev (hevents e ev)
  have howned : Owned (start now).base.timer (start now).base.wtds (start now).base.evBase.events := by
    refine ⟨fun id w h => ?_, fun w d hd => absurd hd (hwtds w d), fun e ev hev =>
      absurd hev (hevents e ev)⟩
    cases h
  refine ⟨⟨hsound, howned, rfl, fun _ _ => rfl, fun w d ev hd => absurd hd (hwtds w d)⟩,
    fun _ => rfl, ?_⟩
  rintro ⟨⟩

/-! ## Steps -/

/-- What a step from `s` is to do: it is a step of the alarms, and keeps the invariant. -/
def Does (live : Prop) (σ : Alarms ℤ ℕ) (s : Loop) (op : Op) : Prop :=
  ∃ ls s' τ, s.exec op = some (ls, s') ∧ Alarms.Run σ ls τ ∧ Keeps (live ∧ op.HasMemory) τ s'

/-- Only the base is changed. -/
lemma Keeps.of_base (h : Keeps live σ s) {live' : Prop} {τ : Alarms ℤ ℕ} {b : Base}
    (hphase : s.phase ≠ .over) (hb : b.Keeps (live' ∧ b.evBase.eventBreak = false) τ b.timer)
    (hbreak : b.evBase.eventBreak = s.base.evBase.eventBreak) :
    Keeps live' τ { s with base := b } :=
  ⟨hb, fun hp => hbreak.trans (h.not_break hp), fun hp => absurd hp hphase⟩

/-- Adding a timer crashes when the event of a timer without a first interval gets no memory; else
it is a step of the alarms. -/
lemma addTimer_does (h : Keeps live σ s) {mem : MinHeap.Realloc ℕ} {w e : Option ℕ} {id : ℤ}
    {interval firstInterval : UInt32} {data : ℕ}
    (hen : s.Enabled (.addTimer mem w e id interval firstInterval data)) :
    s.Crashes (.addTimer mem w e id interval firstInterval data) ∧
        s.exec (.addTimer mem w e id interval firstInterval data) = none ∨
      ¬ s.Crashes (.addTimer mem w e id interval firstInterval data) ∧
        Does live σ s (.addTimer mem w e id interval firstInterval data) := by
  obtain ⟨hphase, hw, he⟩ := hen
  obtain ⟨hT, hw', he', hfirst, hadd⟩ | ⟨hno, hadd⟩ | ⟨s', hadd, hT, he', hkeeps, -, -, hbreak⟩ :=
    Base.addTimer_spec h.base mem hw he id interval firstInterval data
  · refine .inl ⟨⟨hT, hw', he', hfirst⟩, ?_⟩
    rw [exec, hadd]
    rfl
  · refine .inr ⟨?_, [], s, σ, ?_, .nil, h.of_base hphase (h.base.mono fun hl => ⟨hl.1.1, hl.2⟩) rfl⟩
    · rintro ⟨hT, hw', he', hfirst⟩
      obtain hsome | rfl | ⟨-, hne⟩ := hno
      · rw [hT] at hsome
        cases hsome
      · cases hw'
      · exact hne hfirst
    · rw [exec, hadd]
      rfl
  · refine .inr ⟨?_, _, { s with base := s' }, _, ?_,
      .single (.added _ (timeval interval) data (h.base.alarm_none id hT)),
      h.of_base hphase (hkeeps.mono fun hl => ⟨⟨hl.1.1, hbreak ▸ hl.2⟩, hl.1.2⟩) hbreak⟩
    · rintro ⟨-, -, rfl, -⟩
      cases he'
    · rw [exec, hadd]
      rfl

/-- Deleting a timer is a step of the alarms. -/
lemma delTimer_does (h : Keeps live σ s) {id : ℤ} (hen : s.Enabled (.delTimer id)) :
    Does live σ s (.delTimer id) := by
  obtain ⟨-, hdel⟩ | ⟨s', a, hdel, ha, hkeeps, hbreak⟩ := Base.delTimer_spec h.base id
  · refine ⟨[], s, σ, ?_, .nil, h.of_base hen (h.base.mono fun hl => ⟨hl.1.1, hl.2⟩) rfl⟩
    rw [exec, hdel]
    rfl
  · refine ⟨_, { s with base := s' }, _, ?_, .single (.deleted ha),
      h.of_base hen (hkeeps.mono fun hl => ⟨hl.1.1, hbreak ▸ hl.2⟩) hbreak⟩
    rw [exec, hdel]
    rfl

/-- The wait and the expiry of the timers let time pass for the alarms. -/
lemma dispatch_does (h : Keeps live σ s) {time : ℕ} (hen : s.Enabled (.dispatch time)) :
    Does live σ s (.dispatch time) := by
  have hphase : s.phase ≠ .over := by
    rw [hen.1]
    decide
  obtain ⟨b, l, hb, hkeeps, hexp⟩ := Base.dispatch_spec h.base time
  refine ⟨_, { s with base := { s.base with evBase := b } }, _, ?_, .single (.wait time),
    h.of_base hphase (hkeeps.mono fun hl => ⟨hl.1.1, hexp.eventBreak_eq ▸ hl.2⟩) hexp.eventBreak_eq⟩
  rw [exec, hb]
  rfl

/-- Processing an active event calls its alarm, or does nothing when the worker was stopped. -/
lemma fire_does (h : Keeps live σ s) {mem : MinHeap.Realloc ℕ} (hen : s.Enabled (.fire mem)) :
    Does live σ s (.fire mem) := by
  obtain ⟨hphase, hbreak, hne⟩ := hen
  obtain ⟨e, q, hq⟩ := List.exists_cons_of_ne_nil hne
  obtain ⟨w, d, r, s', -, -, hfire, hfired⟩ := Base.fire_spec h.base mem hq
  have hexec : s.exec (.fire mem) =
      some ((r.map fun c => .called c.1 c.2).toList, { s with base := s' }) := by
    rw [exec, hfire]
    rfl
  have htimer : s'.timer = s.base.timer := by
    funext id
    rw [Base.timer, Base.timer, hfired.timers_eq]
  cases hr : s.base.running with
  | true =>
      obtain ⟨rfl, hbreak', a, ha, hdata, hongoing, hdue, hkeeps⟩ := hfired.of_running hr
      refine ⟨_, _, _, hexec, .single (.called ha hdata hongoing hdue), ?_, ?_, ?_⟩
      · rw [htimer]
        exact hkeeps.mono fun hl => ⟨⟨hl.1.1, hbreak⟩, hl.1.2⟩
      · exact fun hp => absurd (hp.symm.trans hphase) (by decide)
      · exact fun hp => absurd (hp.symm.trans hphase) (by decide)
  | false =>
      obtain ⟨rfl, hbreak', hkeeps⟩ := hfired.of_stopped hr
      refine ⟨_, _, σ, hexec, .nil, ?_, ?_, ?_⟩
      · rw [htimer]
        refine hkeeps.mono fun hl => ?_
        exact absurd (hl.2.symm.trans hbreak') Bool.false_ne_true
      · exact fun hp => absurd (hp.symm.trans hphase) (by decide)
      · exact fun hp => absurd (hp.symm.trans hphase) (by decide)

/-- The end of the loop deletes every alarm. -/
lemma clear_does (h : Keeps live σ s) : Does live σ s .clear := by
  obtain ⟨s', τ, hs', hkeeps, hrun, hwtds, hevents⟩ := Base.clear_spec h.base
  refine ⟨_, ⟨s', .over⟩, τ, ?_, hrun, ?_, ?_, fun _ => ⟨hwtds, hevents⟩⟩
  · rw [exec, hs']
    rfl
  · exact ⟨hkeeps.sound, hkeeps.owned, hkeeps.now_eq, hkeeps.alarm_none,
      fun w d _ hd => absurd (hd.symm.trans (hwtds w)) (by simp)⟩
  · rintro ⟨⟩

/-- Every step that may come next is a step of the alarms, but for the one that crashes. -/
theorem step_does (h : Keeps live σ s) (hen : s.Enabled op) :
    s.Crashes op ∧ s.exec op = none ∨ ¬ s.Crashes op ∧ Does live σ s op := by
  have hmono : live ∧ True → live := And.left
  cases op with
  | wait time =>
      have hphase : s.phase ≠ .over := by
        rintro hp
        rcases hen with hen | hen <;> exact absurd (hp.symm.trans hen) (by decide)
      refine .inr ⟨id, _, _, _, rfl, .single (.wait time), h.of_base hphase ?_ rfl⟩
      exact h.base.wait.mono fun hl => ⟨hl.1.1, hl.2⟩
  | enter =>
      refine .inr ⟨id, _, _, σ, rfl, .nil, ?_, ?_, ?_⟩
      · exact (h.base.mono fun hl => ⟨hl.1.1, h.not_break hen⟩).setBreak false
      · rintro ⟨⟩
      · rintro ⟨⟩
  | leave =>
      refine .inr ⟨id, _, _, σ, rfl, .nil, h.base.mono fun hl => ⟨hl.1.1, hl.2⟩, ?_, ?_⟩
      · rintro ⟨⟩
      · rintro ⟨⟩
  | addTimer mem w e id interval firstInterval data => exact addTimer_does h hen
  | delTimer i => exact .inr ⟨id, delTimer_does h hen⟩
  | stop =>
      refine .inr ⟨id, _, _, σ, rfl, .nil, ?_, h.not_break, h.cleared⟩
      exact ⟨h.base.sound, h.base.owned, h.base.now_eq, h.base.alarm_none,
        (h.base.mono fun hl => ⟨hl.1.1, hl.2⟩).scheduled⟩
  | dispatch time => exact .inr ⟨id, dispatch_does h hen⟩
  | fire mem => exact .inr ⟨id, fire_does h hen⟩
  | clear => exact .inr ⟨id, clear_does h⟩

/-! ## Runs -/

/-- A stronger condition for exact deadlines keeps the invariant. -/
lemma Keeps.mono {live' : Prop} (h : Keeps live σ s) (himp : live' → live) : Keeps live' σ s :=
  ⟨h.base.mono fun hl => ⟨himp hl.1, hl.2⟩, h.not_break, h.cleared⟩

/-- A run keeps the invariant, and is a run of the alarms; the deadlines stay exact while there was
memory. By induction on the run. -/
lemma steps_keeps (h : Steps s ops ls s') : ∀ (live : Prop) (σ : Alarms ℤ ℕ), Keeps live σ s →
    ∃ τ, Alarms.Run σ ls τ ∧ Keeps (live ∧ ∀ op ∈ ops, op.HasMemory) τ s' := by
  induction h with
  | nil => exact fun live σ h => ⟨σ, .nil, h.mono And.left⟩
  | @cons s s₁ s' op ops ls ls' hen hexec _ ih =>
      intro live σ h
      obtain ⟨-, hnone⟩ | ⟨-, _, _, τ, hexec', hrun, hkeeps⟩ := step_does h hen
      · rw [hnone] at hexec
        cases hexec
      · cases hexec.symm.trans hexec'
        obtain ⟨υ, hrun', hkeeps'⟩ := ih _ τ hkeeps
        refine ⟨υ, hrun.append hrun', hkeeps'.mono fun hl => ?_⟩
        exact ⟨⟨hl.1, hl.2 op List.mem_cons_self⟩, fun op' hop => hl.2 op' (List.mem_cons_of_mem _ hop)⟩

/-- Memory that does not run out. -/
def memory : MinHeap.Realloc ℕ := .filled 0

/-- A timer is added before the loop is entered. -/
lemma steps_addTimer_enter :
    ∃ s, Steps (start 0) [.addTimer memory (some 3) (some 4) 7 5 0 42, .enter]
        [.added 7 5000 5000 42] s ∧ s.Enabled (.dispatch 5000) ∧ s.base.running := by
  have hstart := (keeps_start True 0).base
  obtain ⟨-, -, he, -⟩ | ⟨hno, -⟩ | ⟨s', hadd, -, -, -, hr, hq, -⟩ :=
    Base.addTimer_spec (w := some 3) (e := some 4) hstart memory (fun _ _ => rfl) (fun _ _ => rfl)
      7 5 0 42
  · cases he
  · obtain hno | hno | ⟨hno, -⟩ := hno <;> cases hno
  · have hen : (start 0).Enabled (.addTimer memory (some 3) (some 4) 7 5 0 42) :=
      ⟨by decide, fun _ _ => rfl, fun _ _ => rfl⟩
    have hexec : (start 0).exec (.addTimer memory (some 3) (some 4) 7 5 0 42) =
        some ([.added 7 5000 5000 42], { start 0 with base := s' }) := by
      rw [exec, hadd]
      rfl
    have henter : ({ start 0 with base := s' } : Loop).Enabled .enter := rfl
    exact ⟨_, .cons hen hexec (.cons henter rfl .nil), ⟨rfl, rfl, hq⟩, hr⟩

/-- **Memory safety.** In no state a run comes to does a step touch a freed object, put an event on a
queue it is on or take it from one it is not on, but for the one that crashes; and when `loop` is over,
no object of a timer is left. -/
theorem memory_safe {now : ℕ} (h : Steps (start now) ops ls s) :
    (∀ op, s.Enabled op → (s.exec op = none ↔ s.Crashes op)) ∧
      (s.phase = .over → (∀ w, s.base.wtds w = none) ∧ ∀ e, s.base.evBase.events e = none) := by
  obtain ⟨τ, -, hkeeps⟩ := steps_keeps h True _ (keeps_start True now)
  refine ⟨fun op hen => ?_, hkeeps.cleared⟩
  obtain ⟨hcrash, hnone⟩ | ⟨hcrash, _, _, _, hexec, -⟩ := step_does hkeeps hen
  · exact iff_of_true hnone hcrash
  · rw [hexec]
    exact iff_of_false (Option.some_ne_none _) hcrash

/-- A worker with one timer, in its loop. -/
theorem memory_safe_added : ∃ s, Steps (start 0)
      [.addTimer memory (some 3) (some 4) 7 5 0 42, .enter] [.added 7 5000 5000 42] s ∧
    (∀ op, s.Enabled op → (s.exec op = none ↔ s.Crashes op)) := by
  obtain ⟨s, h, -⟩ := steps_addTimer_enter
  exact ⟨s, h, (memory_safe h).1⟩

/-- **Refinement.** What is seen of a run is a run of the alarms: a timer is called with its data, not
before it is due, not again if it does not repeat, and not when it is deleted. The timers are the alarms
that are set, and their calls are their interval apart. -/
theorem steps_refine {now : ℕ} (h : Steps (start now) ops ls s) :
    ∃ σ, Alarms.Run (Alarms.start now) ls σ ∧ σ.now = s.base.evBase.now ∧
      (∀ id, s.base.timer id = none ↔ σ.alarm id = none) ∧
      ∀ id a, σ.alarm id = some a → a.Spaced σ.now := by
  obtain ⟨τ, hrun, hkeeps⟩ := steps_keeps h True _ (keeps_start True now)
  refine ⟨τ, hrun, hkeeps.base.now_eq, fun id => ⟨hkeeps.base.alarm_none id, fun hnone => ?_⟩,
    fun id a ha => hrun.calls_spaced ha⟩
  by_contra hT
  obtain ⟨w, hw⟩ := Option.ne_none_iff_exists'.mp hT
  obtain ⟨d, ev, hd, rfl, hev, -⟩ := hkeeps.base.owned.of_timer id w hw
  obtain ⟨a, ha, -⟩ := hkeeps.base.scheduled w d ev hd hev
  rw [hnone] at ha
  cases ha

/-- The same run: the timer is an alarm. -/
theorem steps_refine_added : ∃ (s : Loop) (σ : Alarms ℤ ℕ), Steps (start 0)
      [.addTimer memory (some 3) (some 4) 7 5 0 42, .enter] [.added 7 5000 5000 42] s ∧
    Alarms.Run (Alarms.start 0) [.added 7 5000 5000 42] σ ∧ σ.now = s.base.evBase.now := by
  obtain ⟨s, h, -⟩ := steps_addTimer_enter
  obtain ⟨σ, hrun, hnow, -⟩ := steps_refine h
  exact ⟨s, σ, h, hrun, hnow⟩

/-! ## Turns -/

/-- The active events are processed one after the other. -/
lemma processActive {f : ℕ → ℤ × ℕ} (l : List ℕ) : ∀ (live : Prop) (σ : Alarms ℤ ℕ) (s : Loop),
    s.base.Keeps live σ s.base.timer → s.phase = .looping → s.base.evBase.eventBreak = false →
    s.base.running → s.base.evBase.activequeue = l → (∀ e ∈ l, s.base.Owns e (f e).1 (f e).2) →
    ∀ mems : List (MinHeap.Realloc ℕ), mems.length = l.length →
    ∃ s', Steps s (mems.map .fire) (l.map fun e => .called (f e).1 (f e).2) s' ∧
      s'.base.evBase.activequeue = [] := by
  induction l with
  | nil =>
      intro live σ s _ _ _ _ hq _ mems hlen
      rw [List.length_eq_zero_iff.mp hlen]
      exact ⟨s, .nil, hq⟩
  | cons e l ih =>
      intro live σ s h hphase hbreak hr hq howns mems hlen
      obtain ⟨mem, mems, rfl⟩ := List.exists_cons_of_length_eq_add_one hlen
      obtain ⟨w, d, r, s', hd, rfl, hfire, hfired⟩ := Base.fire_spec h mem hq
      obtain ⟨rfl, hbreak', a, -, -, -, -, hkeeps⟩ := hfired.of_running hr
      obtain ⟨w', d', hd', hde, hid, hdata⟩ := howns d.ev List.mem_cons_self
      cases h.owned.wtd_unique hd hd' hde
      cases hd.symm.trans hd'
      have htimer : s'.timer = s.base.timer := by
        funext id
        rw [Base.timer, Base.timer, hfired.timers_eq]
      rw [← htimer] at hkeeps
      obtain ⟨t, hsteps, hempty⟩ := ih _ _ { s with base := s' } hkeeps hphase (hbreak'.trans hbreak)
        (hfired.running_eq.trans hr) hfired.activequeue_eq
        (fun x hx => hfired.owns x _ _ (howns x (List.mem_cons_of_mem _ hx))) mems
        (Nat.succ_injective hlen)
      have hen : s.Enabled (.fire mem) := by
        refine ⟨hphase, hbreak, ?_⟩
        rw [hq]
        exact List.cons_ne_nil _ _
      have hexec : s.exec (.fire mem) = some ([.called d.id d.data], { s with base := s' }) := by
        rw [exec, hfire]
        rfl
      have hall := Steps.cons hen hexec hsteps
      rw [hid, hdata] at hall
      exact ⟨t, hall, hempty⟩

/-- **A turn of the loop**, in which the callbacks leave the timers alone. As long as there was memory
and the worker is not stopped, the turn calls every timer that is to be called by now, each once, in the
order of the deadlines, and leaves nothing active. -/
theorem turn_calls {now : ℕ} (h : Steps (start now) ops ls s) (hmem : ∀ op ∈ ops, op.HasMemory)
    (hσ : Alarms.Run (Alarms.start now) ls σ) (time : ℕ) (hen : s.Enabled (.dispatch time))
    (hr : s.base.running) :
    ∃ calls : List (ℤ × ℕ), (calls.map Prod.fst).Nodup ∧
      (calls.Pairwise fun c c' => s.base.deadline c.1 ≤ s.base.deadline c'.1) ∧
      (∀ id a, σ.alarm id = some a → a.Ongoing → a.latest ≤ σ.now + time → (id, a.data) ∈ calls) ∧
      ∀ mems : List (MinHeap.Realloc ℕ), mems.length = calls.length →
        ∃ s', Steps s (.dispatch time :: mems.map .fire)
            (.wait time :: calls.map fun c => .called c.1 c.2) s' ∧
          s'.base.evBase.activequeue = [] := by
  obtain ⟨τ, hrun, hkeeps⟩ := steps_keeps h True _ (keeps_start True now)
  cases hrun.unique hσ
  obtain ⟨hphase, hbreak, hq⟩ := id hen
  obtain ⟨b, l, hb, hkeeps', hexp⟩ := Base.dispatch_spec hkeeps.base time
  have howner : ∀ e ∈ l, ∃ c : ℤ × ℕ, s.base.Owns e c.1 c.2 := by
    intro e he
    obtain ⟨ev, hev, -⟩ := (hexp.mem_iff e).mp he
    obtain ⟨d, hd, hde⟩ := hkeeps.base.owned.of_event e ev hev
    exact ⟨(d.id, d.data), _, d, hd, hde, rfl, rfl⟩
  choose! f hf using howner
  refine ⟨l.map f, ?_, ?_, ?_, ?_⟩
  · rw [List.map_map]
    refine hexp.nodup.map_on fun x hx y hy hxy => ?_
    have hid : (f y).1 = (f x).1 := hxy.symm
    exact (hf x hx).event_unique hkeeps.base.owned (hid ▸ hf y hy)
  · rw [List.pairwise_map]
    refine hexp.sorted.imp_of_mem fun {x y} hx hy hle => ?_
    obtain ⟨ev, hev, -⟩ := (hexp.mem_iff x).mp hx
    obtain ⟨ev', hev', -⟩ := (hexp.mem_iff y).mp hy
    rw [EventBase.key_eq hev, EventBase.key_eq hev'] at hle
    rw [hkeeps.base.deadline_eq (hf x hx) hev, hkeeps.base.deadline_eq (hf y hy) hev']
    exact hle
  · intro id a ha hongoing hlatest
    obtain ⟨w, hw⟩ := Option.ne_none_iff_exists'.mp fun hT : s.base.timer id = none =>
      Option.some_ne_none a (ha.symm.trans (hkeeps.base.alarm_none id hT))
    obtain ⟨d, ev, hd, rfl, hev, -⟩ := hkeeps.base.owned.of_timer id w hw
    obtain ⟨_, ha', hsched⟩ := hkeeps.base.scheduled w d ev hd hev
    cases ha.symm.trans ha'
    obtain ⟨hon, hle⟩ := hsched.latest ⟨⟨trivial, hmem⟩, hbreak⟩ hongoing
    have hpending : ev.onTimeout := by
      refine hon.resolve_right fun hactive => ?_
      have hin := (hkeeps.base.sound.mem_active d.ev).mpr ⟨ev, hev, hactive⟩
      rw [hq] at hin
      cases hin
    have hin : d.ev ∈ l := by
      refine (hexp.mem_iff d.ev).mpr ⟨ev, hev, hpending, hle.trans (hlatest.trans_eq ?_)⟩
      exact congrArg (· + time) hkeeps.base.now_eq
    refine List.mem_map.mpr ⟨d.ev, hin, ?_⟩
    obtain ⟨w', d', hd', hde, hid, hdata⟩ := hf d.ev hin
    cases hkeeps.base.owned.wtd_unique hd hd' hde
    cases hd.symm.trans hd'
    rw [← hsched.data_eq]
    exact Prod.ext hid.symm hdata.symm
  · intro mems hlen
    rw [List.length_map] at hlen
    obtain ⟨s', hsteps, hempty⟩ := processActive l _ _ { s with base := { s.base with evBase := b } }
      hkeeps' hphase (hexp.eventBreak_eq.trans hbreak) hr
      (hexp.activequeue_eq.trans (by rw [hq, List.nil_append])) hf mems hlen
    have hexec : s.exec (.dispatch time) =
        some ([.wait time], { s with base := { s.base with evBase := b } }) := by
      rw [exec, hb]
      rfl
    refine ⟨s', ?_, hempty⟩
    rw [List.map_map]
    exact Steps.cons hen hexec hsteps

/-- The same run, and the turn in which the timer is due: it is called. -/
theorem turn_calls_added : ∃ s, Steps (start 0)
      [.addTimer memory (some 3) (some 4) 7 5 0 42, .enter] [.added 7 5000 5000 42] s ∧
    ∃ calls : List (ℤ × ℕ), (calls.map Prod.fst).Nodup ∧ (7, 42) ∈ calls ∧
      ∀ mems : List (MinHeap.Realloc ℕ), mems.length = calls.length →
        ∃ s', Steps s (.dispatch 5000 :: mems.map .fire)
          (.wait 5000 :: calls.map fun c => .called c.1 c.2) s' := by
  obtain ⟨s, h, hen, hr⟩ := steps_addTimer_enter
  have hmem : ¬ memory.Fails := by
    rintro ⟨p, a, ⟨⟩⟩
  obtain ⟨calls, hnodup, -, hcalls, hall⟩ := turn_calls h (by simpa [Op.HasMemory] using hmem)
    (.single (.added 5000 5000 42 rfl)) 5000 hen hr
  refine ⟨s, h, calls, hnodup, ?_, fun mems hlen => ?_⟩
  · exact hcalls 7 _ (Alarms.alarm_set_self _ _ _) (.inl rfl) le_rfl
  · obtain ⟨s', hsteps, -⟩ := hall mems hlen
    exact ⟨s', hsteps⟩

end Loop

end CocInside.Worker
