import CocInside.Lib.Alarms
import CocInside.LibEvent.EventBase
import Mathlib.Data.List.AList

/-!
# The timers of a worker

A worker runs an event loop, and its callbacks add and delete timers. A timer has two objects of its
own, a `WorkerTimerData` and an event, each of which has the address of the other. What is done to a
freed object has no result.

* `Base.addTimer`, `Base.delTimer`, `Base.onTimer`: the operations.
* `Owned`: timers, objects and events are one to one.
* `Scheduled`: what the event of a timer is set to, against the alarm that was asked for.
* `Base.Keeps`: the invariant, and one theorem for each operation that says what it does to the alarms.

Left out are the descriptor callbacks of the workers built on this one. A pointer given to a callback
is a number.

Source: `CocTest/Classes/Worker/Base.cpp`.
-/

namespace CocInside.Worker

open CocInside.Lib CocInside.LibEvent

/-- Source: `CocTest/Classes/Worker/Base.h`, `WorkerTimerData`. -/
structure WorkerTimerData where
  ev : ℕ
  nextInt : UInt32
  id : ℤ
  data : ℕ

/-- With the memory of the `WorkerTimerData`. Source: `CocTest/Classes/Worker/Base.h`, `Base`. -/
structure Base where
  evBase : EventBase
  timers : AList fun _ : ℤ => ℕ
  wtds : ℕ → Option WorkerTimerData
  running : Bool

/-- `{interval / 1000, (interval % 1000) * 1000}`. Source: `CocTest/Classes/Worker/Base.cpp`,
`Base::addTimer`. -/
def timeval (interval : UInt32) : ℕ :=
  (interval / 1000).toNat * 1000000 + (interval % 1000 * 1000).toNat

namespace Base

/-- `_timers.find(id)`. Source: `CocTest/Classes/Worker/Base.cpp`, `Base::addTimer`,
`Base::delTimer`. -/
def timer (s : Base) (id : ℤ) : Option ℕ := s.timers.lookup id

/-! ## The operations -/

/-- A timer that is new: `event_new`, `_timers[id] = wtd` and `event_add`. Source:
`CocTest/Classes/Worker/Base.cpp`, `Base::addTimer`. -/
def create (mem : MinHeap.Realloc ℕ) (s : Base) (w e : ℕ) (persist : Bool) (nextInt : UInt32) (id : ℤ)
    (data : ℕ) (delay : UInt32) : Option Base := do
  let b ← s.evBase.eventNew e persist w
  let s := { s with
    timers := s.timers.insert id w
    wtds := Function.update s.wtds w (some ⟨e, nextInt, id, data⟩) }
  let b ← b.eventAddInternal mem e (timeval delay) false
  some { s with evBase := b }

/-- `w` is what `new` gives, `e` what `malloc` gives for the event. Source:
`CocTest/Classes/Worker/Base.cpp`, `Base::addTimer`. -/
def addTimer (mem : MinHeap.Realloc ℕ) (w e : Option ℕ) (s : Base) (id : ℤ)
    (interval firstInterval : UInt32) (data : ℕ) : Option (Bool × Base) :=
  if (s.timer id).isSome then some (false, s)
  else
    match w with
    | none => some (false, s)
    | some w =>
        if firstInterval ≠ 0 then
          match e with
          | none => some (false, s)
          | some e => (s.create mem w e false interval id data firstInterval).map fun s => (true, s)
        else
          match e with
          -- The check is of `wtd`, not of `wtd->ev`: `event_add` looks into a null pointer.
          | none => none
          | some e => (s.create mem w e true 0 id data interval).map fun s => (true, s)

/-- `event_del`, `event_free` and `delete`. Source: `CocTest/Classes/Worker/Base.cpp`,
`Base::delTimer`. -/
def destroy (s : Base) (w : ℕ) : Option Base := do
  let d ← s.wtds w
  let b ← s.evBase.eventDelInternal d.ev
  let b ← b.eventFree d.ev
  some { s with evBase := b, wtds := Function.update s.wtds w none }

/-- Source: `CocTest/Classes/Worker/Base.cpp`, `Base::delTimer`. -/
def delTimer (s : Base) (id : ℤ) : Option (Bool × Base) :=
  match s.timer id with
  | none => some (false, s)
  | some w => (s.destroy w).map fun s => (true, { s with timers := s.timers.erase id })

/-- The first call is over: the timer is set up again, with its interval. Source:
`CocTest/Classes/Worker/Base.cpp`, `Base::_onTimer`. -/
def restart (mem : MinHeap.Realloc ℕ) (s : Base) (w : ℕ) (d : WorkerTimerData) : Option Base := do
  let s := { s with wtds := Function.update s.wtds w (some { d with nextInt := 0 }) }
  let b ← s.evBase.eventAssign d.ev true w
  let b ← b.eventAddInternal mem d.ev (timeval d.nextInt) false
  some { s with evBase := b }

/-- With the call of `onTimer` it makes, if any. Source: `CocTest/Classes/Worker/Base.cpp`,
`Base::_onTimer`. -/
def onTimer (mem : MinHeap.Realloc ℕ) (s : Base) (w : ℕ) : Option (Option (ℤ × ℕ) × Base) := do
  let d ← s.wtds w
  if s.running then
    let s ← if d.nextInt ≠ 0 then s.restart mem w d else some s
    let d ← s.wtds w
    some (some (d.id, d.data), s)
  else some (none, { s with evBase := { s.evBase with eventBreak := true } })

/-- The first active event is processed. Source: `event/event.c`,
`event_process_active_single_queue`, with `CocTest/Classes/Worker/Base.cpp`, `Base::_onTimer`. -/
def fire (mem : MinHeap.Realloc ℕ) (s : Base) : Option (Option (ℤ × ℕ) × Base) := do
  let r ← s.evBase.processFirst mem
  { s with evBase := r.2 }.onTimer mem r.1

/-- One turn of `event_base_loop` up to the processing: the wait, and `timeout_process`. Source:
`event/event.c`, `event_base_loop`. -/
def dispatch (s : Base) (time : ℕ) : Option Base := do
  let b ← { s.evBase with now := s.evBase.now + time }.timeoutProcess
  some { s with evBase := b }

/-- The end of `loop`. Source: `CocTest/Classes/Worker/Base.cpp`, `Base::loop`. -/
def clear (s : Base) : Option Base := do
  let s ← s.timers.entries.foldlM (fun s p => s.destroy p.2) s
  some { s with timers := ∅ }

end Base

/-! ## Timers and their objects -/

/-- Timers, objects and events are one to one. -/
structure Owned (timer : ℤ → Option ℕ) (wtds : ℕ → Option WorkerTimerData)
    (events : ℕ → Option Event) : Prop where
  of_timer : ∀ id w, timer id = some w →
    ∃ d ev, wtds w = some d ∧ d.id = id ∧ events d.ev = some ev ∧ ev.evArg = w
  of_wtd : ∀ w d, wtds w = some d → timer d.id = some w
  of_event : ∀ e ev, events e = some ev → ∃ d, wtds ev.evArg = some d ∧ d.ev = e

variable {timer : ℤ → Option ℕ} {wtds : ℕ → Option WorkerTimerData} {events : ℕ → Option Event}
  {id : ℤ} {w : ℕ} {d : WorkerTimerData} {ev : Event}

namespace Owned

/-- The event of an object has the object's address. -/
lemma event_of_wtd (h : Owned timer wtds events) (hd : wtds w = some d) :
    ∃ ev, events d.ev = some ev ∧ ev.evArg = w := by
  obtain ⟨d', ev, hd', -, hev, harg⟩ := h.of_timer d.id w (h.of_wtd w d hd)
  cases hd.symm.trans hd'
  exact ⟨ev, hev, harg⟩

/-- Two objects do not share an event. -/
lemma wtd_unique (h : Owned timer wtds events) {w' : ℕ} {d' : WorkerTimerData}
    (hd : wtds w = some d) (hd' : wtds w' = some d') (heq : d'.ev = d.ev) : w' = w := by
  obtain ⟨ev, hev, rfl⟩ := h.event_of_wtd hd
  obtain ⟨ev', hev', rfl⟩ := h.event_of_wtd hd'
  rw [heq, hev] at hev'
  cases hev'
  rfl

/-- A new timer, with objects that were free. -/
lemma insert (h : Owned timer wtds events) (hw : wtds w = none) (he : events d.ev = none)
    (hT : timer d.id = none) (harg : ev.evArg = w) :
    Owned (Function.update timer d.id (some w)) (Function.update wtds w (some d))
      (Function.update events d.ev (some ev)) := by
  have hout : ∀ {w' d'}, wtds w' = some d' → w' ≠ w ∧ d'.id ≠ d.id ∧ d'.ev ≠ d.ev := by
    intro w' d' hd'
    refine ⟨?_, ?_, ?_⟩
    · rintro rfl
      rw [hw] at hd'
      cases hd'
    · intro hid
      have := h.of_wtd w' d' hd'
      rw [hid, hT] at this
      cases this
    · intro hev
      obtain ⟨ev', hev', -⟩ := h.event_of_wtd hd'
      rw [hev, he] at hev'
      cases hev'
  refine ⟨?_, ?_, ?_⟩
  · intro id' w' hid'
    by_cases hid : id' = d.id
    · subst hid
      rw [Function.update_self] at hid'
      cases hid'
      exact ⟨d, ev, Function.update_self _ _ _, rfl, Function.update_self _ _ _, harg⟩
    · rw [Function.update_of_ne hid] at hid'
      obtain ⟨d', ev', hd', hdid, hev', harg'⟩ := h.of_timer id' w' hid'
      obtain ⟨hw', -, hev⟩ := hout hd'
      refine ⟨d', ev', ?_, hdid, ?_, harg'⟩
      · rw [Function.update_of_ne hw', hd']
      · rw [Function.update_of_ne hev, hev']
  · intro w' d' hd'
    by_cases hw' : w' = w
    · subst hw'
      rw [Function.update_self] at hd'
      cases hd'
      exact Function.update_self _ _ _
    · rw [Function.update_of_ne hw'] at hd'
      rw [Function.update_of_ne (hout hd').2.1]
      exact h.of_wtd w' d' hd'
  · intro e' ev' hev'
    by_cases he' : e' = d.ev
    · subst he'
      rw [Function.update_self] at hev'
      cases hev'
      rw [harg]
      exact ⟨d, Function.update_self _ _ _, rfl⟩
    · rw [Function.update_of_ne he'] at hev'
      obtain ⟨d', hd', hde⟩ := h.of_event e' ev' hev'
      exact ⟨d', by rw [Function.update_of_ne (hout hd').1, hd'], hde⟩

/-- A timer is gone, and its objects are. -/
lemma remove (h : Owned timer wtds events) (hd : wtds w = some d) :
    Owned (Function.update timer d.id none) (Function.update wtds w none)
      (Function.update events d.ev none) := by
  refine ⟨?_, ?_, ?_⟩
  · intro id' w' hid'
    by_cases hid : id' = d.id
    · subst hid
      rw [Function.update_self] at hid'
      cases hid'
    · rw [Function.update_of_ne hid] at hid'
      obtain ⟨d', ev', hd', hdid, hev', harg'⟩ := h.of_timer id' w' hid'
      have hw' : w' ≠ w := by
        rintro rfl
        cases hd.symm.trans hd'
        exact hid hdid.symm
      refine ⟨d', ev', ?_, hdid, ?_, harg'⟩
      · rw [Function.update_of_ne hw', hd']
      · rw [Function.update_of_ne (fun heq => hw' (h.wtd_unique hd hd' heq)), hev']
  · intro w' d' hd'
    by_cases hw' : w' = w
    · subst hw'
      rw [Function.update_self] at hd'
      cases hd'
    · rw [Function.update_of_ne hw'] at hd'
      have hT := h.of_wtd w' d' hd'
      have hid : d'.id ≠ d.id := by
        intro heq
        rw [heq, h.of_wtd w d hd] at hT
        cases hT
        exact hw' rfl
      rw [Function.update_of_ne hid, hT]
  · intro e' ev' hev'
    by_cases he' : e' = d.ev
    · subst he'
      rw [Function.update_self] at hev'
      cases hev'
    · rw [Function.update_of_ne he'] at hev'
      obtain ⟨d', hd', hde⟩ := h.of_event e' ev' hev'
      have hw' : ev'.evArg ≠ w := by
        intro heq
        rw [heq] at hd'
        cases hd.symm.trans hd'
        exact he' hde.symm
      exact ⟨d', by rw [Function.update_of_ne hw', hd'], hde⟩

/-- The objects of a timer are changed, but not what they are tied by. -/
lemma change (h : Owned timer wtds events) (hd : wtds w = some d) {d' : WorkerTimerData}
    (hid : d'.id = d.id) (he : d'.ev = d.ev) (harg : ev.evArg = w) :
    Owned timer (Function.update wtds w (some d')) (Function.update events d.ev (some ev)) := by
  refine ⟨?_, ?_, ?_⟩
  · intro id'' w'' hid''
    obtain ⟨d'', ev'', hd'', hdid, hev'', harg''⟩ := h.of_timer id'' w'' hid''
    by_cases hw : w'' = w
    · subst hw
      cases hd.symm.trans hd''
      refine ⟨d', ev, Function.update_self _ _ _, hid.trans hdid, ?_, harg⟩
      rw [he, Function.update_self]
    · refine ⟨d'', ev'', ?_, hdid, ?_, harg''⟩
      · rw [Function.update_of_ne hw, hd'']
      · rw [Function.update_of_ne (fun heq => hw (h.wtd_unique hd hd'' heq)), hev'']
  · intro w'' d'' hd''
    by_cases hw : w'' = w
    · subst hw
      rw [Function.update_self] at hd''
      cases hd''
      rw [hid]
      exact h.of_wtd w'' d hd
    · rw [Function.update_of_ne hw] at hd''
      exact h.of_wtd w'' d'' hd''
  · intro e'' ev'' hev''
    by_cases he'' : e'' = d.ev
    · subst he''
      rw [Function.update_self] at hev''
      cases hev''
      rw [harg]
      exact ⟨d', Function.update_self _ _ _, he⟩
    · rw [Function.update_of_ne he''] at hev''
      obtain ⟨d'', hd'', hde⟩ := h.of_event e'' ev'' hev''
      have hw : ev''.evArg ≠ w := by
        intro heq
        rw [heq] at hd''
        cases hd.symm.trans hd''
        exact he'' hde.symm
      exact ⟨d'', by rw [Function.update_of_ne hw, hd''], hde⟩

end Owned

/-! ## Timers and the alarms that were asked for -/

/-- What the event of a timer is set to. As long as there is memory and the worker is not stopped, it
is set for the next call, if there is one. -/
structure Scheduled (live : Prop) (a : Alarm ℕ) (d : WorkerTimerData) (ev : Event) : Prop where
  data_eq : d.data = a.data
  due : ev.onTimeout ∨ ev.onActive → a.Ongoing ∧ a.due ≤ ev.evTimeout
  of_persist : ev.persist → d.nextInt = 0 ∧ (ev.evIoTimeout ≠ 0 → ev.evIoTimeout = a.interval)
  of_not_persist : ev.persist = false → a.interval = timeval d.nextInt
  latest : live → a.Ongoing → (ev.onTimeout ∨ ev.onActive) ∧ ev.evTimeout ≤ a.latest
  repeats : live → ev.persist → ev.evIoTimeout = a.interval

/-- An interval is in milliseconds, the time of the loop in microseconds. -/
lemma timeval_eq (interval : UInt32) : timeval interval = interval.toNat * 1000 := by
  have h : (interval % 1000 * 1000).toNat = interval.toNat % 1000 * 1000 := by
    rw [UInt32.toNat_mul, UInt32.toNat_mod]
    show interval.toNat % 1000 * 1000 % 2 ^ 32 = _
    omega
  rw [timeval, h, UInt32.toNat_div]
  show interval.toNat / 1000 * 1000000 + interval.toNat % 1000 * 1000 = _
  omega

/-- Only the interval zero takes no time. -/
lemma timeval_eq_zero {interval : UInt32} : timeval interval = 0 ↔ interval = 0 := by
  rw [timeval_eq, Nat.mul_eq_zero, or_iff_left (by decide : ¬ 1000 = 0), ← UInt32.toNat_inj]
  rfl

/-- A stronger condition for exact deadlines keeps the schedule. -/
lemma Scheduled.mono {live live' : Prop} {a : Alarm ℕ} (h : Scheduled live a d ev)
    (himp : live' → live) : Scheduled live' a d ev :=
  ⟨h.data_eq, h.due, h.of_persist, h.of_not_persist, fun hl => h.latest (himp hl),
    fun hl => h.repeats (himp hl)⟩

/-- A call that was made, of a timer that may have been called before. -/
lemma Scheduled.call {live : Prop} {mem : MinHeap.Realloc ℕ} {a : Alarm ℕ} {now timeout : ℕ}
    {again : Bool} (h : Scheduled live a d ev) (hagain : EventBase.Again mem now ev again timeout)
    (hnext : d.nextInt = 0) (ha : a.due ≤ ev.evTimeout) :
    Scheduled (live ∧ ¬ mem.Fails) (a.call now) d
      { ev with onActive := false, onTimeout := again, evTimeout := timeout } := by
  refine ⟨h.data_eq, ?_, h.of_persist, h.of_not_persist, ?_, fun hl => h.repeats hl.1⟩
  · intro hon
    obtain ⟨hpersist, hio, hle, -⟩ := hagain.of_again (by simpa using hon)
    have heq := (h.of_persist hpersist).2 hio
    refine ⟨.inr (heq ▸ hio), ?_⟩
    rw [Alarm.due_call]
    show a.due + a.interval ≤ timeout
    omega
  · rintro ⟨hl, henough⟩ hongoing
    have hinterval : a.interval ≠ 0 := hongoing.resolve_left (Nat.succ_ne_zero _)
    have hpersist : ev.persist = true := by
      by_contra hnot
      rw [Bool.not_eq_true] at hnot
      rw [h.of_not_persist hnot, hnext] at hinterval
      exact hinterval rfl
    have hio := h.repeats hl hpersist
    cases again with
    | false => exact absurd (hagain.of_not rfl hpersist (hio ▸ hinterval)) henough
    | true =>
        refine ⟨.inl rfl, ?_⟩
        rw [Alarm.latest_call, ← hio]
        exact (hagain.of_again rfl).2.2.2

/-- The worker is stopped: the event may be pending again, but its timer was not called. -/
lemma Scheduled.skip {live : Prop} {mem : MinHeap.Realloc ℕ} {a : Alarm ℕ} {now timeout : ℕ}
    {again : Bool} (h : Scheduled live a d ev) (hagain : EventBase.Again mem now ev again timeout)
    (hactive : ev.onActive) :
    Scheduled False a d { ev with onActive := false, onTimeout := again, evTimeout := timeout } := by
  refine ⟨h.data_eq, ?_, h.of_persist, h.of_not_persist, False.elim, False.elim⟩
  intro hon
  obtain ⟨-, -, hle, -⟩ := hagain.of_again (by simpa using hon)
  obtain ⟨hongoing, hdue⟩ := h.due (.inr hactive)
  refine ⟨hongoing, ?_⟩
  show a.due ≤ timeout
  omega

namespace Base

/-- The invariant, for the timers `timer` that are not yet destroyed. -/
structure Keeps (live : Prop) (σ : Alarms ℤ ℕ) (timer : ℤ → Option ℕ) (s : Base) : Prop where
  sound : s.evBase.Sound
  owned : Owned timer s.wtds s.evBase.events
  now_eq : σ.now = s.evBase.now
  alarm_none : ∀ id, timer id = none → σ.alarm id = none
  scheduled : ∀ w d ev, s.wtds w = some d → s.evBase.events d.ev = some ev →
    ∃ a, σ.alarm d.id = some a ∧ Scheduled live a d ev

variable {live : Prop} {σ : Alarms ℤ ℕ} {s : Base} {mem : MinHeap.Realloc ℕ} {q : List ℕ}
  {b : EventBase}

/-- A stronger condition for exact deadlines keeps the invariant. -/
lemma Keeps.mono {live' : Prop} (h : Keeps live σ timer s) (himp : live' → live) :
    Keeps live' σ timer s := by
  refine ⟨h.sound, h.owned, h.now_eq, h.alarm_none, fun w d ev hd hev => ?_⟩
  obtain ⟨a, ha, hs⟩ := h.scheduled w d ev hd hev
  exact ⟨a, ha, hs.mono himp⟩

/-- The other objects of a timer are as they were. -/
lemma Keeps.other (h : Keeps live σ timer s) (hd : s.wtds w = some d) {o : Option Event}
    (hc : EventBase.Changes s.evBase d.ev o q b) {w' : ℕ} {d' : WorkerTimerData} (hw : w' ≠ w)
    (hd' : s.wtds w' = some d') : d'.id ≠ d.id ∧ b.events d'.ev = s.evBase.events d'.ev := by
  constructor
  · intro heq
    have hT := h.owned.of_wtd w' d' hd'
    rw [heq, h.owned.of_wtd w d hd] at hT
    cases hT
    exact hw rfl
  · rw [hc.events_eq, Function.update_of_ne fun heq => hw (h.owned.wtd_unique hd hd' heq)]

/-- One timer is changed, with its alarm. -/
lemma Keeps.change (h : Keeps live σ timer s) (hd : s.wtds w = some d) {d' : WorkerTimerData}
    {a : Alarm ℕ} {live' : Prop} (himp : live' → live) (hs : b.Sound)
    (hc : EventBase.Changes s.evBase d.ev (some ev) q b) (hid : d'.id = d.id) (he : d'.ev = d.ev)
    (harg : ev.evArg = w) (ha : Scheduled live' a d' ev) :
    Keeps live' (σ.set d.id (some a)) timer
      { s with evBase := b, wtds := Function.update s.wtds w (some d') } := by
  refine ⟨hs, ?_, h.now_eq.trans hc.now_eq.symm, ?_, ?_⟩
  · show Owned timer _ b.events
    rw [hc.events_eq]
    exact h.owned.change hd hid he harg
  · intro id hT
    have hne : id ≠ d.id := by
      rintro rfl
      rw [h.owned.of_wtd w d hd] at hT
      cases hT
    rw [Alarms.alarm_set_of_ne σ _ hne]
    exact h.alarm_none id hT
  · intro w'' d'' ev'' hd'' hev''
    by_cases hw : w'' = w
    · subst hw
      cases (Function.update_self _ _ _).symm.trans hd''
      rw [he, hc.self] at hev''
      cases hev''
      rw [hid]
      exact ⟨a, Alarms.alarm_set_self σ _ _, ha⟩
    · have hd₀ : s.wtds w'' = some d'' := (Function.update_of_ne hw _ _).symm.trans hd''
      obtain ⟨hne, hsame⟩ := h.other hd hc hw hd₀
      obtain ⟨a', ha', hs'⟩ := h.scheduled w'' d'' ev'' hd₀ (hsame.symm.trans hev'')
      exact ⟨a', (Alarms.alarm_set_of_ne σ _ hne).trans ha', hs'.mono himp⟩

/-- The event of a timer is changed. -/
lemma Keeps.change_event (h : Keeps live σ timer s) (hd : s.wtds w = some d) {a : Alarm ℕ}
    {live' : Prop} (himp : live' → live) (hs : b.Sound)
    (hc : EventBase.Changes s.evBase d.ev (some ev) q b) (harg : ev.evArg = w)
    (ha : Scheduled live' a d ev) :
    Keeps live' (σ.set d.id (some a)) timer { s with evBase := b } := by
  have h' := h.change hd himp hs hc rfl rfl harg ha
  rw [← hd, Function.update_eq_self] at h'
  exact h'

/-! ## Adding and deleting -/

/-- A new timer with new objects keeps the invariant, when its event is scheduled as the alarm asks.
-/
lemma Keeps.insert (h : Keeps live σ timer s) {a : Alarm ℕ} {live' : Prop} (himp : live' → live)
    (hT : timer d.id = none) (hw : s.wtds w = none) (he : s.evBase.events d.ev = none)
    (hs : b.Sound) (hc : EventBase.Changes s.evBase d.ev (some ev) q b) (harg : ev.evArg = w)
    (ha : Scheduled live' a d ev) (timers : AList fun _ : ℤ => ℕ) :
    Keeps live' (σ.set d.id (some a)) (Function.update timer d.id (some w))
      { s with evBase := b, timers := timers, wtds := Function.update s.wtds w (some d) } := by
  refine ⟨hs, ?_, h.now_eq.trans hc.now_eq.symm, ?_, ?_⟩
  · show Owned _ _ b.events
    rw [hc.events_eq]
    exact h.owned.insert hw he hT harg
  · intro id hid
    have hne : id ≠ d.id := by
      rintro rfl
      rw [Function.update_self] at hid
      cases hid
    rw [Function.update_of_ne hne] at hid
    rw [Alarms.alarm_set_of_ne σ _ hne]
    exact h.alarm_none id hid
  · intro w'' d'' ev'' hd'' hev''
    by_cases hw' : w'' = w
    · subst hw'
      cases (Function.update_self _ _ _).symm.trans hd''
      cases hc.self.symm.trans hev''
      exact ⟨a, Alarms.alarm_set_self σ _ _, ha⟩
    · have hd₀ : s.wtds w'' = some d'' := (Function.update_of_ne hw' _ _).symm.trans hd''
      have hne : d''.id ≠ d.id := by
        intro heq
        have hT' := h.owned.of_wtd w'' d'' hd₀
        rw [heq, hT] at hT'
        cases hT'
      have hne' : d''.ev ≠ d.ev := by
        intro heq
        obtain ⟨ev₀, hev₀, -⟩ := h.owned.event_of_wtd hd₀
        rw [heq, he] at hev₀
        cases hev₀
      have hev₀ : s.evBase.events d''.ev = some ev'' := by
        rw [← hev'']
        show _ = b.events d''.ev
        rw [hc.events_eq, Function.update_of_ne hne']
      obtain ⟨a', ha', hs'⟩ := h.scheduled w'' d'' ev'' hd₀ hev₀
      exact ⟨a', (Alarms.alarm_set_of_ne σ _ hne).trans ha', hs'.mono himp⟩

/-- Taking a timer away with its objects keeps the invariant. -/
lemma Keeps.remove (h : Keeps live σ timer s) (hd : s.wtds w = some d) (hs : b.Sound)
    (hc : EventBase.Changes s.evBase d.ev none q b) (timers : AList fun _ : ℤ => ℕ) :
    Keeps live (σ.set d.id none) (Function.update timer d.id none)
      { s with evBase := b, timers := timers, wtds := Function.update s.wtds w none } := by
  refine ⟨hs, ?_, h.now_eq.trans hc.now_eq.symm, ?_, ?_⟩
  · show Owned _ _ b.events
    rw [hc.events_eq]
    exact h.owned.remove hd
  · intro id hid
    by_cases hne : id = d.id
    · rw [hne, Alarms.alarm_set_self]
    · rw [Function.update_of_ne hne] at hid
      rw [Alarms.alarm_set_of_ne σ _ hne]
      exact h.alarm_none id hid
  · intro w'' d'' ev'' hd'' hev''
    by_cases hw : w'' = w
    · subst hw
      cases (Function.update_self _ _ _).symm.trans hd''
    · have hd₀ : s.wtds w'' = some d'' := (Function.update_of_ne hw _ _).symm.trans hd''
      obtain ⟨hne, hsame⟩ := h.other hd hc hw hd₀
      obtain ⟨a', ha', hs'⟩ := h.scheduled w'' d'' ev'' hd₀ (hsame.symm.trans hev'')
      exact ⟨a', (Alarms.alarm_set_of_ne σ _ hne).trans ha', hs'⟩

/-- The lookup after an insertion. -/
lemma timer_insert (s : Base) (id : ℤ) (w : ℕ) :
    (fun id' => (s.timers.insert id w).lookup id') = Function.update s.timer id (some w) := by
  funext id'
  by_cases hid : id' = id
  · rw [hid, AList.lookup_insert, Function.update_self]
  · rw [AList.lookup_insert_ne hid, Function.update_of_ne hid]
    rfl

/-- The lookup after an erasure. -/
lemma timer_erase (s : Base) (id : ℤ) :
    (fun id' => (s.timers.erase id).lookup id') = Function.update s.timer id none := by
  funext id'
  by_cases hid : id' = id
  · rw [hid, AList.lookup_erase, Function.update_self]
  · rw [AList.lookup_erase_ne hid, Function.update_of_ne hid]
    rfl

/-- A timer that was on no queue is set for its next call, if there was memory. -/
lemma scheduled_added {a : Alarm ℕ} {now delay : ℕ} {persist res : Bool} (added : Bool) (timeout : ℕ)
    (hdata : d.data = a.data) (hongoing : a.Ongoing) (hdue : a.due ≤ now + delay)
    (hlatest : now + delay ≤ a.latest) (hpersist : persist → d.nextInt = 0 ∧ a.interval = delay)
    (hfirst : persist = false → a.interval = timeval d.nextInt)
    (hfails : added = false → mem.Fails) :
    Scheduled (live ∧ ¬ mem.Fails) a d
      ⟨if added then now + delay else timeout, if added ∧ persist then delay else 0, persist, added,
        false, res, w⟩ := by
  cases added with
  | true =>
      refine ⟨hdata, fun _ => ⟨hongoing, hdue⟩, fun hp => ⟨(hpersist hp).1, fun _ => ?_⟩, hfirst,
        fun _ _ => ⟨.inl rfl, hlatest⟩, fun _ hp => ?_⟩
      · exact (if_pos ⟨rfl, hp⟩).trans (hpersist hp).2.symm
      · exact (if_pos ⟨rfl, hp⟩).trans (hpersist hp).2.symm
  | false =>
      refine ⟨hdata, ?_, fun hp => ⟨(hpersist hp).1, ?_⟩, hfirst, ?_, ?_⟩
      · exact fun hon => absurd hon (by simp)
      · exact fun hio => absurd rfl hio
      · exact fun hl => absurd (hfails rfl) hl.2
      · exact fun hl => absurd (hfails rfl) hl.2

/-- **A new timer**, with objects that were free. -/
theorem create_spec (h : Keeps live σ s.timer s) {e : ℕ} (data : ℕ)
    {nextInt delay interval : UInt32} {persist : Bool} (hT : s.timer id = none)
    (hw : s.wtds w = none) (he : s.evBase.events e = none)
    (hpersist : persist → nextInt = 0 ∧ interval = delay)
    (hfirst : persist = false → interval = nextInt) :
    ∃ s', s.create mem w e persist nextInt id data delay = some s' ∧
      Keeps (live ∧ ¬ mem.Fails)
        (σ.set id (some (Alarm.start data σ.now (timeval delay) (timeval interval)))) s'.timer s' ∧
      s'.running = s.running ∧ s'.evBase.activequeue = s.evBase.activequeue ∧
      s'.evBase.eventBreak = s.evBase.eventBreak := by
  obtain ⟨b₁, hb₁, hs₁, hc₁⟩ := EventBase.eventNew_spec h.sound he persist w
  obtain ⟨b, added, hb, hs, hc, hfails⟩ :=
    EventBase.eventAddInternal_spec_of_off hs₁ mem hc₁.self rfl rfl (timeval delay)
  have hc := hc₁.trans hc
  rw [hc₁.now_eq, ← h.now_eq] at hc
  refine ⟨{ s with
    evBase := b
    timers := s.timers.insert id w
    wtds := Function.update s.wtds w (some ⟨e, nextInt, id, data⟩) }, ?_, ?_, rfl,
      hc.activequeue_eq.trans hc₁.activequeue_eq, hc.eventBreak_eq⟩
  · rw [create, hb₁, Option.bind_eq_bind, Option.bind_some]
    simp only [hb, Option.bind_some]
  · show Keeps _ _ (fun id' => (s.timers.insert id w).lookup id') _
    rw [s.timer_insert]
    refine h.insert (d := ⟨e, nextInt, id, data⟩) And.left hT hw he hs hc rfl ?_ _
    refine scheduled_added added 0 rfl (.inl rfl) ?_ le_rfl ?_ ?_ hfails
    · show σ.now + timeval delay + 0 * _ ≤ σ.now + timeval delay
      omega
    · intro hp
      obtain ⟨hzero, rfl⟩ := hpersist hp
      exact ⟨hzero, rfl⟩
    · intro hp
      rw [hfirst hp]
      rfl

/-- **`event_del`, `event_free` and `delete`**. -/
theorem destroy_spec (h : Keeps live σ timer s) (hd : s.wtds w = some d) :
    ∃ s', s.destroy w = some s' ∧ Keeps live (σ.set d.id none) (Function.update timer d.id none) s' ∧
      s'.timers = s.timers ∧ s'.running = s.running ∧
      s'.evBase.eventBreak = s.evBase.eventBreak := by
  obtain ⟨ev, hev, -⟩ := h.owned.event_of_wtd hd
  obtain ⟨b₁, hb₁, hs₁, hc₁⟩ := EventBase.eventDelInternal_spec h.sound hev
  obtain ⟨b, hb, hs, hc⟩ := EventBase.eventFree_spec hs₁ hc₁.self
  have hc := hc₁.trans hc
  refine ⟨_, ?_, h.remove hd hs hc s.timers, rfl, rfl, hc.eventBreak_eq⟩
  simp only [destroy, hd, Option.bind_eq_bind, Option.bind_some, hb₁, hb]

/-- **`addTimer`**, with addresses that are free: it looks into a null pointer, or says no, or adds the
timer. -/
theorem addTimer_spec (h : Keeps live σ s.timer s) (mem : MinHeap.Realloc ℕ) {w e : Option ℕ}
    (hw : ∀ x ∈ w, s.wtds x = none) (he : ∀ x ∈ e, s.evBase.events x = none) (id : ℤ)
    (interval firstInterval : UInt32) (data : ℕ) :
    (s.timer id = none ∧ w.isSome ∧ e = none ∧ firstInterval = 0 ∧
        s.addTimer mem w e id interval firstInterval data = none) ∨
      (((s.timer id).isSome ∨ w = none ∨ e = none ∧ firstInterval ≠ 0) ∧
        s.addTimer mem w e id interval firstInterval data = some (false, s)) ∨
      ∃ s', s.addTimer mem w e id interval firstInterval data = some (true, s') ∧
        s.timer id = none ∧ e.isSome ∧
        Keeps (live ∧ ¬ mem.Fails) (σ.set id (some (Alarm.start data σ.now
          (timeval (if firstInterval ≠ 0 then firstInterval else interval)) (timeval interval))))
          s'.timer s' ∧ s'.running = s.running ∧
        s'.evBase.activequeue = s.evBase.activequeue ∧
        s'.evBase.eventBreak = s.evBase.eventBreak := by
  unfold addTimer
  cases hT : s.timer id with
  | some w₀ => exact .inr (.inl ⟨.inl rfl, rfl⟩)
  | none =>
      rw [if_neg (by simp)]
      cases w with
      | none => exact .inr (.inl ⟨.inr (.inl rfl), rfl⟩)
      | some w =>
          have hw := hw w rfl
          by_cases hfirst : firstInterval ≠ 0
          · simp only [if_pos hfirst]
            cases e with
            | none => exact .inr (.inl ⟨.inr (.inr ⟨rfl, hfirst⟩), rfl⟩)
            | some e =>
                obtain ⟨s', hs', hkeeps, hrest⟩ := create_spec h data hT hw (he e rfl)
                  (fun hp => absurd hp Bool.false_ne_true) (fun _ => rfl)
                exact .inr (.inr ⟨s', by simp only [hs', Option.map_some], trivial, rfl, hkeeps, hrest⟩)
          · simp only [if_neg hfirst]
            cases e with
            | none => exact .inl ⟨trivial, rfl, rfl, not_not.mp hfirst, rfl⟩
            | some e =>
                obtain ⟨s', hs', hkeeps, hrest⟩ := create_spec h data hT hw (he e rfl)
                  (fun _ => ⟨rfl, rfl⟩) (fun hp => absurd hp.symm Bool.false_ne_true)
                exact .inr (.inr ⟨s', by simp only [hs', Option.map_some], trivial, rfl, hkeeps, hrest⟩)

/-- **`delTimer`**. -/
theorem delTimer_spec (h : Keeps live σ s.timer s) (id : ℤ) :
    (s.timer id = none ∧ s.delTimer id = some (false, s)) ∨
      ∃ s' a, s.delTimer id = some (true, s') ∧ σ.alarm id = some a ∧
        Keeps live (σ.set id none) s'.timer s' ∧ s'.evBase.eventBreak = s.evBase.eventBreak := by
  rw [delTimer]
  cases hT : s.timer id with
  | none => exact .inl ⟨rfl, rfl⟩
  | some w =>
      obtain ⟨d, ev, hd, rfl, hev, -⟩ := h.owned.of_timer id w hT
      obtain ⟨a, ha, -⟩ := h.scheduled w d ev hd hev
      obtain ⟨s', hs', hkeeps, htimers, -, hbreak⟩ := destroy_spec h hd
      refine .inr ⟨{ s' with timers := s'.timers.erase d.id }, a, ?_, ha, ?_, hbreak⟩
      · simp only [hs', Option.map_some]
      · rw [← timer_erase, ← htimers] at hkeeps
        exact ⟨hkeeps.sound, hkeeps.owned, hkeeps.now_eq, hkeeps.alarm_none, hkeeps.scheduled⟩

/-! ## Calls -/

/-- The timer an event belongs to, and what its callback is called with. -/
def Owns (s : Base) (e : ℕ) (id : ℤ) (data : ℕ) : Prop :=
  ∃ w d, s.wtds w = some d ∧ d.ev = e ∧ d.id = id ∧ d.data = data

/-- A timer owns one event. -/
lemma Owns.event_unique {e e' data data' : ℕ} (howns : s.Owns e id data)
    (h : Owned s.timer s.wtds s.evBase.events) (howns' : s.Owns e' id data') : e = e' := by
  obtain ⟨w, d, hd, rfl, rfl, -⟩ := howns
  obtain ⟨w', d', hd', rfl, hid, -⟩ := howns'
  have hw := h.of_wtd w' d' hd'
  rw [hid, h.of_wtd w d hd] at hw
  cases hw
  cases hd.symm.trans hd'
  rfl

/-- **The first call** of a timer that is set up again for it. -/
theorem restart_spec (mem : MinHeap.Realloc ℕ) (h : Keeps live σ timer s) (hd : s.wtds w = some d)
    (hs : b.Sound) {ev₁ : Event}
    (hc : EventBase.Changes s.evBase d.ev (some ev₁) q b) (ht : ev₁.onTimeout = false)
    (hactive : ev₁.onActive = false) (hio : d.nextInt ≠ 0) {a : Alarm ℕ}
    (ha : Scheduled live a d ev) (hdue : a.due ≤ σ.now) (hpersist : ev.persist = false) :
    ∃ s', restart mem { s with evBase := b } w d = some s' ∧
      Keeps (live ∧ ¬ mem.Fails) (σ.set d.id (some (a.call σ.now))) timer s' ∧
      s'.timers = s.timers ∧ s'.running = s.running ∧ s'.evBase.activequeue = q ∧
      s'.evBase.eventBreak = s.evBase.eventBreak ∧
      s'.wtds = Function.update s.wtds w (some { d with nextInt := 0 }) := by
  obtain ⟨b₂, hb₂, hs₂, hc₂⟩ := EventBase.eventAssign_spec hs hc.self ht hactive true w
  obtain ⟨b₃, added, hb₃, hs₃, hc₃, hfails⟩ :=
    EventBase.eventAddInternal_spec_of_off hs₂ mem hc₂.self rfl rfl (timeval d.nextInt)
  have hall := (hc.trans hc₂).trans hc₃
  have hnow : b₂.now = σ.now := ((hc.trans hc₂).now_eq).trans h.now_eq.symm
  rw [hnow] at hall
  have hinterval : a.interval = timeval d.nextInt := ha.of_not_persist hpersist
  refine ⟨{ s with
    evBase := b₃
    wtds := Function.update s.wtds w (some { d with nextInt := 0 }) }, ?_, ?_, rfl, rfl, ?_,
      hall.eventBreak_eq, rfl⟩
  · rw [restart, Option.bind_eq_bind]
    simp only [hb₂, hb₃, Option.bind_some]
  · refine h.change hd And.left hs₃ hall rfl rfl rfl ?_
    refine scheduled_added added _ ha.data_eq (.inr ?_) ?_ ?_ ?_ ?_ hfails
    · show a.interval ≠ 0
      rw [hinterval, Ne, timeval_eq_zero]
      exact hio
    · rw [Alarm.due_call, hinterval]
      omega
    · rw [Alarm.latest_call, hinterval]
    · exact fun _ => ⟨rfl, hinterval⟩
    · rintro ⟨⟩
  · exact hall.activequeue_eq.trans ((hc₂.activequeue_eq).trans hc.activequeue_eq)

/-- The time the event of a timer is set to. -/
def deadline (s : Base) (id : ℤ) : ℕ :=
  (do let w ← s.timer id
      let d ← s.wtds w
      let ev ← s.evBase.events d.ev
      some ev.evTimeout).getD 0

/-- The deadline of a timer is the time its event is set to. -/
lemma Keeps.deadline_eq (h : Keeps live σ s.timer s) {e : ℕ} {data : ℕ} (howns : s.Owns e id data)
    (hev : s.evBase.events e = some ev) : s.deadline id = ev.evTimeout := by
  obtain ⟨w, d, hd, rfl, rfl, -⟩ := howns
  rw [deadline, h.owned.of_wtd w d hd, Option.bind_eq_bind, Option.bind_some, hd,
    Option.bind_eq_bind, Option.bind_some, hev]
  rfl

/-- Asking the loop to stop, or not to, keeps the invariant. -/
lemma Keeps.setBreak (h : Keeps live σ timer s) (eventBreak : Bool) :
    Keeps live σ timer { s with evBase := { s.evBase with eventBreak := eventBreak } } :=
  ⟨⟨h.sound.heap, h.sound.mem_live, h.sound.mem_active, h.sound.nodup, h.sound.apart, h.sound.due⟩,
    h.owned, h.now_eq, h.alarm_none, h.scheduled⟩

/-- What the processing of the first active event does: it is a call of its timer, or the end of the
loop if the worker is stopped. -/
structure Fired (mem : MinHeap.Realloc ℕ) (live : Prop) (σ : Alarms ℤ ℕ) (timer : ℤ → Option ℕ)
    (s : Base) (q : List ℕ) (d : WorkerTimerData) (r : Option (ℤ × ℕ)) (s' : Base) : Prop where
  timers_eq : s'.timers = s.timers
  running_eq : s'.running = s.running
  activequeue_eq : s'.evBase.activequeue = q
  owns : ∀ e id data, s.Owns e id data → s'.Owns e id data
  of_running : s.running → r = some (d.id, d.data) ∧
    s'.evBase.eventBreak = s.evBase.eventBreak ∧ ∃ a, σ.alarm d.id = some a ∧ a.data = d.data ∧
      a.Ongoing ∧ a.due ≤ σ.now ∧
      Keeps (live ∧ ¬ mem.Fails) (σ.set d.id (some (a.call σ.now))) timer s'
  of_stopped : s.running = false → r = none ∧ s'.evBase.eventBreak ∧ Keeps False σ timer s'

/-- In a stopped worker the callback only asks the loop to break. -/
lemma onTimer_of_stopped (hd : s.wtds w = some d) (hr : s.running = false) :
    s.onTimer mem w = some (none, { s with evBase := { s.evBase with eventBreak := true } }) := by
  rw [onTimer, hd, Option.bind_eq_bind, Option.bind_some, hr, if_neg Bool.false_ne_true]

/-- A timer that was set up for its interval is called, and nothing is changed. -/
lemma onTimer_of_nextInt_eq_zero (hd : s.wtds w = some d) (hr : s.running)
    (hnext : d.nextInt = 0) : s.onTimer mem w = some (some (d.id, d.data), s) := by
  rw [onTimer, hd, Option.bind_eq_bind, Option.bind_some, if_pos hr, if_neg (not_not.mpr hnext)]
  show (s.wtds w).bind _ = _
  rw [hd]
  rfl

/-- After the first call the timer is set up again, and called. -/
lemma onTimer_of_restart (hd : s.wtds w = some d) (hr : s.running) (hnext : d.nextInt ≠ 0)
    {s' : Base} {d' : WorkerTimerData} (hs' : s.restart mem w d = some s')
    (hd' : s'.wtds w = some d') : s.onTimer mem w = some (some (d'.id, d'.data), s') := by
  rw [onTimer, hd, Option.bind_eq_bind, Option.bind_some, if_pos hr, if_pos hnext, hs']
  show (s'.wtds w).bind _ = _
  rw [hd']
  rfl

/-- **The first active event is processed.** -/
theorem fire_spec (h : Keeps live σ timer s) {e : ℕ} (mem : MinHeap.Realloc ℕ)
    (hq : s.evBase.activequeue = e :: q) :
    ∃ w d r s', s.wtds w = some d ∧ d.ev = e ∧ s.fire mem = some (r, s') ∧
      Fired mem live σ timer s q d r s' := by
  have hmem : e ∈ s.evBase.activequeue := by
    rw [hq]
    exact List.mem_cons_self
  obtain ⟨ev, hev, hactive⟩ := (h.sound.mem_active e).mp hmem
  obtain ⟨d, hd, rfl⟩ := h.owned.of_event e ev hev
  obtain ⟨a, hσ, ha⟩ := h.scheduled _ d ev hd hev
  obtain ⟨hongoing, hdue⟩ := ha.due (.inr hactive)
  have hnow : a.due ≤ σ.now := by
    rw [h.now_eq]
    exact hdue.trans (h.sound.due _ ev hev hactive).2
  obtain ⟨b, timeout, again, hb, hs, hc, hagain⟩ := EventBase.processFirst_spec h.sound mem hq hev
  rw [← h.now_eq] at hagain
  have hfire : ∀ {x}, onTimer mem { s with evBase := b } ev.evArg = some x → s.fire mem = some x := by
    intro x hx
    rw [fire, hb]
    exact hx
  cases hr : s.running with
  | false =>
      refine ⟨_, d, none, _, hd, rfl, hfire (onTimer_of_stopped hd hr), rfl, rfl, hc.activequeue_eq,
        fun _ _ _ howns => howns, ?_, fun _ => ⟨rfl, rfl, ?_⟩⟩
      · rw [hr]
        rintro ⟨⟩
      · have hkeeps := h.change_event hd False.elim hs hc rfl (ha.skip hagain hactive)
        rw [σ.set_eq_self hσ] at hkeeps
        exact hkeeps.setBreak true
  | true =>
      by_cases hnext : d.nextInt = 0
      · refine ⟨_, d, _, _, hd, rfl, hfire (onTimer_of_nextInt_eq_zero hd hr hnext), rfl, rfl,
          hc.activequeue_eq, fun _ _ _ howns => howns, fun _ => ⟨rfl, hc.eventBreak_eq, a, hσ,
          ha.data_eq.symm, hongoing, hnow, ?_⟩, ?_⟩
        · exact h.change_event hd And.left hs hc rfl (ha.call hagain hnext hdue)
        · rw [hr]
          rintro ⟨⟩
      · have hpersist : ev.persist = false := by
          by_contra hp
          exact hnext (ha.of_persist (by simpa using hp)).1
        have hoff : again = false := by
          by_contra hon
          rw [(hagain.of_again (by simpa using hon)).1] at hpersist
          cases hpersist
        subst hoff
        obtain ⟨s', hs', hkeeps, htimers, hrunning, hqueue, hbreak, hwtds⟩ :=
          restart_spec mem h hd hs hc rfl rfl hnext ha hnow hpersist
        have hd' : s'.wtds ev.evArg = some { d with nextInt := 0 } := by
          rw [hwtds, Function.update_self]
        have honTimer := onTimer_of_restart (s := { s with evBase := b }) hd hr hnext hs' hd'
        refine ⟨_, d, _, s', hd, rfl, hfire honTimer, htimers,
          hrunning, hqueue, ?_, fun _ => ⟨rfl, hbreak, a, hσ, ha.data_eq.symm, hongoing, hnow, hkeeps⟩,
          ?_⟩
        · rintro x id data ⟨w', d', hw', hrest⟩
          by_cases hne : w' = ev.evArg
          · subst hne
            cases hd.symm.trans hw'
            exact ⟨_, _, hd', hrest⟩
          · refine ⟨w', d', ?_, hrest⟩
            rw [hwtds, Function.update_of_ne hne, hw']
        · rw [hr]
          rintro ⟨⟩

/-! ## Turns of the loop -/

/-- Time passes for the events and for the alarms. -/
lemma Keeps.wait (h : Keeps live σ timer s) {time : ℕ} :
    Keeps live { σ with now := σ.now + time } timer
      { s with evBase := { s.evBase with now := s.evBase.now + time } } :=
  ⟨h.sound.wait time, h.owned, congrArg (· + time) h.now_eq, h.alarm_none, h.scheduled⟩

/-- **The wait of a turn, and `timeout_process`**: no timer is called yet. -/
theorem dispatch_spec (h : Keeps live σ timer s) (time : ℕ) :
    ∃ b l, s.dispatch time = some { s with evBase := b } ∧
      Keeps live { σ with now := σ.now + time } timer { s with evBase := b } ∧
      EventBase.Expired { s.evBase with now := s.evBase.now + time } l b := by
  obtain ⟨b, l, hb, hs, hexp⟩ := EventBase.timeoutProcess_spec (h.sound.wait time)
  -- What becomes of an event is of no account for the alarms.
  have hevents : ∀ e ev', b.events e = some ev' → ∃ ev, s.evBase.events e = some ev ∧
      ev'.evArg = ev.evArg ∧ ∀ a d, Scheduled live a d ev → Scheduled live a d ev' := by
    intro e ev' hev'
    by_cases hmem : e ∈ l
    · obtain ⟨ev, hev, hon, -⟩ := (hexp.mem_iff e).mp hmem
      cases (hexp.active e hmem ev hev).symm.trans hev'
      refine ⟨ev, hev, rfl, fun a d hs => ?_⟩
      exact ⟨hs.data_eq, fun _ => hs.due (.inl hon), hs.of_persist, hs.of_not_persist,
        fun hl ho => ⟨.inr rfl, (hs.latest hl ho).2⟩, hs.repeats⟩
    · exact ⟨ev', (hexp.other e hmem).symm.trans hev', rfl, fun _ _ hs => hs⟩
  have hback : ∀ e ev, s.evBase.events e = some ev →
      ∃ ev', b.events e = some ev' ∧ ev'.evArg = ev.evArg := by
    intro e ev hev
    by_cases hmem : e ∈ l
    · exact ⟨_, hexp.active e hmem ev hev, rfl⟩
    · exact ⟨ev, (hexp.other e hmem).trans hev, rfl⟩
  refine ⟨b, l, ?_, ⟨hs, ⟨?_, h.owned.of_wtd, ?_⟩, ?_, h.alarm_none, ?_⟩, hexp⟩
  · rw [dispatch, hb]
    rfl
  · intro id w hid
    obtain ⟨d, ev, hd, hdid, hev, harg⟩ := h.owned.of_timer id w hid
    obtain ⟨ev', hev', harg'⟩ := hback d.ev ev hev
    exact ⟨d, ev', hd, hdid, hev', harg'.trans harg⟩
  · intro e ev' hev'
    obtain ⟨ev, hev, harg, -⟩ := hevents e ev' hev'
    rw [harg]
    exact h.owned.of_event e ev hev
  · show σ.now + time = b.now
    rw [hexp.now_eq, h.now_eq]
  · intro w d ev' hd hev'
    obtain ⟨ev, hev, -, hkeep⟩ := hevents d.ev ev' hev'
    obtain ⟨a, ha, hs'⟩ := h.scheduled w d ev hd hev
    exact ⟨a, ha, hkeep a d hs'⟩

/-! ## The end -/

/-- The timers of a list are destroyed one by one. -/
lemma destroyAll_spec (l : List (Σ _ : ℤ, ℕ)) : ∀ (σ : Alarms ℤ ℕ) (s : Base), l.NodupKeys →
    Keeps live σ (fun id => l.dlookup id) s →
    ∃ s' τ, l.foldlM (fun s p => s.destroy p.2) s = some s' ∧ Keeps live τ (fun _ => none) s' ∧
      Alarms.Run σ (l.map fun p => .deleted p.1) τ := by
  induction l with
  | nil => exact fun σ s _ h => ⟨s, σ, rfl, h, .nil⟩
  | cons p l ih =>
      obtain ⟨id, w⟩ := p
      intro σ s hnodup h
      obtain ⟨hout, hrest⟩ := List.nodupKeys_cons.mp hnodup
      obtain ⟨d, ev, hd, rfl, hev, -⟩ := h.owned.of_timer id w (List.dlookup_cons_eq _ _ _)
      obtain ⟨a, ha, -⟩ := h.scheduled w d ev hd hev
      obtain ⟨s₁, hs₁, hkeeps, -⟩ := destroy_spec h hd
      have htimer : Function.update (fun id => (⟨d.id, w⟩ :: l : List (Σ _ : ℤ, ℕ)).dlookup id)
          d.id none = fun id => l.dlookup id := by
        funext id
        by_cases hid : id = d.id
        · rw [hid, Function.update_self]
          exact (List.dlookup_eq_none.mpr hout).symm
        · rw [Function.update_of_ne hid]
          exact List.dlookup_cons_ne _ _ hid
      rw [htimer] at hkeeps
      obtain ⟨s', τ, hs', hkeeps', hrun⟩ := ih _ s₁ hrest hkeeps
      refine ⟨s', τ, ?_, hkeeps', .cons (.deleted ha) hrun⟩
      rw [List.foldlM_cons, hs₁]
      exact hs'

/-- **The end of `loop`**: all timers are deleted, and none of their objects is left. -/
theorem clear_spec (h : Keeps live σ s.timer s) :
    ∃ s' τ, s.clear = some s' ∧ Keeps live τ s'.timer s' ∧
      Alarms.Run σ (s.timers.keys.map .deleted) τ ∧ (∀ w, s'.wtds w = none) ∧
      ∀ e, s'.evBase.events e = none := by
  obtain ⟨s', τ, hs', hkeeps, hrun⟩ := destroyAll_spec s.timers.entries σ s s.timers.nodupKeys h
  have hwtds : ∀ w, s'.wtds w = none := by
    intro w
    cases hw : s'.wtds w with
    | none => rfl
    | some d => cases hkeeps.owned.of_wtd w d hw
  refine ⟨{ s' with timers := ∅ }, τ, ?_, ?_, ?_, hwtds, fun e => ?_⟩
  · rw [clear, hs']
    rfl
  · exact ⟨hkeeps.sound, hkeeps.owned, hkeeps.now_eq, hkeeps.alarm_none, hkeeps.scheduled⟩
  · rw [AList.keys, List.keys, List.map_map]
    exact hrun
  · cases he : s'.evBase.events e with
    | none => rfl
    | some ev =>
        obtain ⟨d, hd, -⟩ := hkeeps.owned.of_event e ev he
        rw [hwtds] at hd
        cases hd

end Base

end CocInside.Worker
