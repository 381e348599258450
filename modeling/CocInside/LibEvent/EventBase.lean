import CocInside.LibEvent.MinHeap

/-!
# The event base

What an event loop does with timeouts: an event is added with one, gets active when it is over, and is
processed. An event is an address in a memory; what is done to a freed one, or is not on the queue it
is taken from, has no result.

* `EventBase.eventAddInternal`, `EventBase.eventDelInternal`, `EventBase.timeoutProcess`,
  `EventBase.persistClosure`: the operations.
* `EventBase.Sound`: the invariant: flags, heap and active queue agree.
* `EventBase.timeoutProcess_spec`: all events that are due get active, in the order of their deadlines,
  and no others.

Left out are descriptors and signals, priorities, the lists of common timeouts, and the locks. Times
are in microseconds.

Source: `event/event.c`.
-/

namespace CocInside.LibEvent

open CocInside.Lib

/-- As far as timeouts go. `ev_flags` is one flag for each queue, and `ev_res` is `EV_TIMEOUT` or
nothing. Source: `struct event`. -/
structure Event where
  evTimeout : ℕ
  evIoTimeout : ℕ
  persist : Bool
  onTimeout : Bool
  onActive : Bool
  evRes : Bool
  evArg : ℕ

/-- With the memory of the events and the time `gettime` tells. Source: `struct event_base`. -/
structure EventBase where
  events : ℕ → Option Event
  timeheap : MinHeap ℕ
  activequeue : List ℕ
  eventBreak : Bool
  now : ℕ

/-- There may be no memory. -/
def MinHeap.Realloc.Fails {ε : Type} (mem : MinHeap.Realloc ε) : Prop :=
  ∃ p a, mem.realloc p a = none

namespace EventBase

/-! ## The operations -/

/-- The timeouts the heap is ordered by. Source: `struct event`, `ev_timeout`. -/
def key (b : EventBase) (e : ℕ) : ℕ := ((b.events e).map Event.evTimeout).getD 0

/-- The event at `e` is written. -/
def setEvent (b : EventBase) (e : ℕ) (ev : Event) : EventBase :=
  { b with events := Function.update b.events e (some ev) }

/-- `event_queue_remove(base, ev, EVLIST_TIMEOUT)`. Source: `event_queue_remove`. -/
def removeTimeout (b : EventBase) (e : ℕ) : Option EventBase := do
  let ev ← b.events e
  if ev.onTimeout then
    let r ← b.timeheap.erase b.key e
    some { b.setEvent e { ev with onTimeout := false } with timeheap := r.2 }
  else none

/-- `event_queue_remove(base, ev, EVLIST_ACTIVE)`. Source: `event_queue_remove`. -/
def removeActive (b : EventBase) (e : ℕ) : Option EventBase := do
  let ev ← b.events e
  if ev.onActive then
    some { b.setEvent e { ev with onActive := false } with
      activequeue := b.activequeue.erase e }
  else none

/-- `event_queue_insert(base, ev, EVLIST_TIMEOUT)`. Source: `event_queue_insert`. -/
def insertTimeout (mem : MinHeap.Realloc ℕ) (b : EventBase) (e : ℕ) : Option EventBase := do
  let ev ← b.events e
  if ev.onTimeout then none
  else
    let r ← b.timeheap.push b.key mem e
    some { b.setEvent e { ev with onTimeout := true } with timeheap := r.2 }

/-- `event_queue_insert(base, ev, EVLIST_ACTIVE)`. Source: `event_queue_insert`. -/
def insertActive (b : EventBase) (e : ℕ) : Option EventBase := do
  let ev ← b.events e
  if ev.onActive then some b
  else
    some { b.setEvent e { ev with onActive := true } with activequeue := b.activequeue ++ [e] }

/-- A step that is only done with a flag. Source: `event_del_internal`. -/
def onFlag (c : Bool) (f : EventBase → Option EventBase) (b : EventBase) : Option EventBase :=
  if c then f b else some b

/-- Source: `event_del_internal`. -/
def eventDelInternal (b : EventBase) (e : ℕ) : Option EventBase := do
  let ev ← b.events e
  let b ← onFlag ev.onTimeout (fun b => b.removeTimeout e) b
  onFlag ev.onActive (fun b => b.removeActive e) b

/-- Without memory for it nothing is changed. Source: `event_add_internal`. -/
def eventAddInternal (mem : MinHeap.Realloc ℕ) (b : EventBase) (e : ℕ) (tv : ℕ)
    (tvIsAbsolute : Bool) : Option EventBase := do
  let ev ← b.events e
  match (if ev.onTimeout then some b.timeheap
      else b.timeheap.reserve mem (1 + b.timeheap.n)) with
  | none => some b
  | some timeheap =>
      let b := { b with timeheap := timeheap }
      let b := b.setEvent e
        { ev with evIoTimeout := if ev.persist ∧ ¬ tvIsAbsolute then tv else ev.evIoTimeout }
      let b ← onFlag ev.onTimeout (fun b => b.removeTimeout e) b
      -- Active due to a timeout: it is not to run before the new one.
      let b ← onFlag (ev.onActive && ev.evRes) (fun b => b.removeActive e) b
      let ev ← b.events e
      let b := b.setEvent e { ev with evTimeout := if tvIsAbsolute then tv else b.now + tv }
      b.insertTimeout mem e

/-- `event_active_nolock(ev, EV_TIMEOUT, 1)`. Source: `event_active_nolock`. -/
def eventActive (b : EventBase) (e : ℕ) : Option EventBase := do
  let ev ← b.events e
  let b := b.setEvent e { ev with evRes := true }
  if ev.onActive then some b else b.insertActive e

/-- `event_assign(ev, base, -1, persist ? EV_PERSIST : 0, callback, arg)`. Source:
`event_assign`. -/
def eventAssign (b : EventBase) (e : ℕ) (persist : Bool) (arg : ℕ) : Option EventBase := do
  let ev ← b.events e
  some { b.setEvent e
      { ev with
        persist := persist
        evIoTimeout := if persist then 0 else ev.evIoTimeout
        onTimeout := false
        onActive := false
        evRes := false
        evArg := arg } with
    timeheap := { b.timeheap with
      minHeapIdx := Function.update b.timeheap.minHeapIdx e none } }

/-- Where `malloc` gives the free address `e`. Source: `event_new`. -/
def eventNew (b : EventBase) (e : ℕ) (persist : Bool) (arg : ℕ) : Option EventBase :=
  if (b.events e).isSome then none
  else
    (b.setEvent e ⟨0, 0, false, false, false, false, 0⟩).eventAssign e persist arg

/-- `event_del`, and the memory is given back. Source: `event_free`. -/
def eventFree (b : EventBase) (e : ℕ) : Option EventBase := do
  let b ← b.eventDelInternal e
  some { b with events := Function.update b.events e none }

/-- The loop of `timeout_process`, for `fuel` turns. Source: `timeout_process`. -/
def timeoutProcessWithin : ℕ → EventBase → Option EventBase
  | 0, _ => none
  | fuel + 1, b =>
      match b.timeheap.top with
      | none => some b
      | some e => do
          let ev ← b.events e
          if b.now < ev.evTimeout then some b
          else
            let b ← b.eventDelInternal e
            let b ← b.eventActive e
            timeoutProcessWithin fuel b

/-- Source: `timeout_process`. -/
def timeoutProcess (b : EventBase) : Option EventBase :=
  timeoutProcessWithin (b.timeheap.n + 1) b

/-- `event_persist_closure` up to the callback. Source: `event_persist_closure`. -/
def persistClosure (mem : MinHeap.Realloc ℕ) (b : EventBase) (e : ℕ) : Option EventBase := do
  let ev ← b.events e
  if ev.evIoTimeout ≠ 0 then
    -- It is to run after the last time it was scheduled for, not after now.
    let delay := ev.evIoTimeout
    let relativeTo := if ev.evRes then ev.evTimeout else b.now
    let runAt := relativeTo + delay
    let runAt := if runAt < b.now then b.now + delay else runAt
    b.eventAddInternal mem e runAt true
  else some b

/-- `event_process_active_single_queue` up to the callback of the first event: its argument is
returned. Source: `event_process_active_single_queue`. -/
def processFirst (mem : MinHeap.Realloc ℕ) (b : EventBase) : Option (ℕ × EventBase) := do
  let e ← b.activequeue.head?
  let ev ← b.events e
  let b ← if ev.persist then b.removeActive e else b.eventDelInternal e
  let b ← onFlag ev.persist (fun b => b.persistClosure mem e) b
  let ev ← b.events e
  some (ev.evArg, b)

/-! ## The invariant -/

/-- Flags, heap and active queue agree; an event is on one queue at most; what is active was due. -/
structure Sound (b : EventBase) : Prop where
  heap : b.timeheap.WellFormed b.key
  mem_live : ∀ e, e ∈ b.timeheap.live ↔ ∃ ev, b.events e = some ev ∧ ev.onTimeout
  mem_active : ∀ e, e ∈ b.activequeue ↔ ∃ ev, b.events e = some ev ∧ ev.onActive
  nodup : b.activequeue.Nodup
  apart : ∀ e ev, b.events e = some ev → ev.onActive → ev.onTimeout = false
  due : ∀ e ev, b.events e = some ev → ev.onActive → ev.evRes ∧ ev.evTimeout ≤ b.now

/-- The event `e` is changed to `ev`, the active queue to `q`, and nothing else. -/
structure Changes (b : EventBase) (e : ℕ) (ev : Option Event) (q : List ℕ) (b' : EventBase) :
    Prop where
  events_eq : b'.events = Function.update b.events e ev
  activequeue_eq : b'.activequeue = q
  now_eq : b'.now = b.now
  eventBreak_eq : b'.eventBreak = b.eventBreak

variable {b b' : EventBase} {e : ℕ} {ev : Event}

/-- The heap orders an event by the time it is set to. -/
lemma key_eq (h : b.events e = some ev) : b.key e = ev.evTimeout := by
  rw [key, h]
  rfl

/-- The change of one event keeps the invariant, if it does for the event. -/
lemma Sound.of_changes (h : Sound b) {o : Option Event} {q : List ℕ} (hc : Changes b e o q b')
    (hheap : b'.timeheap.WellFormed b'.key)
    (hlive : ∀ x, x ≠ e → (x ∈ b'.timeheap.live ↔ x ∈ b.timeheap.live))
    (hself : e ∈ b'.timeheap.live ↔ ∃ ev, o = some ev ∧ ev.onTimeout)
    (hq : ∀ x, x ≠ e → (x ∈ q ↔ x ∈ b.activequeue))
    (hqself : e ∈ q ↔ ∃ ev, o = some ev ∧ ev.onActive) (hnodup : q.Nodup)
    (hev : ∀ ev, o = some ev → ev.onActive →
      ev.onTimeout = false ∧ ev.evRes ∧ ev.evTimeout ≤ b.now) : Sound b' := by
  have hother : ∀ {x}, x ≠ e → b'.events x = b.events x := by
    intro x hx
    rw [hc.events_eq, Function.update_of_ne hx]
  have hat : b'.events e = o := by rw [hc.events_eq, Function.update_self]
  refine ⟨hheap, ?_, ?_, ?_, ?_, ?_⟩
  · intro x
    by_cases hx : x = e
    · rw [hx, hself, hat]
    · rw [hlive x hx, h.mem_live, hother hx]
  · intro x
    rw [hc.activequeue_eq]
    by_cases hx : x = e
    · rw [hx, hqself, hat]
    · rw [hq x hx, h.mem_active, hother hx]
  · rw [hc.activequeue_eq]
    exact hnodup
  · intro x ev' hx
    by_cases hxe : x = e
    · subst hxe
      exact fun ha => (hev ev' (hat.symm.trans hx) ha).1
    · exact h.apart x ev' ((hother hxe).symm.trans hx)
  · intro x ev' hx
    rw [hc.now_eq]
    by_cases hxe : x = e
    · subst hxe
      exact fun ha => (hev ev' (hat.symm.trans hx) ha).2
    · exact h.due x ev' ((hother hxe).symm.trans hx)

/-- The timeouts of the other events are as they were. -/
lemma Changes.key_eq {o : Option Event} {q : List ℕ} (hc : Changes b e o q b') {x : ℕ}
    (hx : x ≠ e) : b'.key x = b.key x := by
  rw [key, key, hc.events_eq, Function.update_of_ne hx]

/-- One change after the other. -/
lemma Changes.trans {o o' : Option Event} {q q' : List ℕ} {b'' : EventBase}
    (h : Changes b e o q b') (h' : Changes b' e o' q' b'') : Changes b e o' q' b'' := by
  refine ⟨?_, h'.activequeue_eq, h'.now_eq.trans h.now_eq,
    h'.eventBreak_eq.trans h.eventBreak_eq⟩
  rw [h'.events_eq, h.events_eq, Function.update_idem]

/-- A change of `e` leaves at `e` what it says. -/
lemma Changes.self {o : Option Event} {q : List ℕ} (h : Changes b e o q b') : b'.events e = o := by
  rw [h.events_eq, Function.update_self]

/-- The timeouts as they were. -/
lemma Changes.key_eq_of_evTimeout {ev' : Event} {q : List ℕ} (hc : Changes b e (some ev') q b')
    (hev : b.events e = some ev) (ht : ev'.evTimeout = ev.evTimeout) : b'.key = b.key := by
  funext x
  by_cases hx : x = e
  · subst hx
    rw [EventBase.key_eq hev, EventBase.key_eq hc.self, ht]
  · exact hc.key_eq hx

/-! ## Queues -/

/-- An event with a timeout leaves the heap, and its flag is cleared. -/
lemma removeTimeout_spec (h : Sound b) (hev : b.events e = some ev) (ht : ev.onTimeout) :
    ∃ b', b.removeTimeout e = some b' ∧ Sound b' ∧
      Changes b e (some { ev with onTimeout := false }) b.activequeue b' ∧
      b'.timeheap.n + 1 ≤ b'.timeheap.p.length := by
  have hmem : e ∈ b.timeheap.live := (h.mem_live e).mpr ⟨ev, hev, ht⟩
  obtain ⟨hnone, -⟩ | ⟨heap, herase, hheap, hperm, hroom⟩ := h.heap.erase_spec (e := e)
  · exact absurd hmem (h.heap.not_mem_live_iff.mpr hnone)
  · have hnodup := hperm.nodup_iff.mp h.heap.indexed.nodup
    have hc : Changes b e (some { ev with onTimeout := false }) b.activequeue
        { b.setEvent e { ev with onTimeout := false } with timeheap := heap } := ⟨rfl, rfl, rfl, rfl⟩
    refine ⟨_, ?_, h.of_changes hc ?_ ?_ ?_ ?_ ?_ h.nodup ?_, hc, hroom⟩
    · rw [removeTimeout, hev]
      simp only [Option.bind_eq_bind, Option.bind_some, ht, if_true, herase]
    · rw [hc.key_eq_of_evTimeout hev rfl]
      exact hheap
    · intro x hx
      show x ∈ heap.live ↔ _
      rw [hperm.mem_iff, List.mem_cons, or_iff_right hx]
    · show e ∈ heap.live ↔ _
      simp [(List.nodup_cons.mp hnodup).1]
    · exact fun x _ => Iff.rfl
    · rw [h.mem_active]
      simp [hev]
    · rintro _ ⟨⟩ ha
      exact ⟨rfl, h.due e ev hev ha⟩

/-- An active event leaves the queue, and its flag is cleared. -/
lemma removeActive_spec (h : Sound b) (hev : b.events e = some ev) (ha : ev.onActive) :
    ∃ b', b.removeActive e = some b' ∧ Sound b' ∧
      Changes b e (some { ev with onActive := false }) (b.activequeue.erase e) b' ∧
      b'.timeheap = b.timeheap := by
  have hc : Changes b e (some { ev with onActive := false }) (b.activequeue.erase e)
      { b.setEvent e { ev with onActive := false } with activequeue := b.activequeue.erase e } :=
    ⟨rfl, rfl, rfl, rfl⟩
  refine ⟨_, ?_, h.of_changes hc ?_ ?_ ?_ ?_ ?_ (h.nodup.erase e) ?_, hc, rfl⟩
  · rw [removeActive, hev]
    simp only [Option.bind_eq_bind, Option.bind_some, ha, if_true]
  · rw [hc.key_eq_of_evTimeout hev rfl]
    exact h.heap
  · exact fun x _ => Iff.rfl
  · show e ∈ b.timeheap.live ↔ _
    rw [h.mem_live]
    simp [hev]
  · intro x hx
    rw [h.nodup.mem_erase_iff]
    simp [hx]
  · rw [h.nodup.mem_erase_iff]
    simp
  · rintro _ ⟨⟩ hfalse
    cases hfalse

/-- An event may be changed but for its flags and, on a queue, its timeout. -/
lemma Sound.setEvent (h : Sound b) (ev' : Event) (hev : b.events e = some ev)
    (ht : ev'.onTimeout = ev.onTimeout) (ha : ev'.onActive = ev.onActive)
    (hon : ev.onTimeout ∨ ev.onActive → ev'.evTimeout = ev.evTimeout ∧ ev'.evRes = ev.evRes) :
    Sound (b.setEvent e ev') := by
  have hc : Changes b e (some ev') b.activequeue (b.setEvent e ev') := ⟨rfl, rfl, rfl, rfl⟩
  refine h.of_changes hc ?_ (fun x _ => Iff.rfl) ?_ (fun x _ => Iff.rfl) ?_ h.nodup ?_
  · refine h.heap.congr fun x hx => ?_
    by_cases hxe : x = e
    · subst hxe
      obtain ⟨_, hx', hflag⟩ := (h.mem_live x).mp hx
      cases hev.symm.trans hx'
      rw [EventBase.key_eq hev, EventBase.key_eq hc.self, (hon (.inl hflag)).1]
    · exact hc.key_eq hxe
  · show e ∈ b.timeheap.live ↔ _
    rw [h.mem_live]
    simp [hev, ht]
  · rw [h.mem_active]
    simp [hev, ha]
  · rintro _ ⟨⟩ hactive
    rw [ha] at hactive
    obtain ⟨htimeout, hres⟩ := hon (.inr hactive)
    rw [ht, htimeout, hres]
    exact ⟨h.apart e ev hev hactive, h.due e ev hev hactive⟩

/-- When the heap has room, an event without a timeout is put on it, and its flag is set. -/
lemma insertTimeout_spec (h : Sound b) (mem : MinHeap.Realloc ℕ) (hev : b.events e = some ev)
    (ht : ev.onTimeout = false) (ha : ev.onActive = false)
    (hroom : b.timeheap.n + 1 ≤ b.timeheap.p.length) :
    ∃ b', b.insertTimeout mem e = some b' ∧ Sound b' ∧
      Changes b e (some { ev with onTimeout := true }) b.activequeue b' := by
  have hout : e ∉ b.timeheap.live := by
    rw [h.mem_live]
    simp [hev, ht]
  obtain ⟨hnone, -⟩ | ⟨heap, hpush, hheap, hperm⟩ :=
    h.heap.push_spec mem (h.heap.not_mem_live_iff.mp hout)
  · rw [MinHeap.WellFormed.reserve_of_le mem hroom] at hnone
    cases hnone
  · have hc : Changes b e (some { ev with onTimeout := true }) b.activequeue
        { b.setEvent e { ev with onTimeout := true } with timeheap := heap } := ⟨rfl, rfl, rfl, rfl⟩
    refine ⟨_, ?_, h.of_changes hc ?_ ?_ ?_ (fun x _ => Iff.rfl) ?_ h.nodup ?_, hc⟩
    · rw [insertTimeout, hev]
      simp only [Option.bind_eq_bind, Option.bind_some, ht, Bool.false_eq_true, if_false, hpush]
    · rw [hc.key_eq_of_evTimeout hev rfl]
      exact hheap
    · intro x hx
      show x ∈ heap.live ↔ _
      rw [hperm.mem_iff, List.mem_cons, or_iff_right hx]
    · show e ∈ heap.live ↔ _
      rw [hperm.mem_iff]
      simp
    · rw [h.mem_active]
      simp [hev]
    · rintro _ ⟨⟩ hactive
      change ev.onActive = true at hactive
      rw [ha] at hactive
      cases hactive

/-! ## Events -/

/-- An event whose flag is clear is not on the active queue. -/
lemma Sound.not_mem_active (h : Sound b) (hev : b.events e = some ev) (ha : ev.onActive = false) :
    e ∉ b.activequeue := by
  rw [h.mem_active]
  simp [hev, ha]

/-- Nothing is changed. -/
lemma Changes.refl (hev : b.events e = some ev) : Changes b e (some ev) b.activequeue b := by
  refine ⟨?_, rfl, rfl, rfl⟩
  rw [← hev, Function.update_eq_self]

/-- **`event_del`** takes an event off its queue. -/
theorem eventDelInternal_spec (h : Sound b) (hev : b.events e = some ev) :
    ∃ b', b.eventDelInternal e = some b' ∧ Sound b' ∧
      Changes b e (some { ev with onTimeout := false, onActive := false }) (b.activequeue.erase e)
        b' := by
  obtain ⟨timeout, ioTimeout, persist, onTimeout, onActive, res, arg⟩ := ev
  simp only [eventDelInternal, hev, Option.bind_eq_bind, Option.bind_some]
  cases onTimeout with
  | true =>
      have ha : onActive = false := by
        by_contra hactive
        have := h.apart e _ hev (Bool.not_eq_false _ ▸ hactive)
        cases this
      subst ha
      obtain ⟨b', hb', hs, hc, -⟩ := removeTimeout_spec h hev rfl
      rw [List.erase_of_not_mem (h.not_mem_active hev rfl)]
      refine ⟨b', ?_, hs, hc⟩
      rw [onFlag, if_pos rfl, hb']
      rfl
  | false =>
      cases onActive with
      | true =>
          obtain ⟨b', hb', hs, hc, -⟩ := removeActive_spec h hev rfl
          refine ⟨b', ?_, hs, hc⟩
          rw [onFlag, if_neg Bool.false_ne_true, Option.bind_some, onFlag, if_pos rfl, hb']
      | false =>
          rw [List.erase_of_not_mem (h.not_mem_active hev rfl)]
          refine ⟨b, ?_, h, Changes.refl hev⟩
          rw [onFlag, if_neg Bool.false_ne_true, Option.bind_some, onFlag,
            if_neg Bool.false_ne_true]

/-- More cells in the array. -/
lemma Sound.reserve (h : Sound b) {mem : MinHeap.Realloc ℕ} {n : ℕ} {heap : MinHeap ℕ}
    (hheap : b.timeheap.reserve mem n = some heap) :
    Sound { b with timeheap := heap } ∧ heap.n = b.timeheap.n ∧ n ≤ heap.p.length := by
  obtain ⟨hw, hlive, hn, hle⟩ := h.heap.of_reserve hheap
  refine ⟨⟨hw, ?_, h.mem_active, h.nodup, h.apart, h.due⟩, hn, hle⟩
  intro x
  show x ∈ heap.live ↔ _
  rw [hlive]
  exact h.mem_live x

/-- Off its queue, an event gets its new timeout and is put on the heap. -/
lemma insertTimeout_setEvent_spec (h : Sound b) (mem : MinHeap.Realloc ℕ)
    (hev : b.events e = some ev) (ht : ev.onTimeout = false) (ha : ev.onActive = false)
    (hroom : b.timeheap.n + 1 ≤ b.timeheap.p.length) (timeout : ℕ) :
    ∃ b', (b.setEvent e { ev with evTimeout := timeout }).insertTimeout mem e = some b' ∧ Sound b' ∧
      Changes b e (some { ev with evTimeout := timeout, onTimeout := true }) b.activequeue b' := by
  have hs : Sound (b.setEvent e { ev with evTimeout := timeout }) := by
    refine h.setEvent _ hev rfl rfl fun hon => ?_
    rw [ht, ha] at hon
    simp at hon
  have hc : Changes b e (some { ev with evTimeout := timeout }) b.activequeue
      (b.setEvent e { ev with evTimeout := timeout }) := ⟨rfl, rfl, rfl, rfl⟩
  obtain ⟨b', hb', hs', hc'⟩ := insertTimeout_spec hs mem hc.self ht ha hroom
  exact ⟨b', hb', hs', hc.trans hc'⟩

/-- **`event_add`** puts an event on the heap, with its new timeout, or changes nothing but the room on
the heap if there is no memory. -/
theorem eventAddInternal_spec (h : Sound b) (mem : MinHeap.Realloc ℕ) (hev : b.events e = some ev)
    (tv : ℕ) (tvIsAbsolute : Bool) :
    ∃ b', b.eventAddInternal mem e tv tvIsAbsolute = some b' ∧ Sound b' ∧
      ((b' = b ∧ mem.Fails) ∨ Changes b e (some { ev with
        evIoTimeout := if ev.persist ∧ ¬ tvIsAbsolute then tv else ev.evIoTimeout
        onTimeout := true
        onActive := false
        evTimeout := if tvIsAbsolute then tv else b.now + tv }) (b.activequeue.erase e) b') := by
  obtain ⟨timeout, ioTimeout, persist, onTimeout, onActive, res, arg⟩ := ev
  simp only [eventAddInternal, hev, Option.bind_eq_bind, Option.bind_some]
  cases onTimeout with
  | true =>
      have ha : onActive = false := by
        by_contra hactive
        have := h.apart e _ hev (Bool.not_eq_false _ ▸ hactive)
        cases this
      subst ha
      have hs := h.setEvent (⟨timeout, if persist ∧ ¬ tvIsAbsolute then tv else ioTimeout,
        persist, true, false, res, arg⟩) hev rfl rfl fun _ => ⟨rfl, rfl⟩
      have hc : Changes b e (some ⟨timeout, if persist ∧ ¬ tvIsAbsolute then tv else ioTimeout,
        persist, true, false, res, arg⟩) b.activequeue (b.setEvent e _) := ⟨rfl, rfl, rfl, rfl⟩
      obtain ⟨b₂, hb₂, hs₂, hc₂, hroom⟩ := removeTimeout_spec hs hc.self rfl
      obtain ⟨b₃, hb₃, hs₃, hc₃⟩ := insertTimeout_setEvent_spec hs₂ mem hc₂.self rfl rfl hroom
        (if tvIsAbsolute then tv else b₂.now + tv)
      have hnow : b₂.now = b.now := (hc.trans hc₂).now_eq
      rw [hnow] at hb₃ hc₃
      refine ⟨b₃, ?_, hs₃, .inr ?_⟩
      · simp only [if_true, onFlag, hb₂, Option.bind_some, Bool.false_and, Bool.false_eq_true,
          if_false, hc₂.self, hnow, hb₃]
      · rw [List.erase_of_not_mem (h.not_mem_active hev rfl)]
        have hq : b₂.activequeue = b.activequeue := (hc.trans hc₂).activequeue_eq
        rw [hq] at hc₃
        exact hc.trans (hc₂.trans hc₃)
  | false =>
      cases hreserve : b.timeheap.reserve mem (1 + b.timeheap.n) with
      | none =>
          refine ⟨b, ?_, h, .inl ⟨rfl, MinHeap.WellFormed.reserve_eq_none hreserve⟩⟩
          simp only [Bool.false_eq_true, if_false]
      | some heap =>
          obtain ⟨h₁, hn, hroom⟩ := h.reserve hreserve
          rw [Nat.add_comm, ← hn] at hroom
          have hev₁ : ({ b with timeheap := heap } : EventBase).events e =
              some ⟨timeout, ioTimeout, persist, false, onActive, res, arg⟩ := hev
          have hs := h₁.setEvent (⟨timeout, if persist ∧ ¬ tvIsAbsolute then tv else ioTimeout,
            persist, false, onActive, res, arg⟩) hev₁ rfl rfl fun _ => ⟨rfl, rfl⟩
          have hc : Changes b e (some ⟨timeout, if persist ∧ ¬ tvIsAbsolute then tv else ioTimeout,
            persist, false, onActive, res, arg⟩) b.activequeue
              (setEvent { b with timeheap := heap } e _) := ⟨rfl, rfl, rfl, rfl⟩
          cases onActive with
          | true =>
              obtain rfl : res = true := (h.due e _ hev rfl).1
              obtain ⟨b₂, hb₂, hs₂, hc₂, hheap⟩ := removeActive_spec hs hc.self rfl
              obtain ⟨b₃, hb₃, hs₃, hc₃⟩ := insertTimeout_setEvent_spec hs₂ mem hc₂.self rfl rfl
                (by rw [hheap]; exact hroom) (if tvIsAbsolute then tv else b₂.now + tv)
              have hnow : b₂.now = b.now := (hc.trans hc₂).now_eq
              rw [hnow] at hb₃ hc₃
              refine ⟨b₃, ?_, hs₃, .inr ?_⟩
              · simp only [onFlag, Bool.false_eq_true, if_false, Option.bind_some, Bool.and_self,
                  if_true, hb₂, hc₂.self, hnow, hb₃]
              · rw [hc₂.activequeue_eq] at hc₃
                exact hc.trans (hc₂.trans hc₃)
          | false =>
              obtain ⟨b₃, hb₃, hs₃, hc₃⟩ := insertTimeout_setEvent_spec hs mem hc.self rfl rfl hroom
                (if tvIsAbsolute then tv else b.now + tv)
              refine ⟨b₃, ?_, hs₃, .inr ?_⟩
              · simp only [onFlag, Bool.false_eq_true, if_false, Option.bind_some, Bool.false_and]
                rw [hc.self, Option.bind_some]
                exact hb₃
              · rw [List.erase_of_not_mem (h.not_mem_active hev rfl)]
                exact hc.trans hc₃

/-- `event_add` for an event that is on no queue. -/
lemma eventAddInternal_spec_of_off (h : Sound b) (mem : MinHeap.Realloc ℕ)
    (hev : b.events e = some ev) (ht : ev.onTimeout = false) (ha : ev.onActive = false) (tv : ℕ) :
    ∃ b', ∃ added : Bool, b.eventAddInternal mem e tv false = some b' ∧ Sound b' ∧
      Changes b e (some { ev with
        evIoTimeout := if added ∧ ev.persist then tv else ev.evIoTimeout
        onTimeout := added
        evTimeout := if added then b.now + tv else ev.evTimeout }) b.activequeue b' ∧
      (added = false → mem.Fails) := by
  obtain ⟨evTimeout, ioTimeout, persist, onTimeout, onActive, res, arg⟩ := ev
  simp only at ht ha
  subst ht ha
  obtain ⟨b', hb', hs, ⟨rfl, hfails⟩ | hc⟩ := eventAddInternal_spec h mem hev tv false
  · refine ⟨b', false, hb', hs, ?_, fun _ => hfails⟩
    simp only [Bool.false_eq_true, false_and, if_false]
    exact Changes.refl hev
  · rw [List.erase_of_not_mem (h.not_mem_active hev rfl)] at hc
    refine ⟨b', true, hb', hs, ?_, ?_⟩
    · simp only [Bool.false_eq_true, not_false_eq_true, and_true, if_false] at hc
      simp only [true_and, if_true]
      exact hc
    · rintro ⟨⟩

/-- **`event_assign`** on an event that is on no queue. -/
theorem eventAssign_spec (h : Sound b) (hev : b.events e = some ev) (ht : ev.onTimeout = false)
    (ha : ev.onActive = false) (persist : Bool) (arg : ℕ) :
    ∃ b', b.eventAssign e persist arg = some b' ∧ Sound b' ∧
      Changes b e (some { ev with
        persist := persist
        evIoTimeout := if persist then 0 else ev.evIoTimeout
        onTimeout := false
        onActive := false
        evRes := false
        evArg := arg }) b.activequeue b' := by
  have hout : b.timeheap.minHeapIdx e = none := by
    rw [← h.heap.not_mem_live_iff, h.mem_live]
    simp [hev, ht]
  have hidx : Function.update b.timeheap.minHeapIdx e none = b.timeheap.minHeapIdx := by
    rw [← hout, Function.update_eq_self]
  refine ⟨_, ?_, h.setEvent ({ ev with
    persist := persist
    evIoTimeout := if persist then 0 else ev.evIoTimeout
    onTimeout := false
    onActive := false
    evRes := false
    evArg := arg }) hev ht.symm ha.symm ?_, ⟨rfl, rfl, rfl, rfl⟩⟩
  · rw [eventAssign, hev, hidx]
    rfl
  · intro hon
    rw [ht, ha] at hon
    simp at hon

/-- A new event is on no queue. -/
theorem eventNew_spec (h : Sound b) (hfree : b.events e = none) (persist : Bool) (arg : ℕ) :
    ∃ b', b.eventNew e persist arg = some b' ∧ Sound b' ∧
      Changes b e (some ⟨0, 0, persist, false, false, false, arg⟩) b.activequeue b' := by
  have hout : e ∉ b.timeheap.live := by
    rw [h.mem_live]
    simp [hfree]
  have hc : Changes b e (some ⟨0, 0, false, false, false, false, 0⟩) b.activequeue
      (b.setEvent e ⟨0, 0, false, false, false, false, 0⟩) := ⟨rfl, rfl, rfl, rfl⟩
  have hs : Sound (b.setEvent e ⟨0, 0, false, false, false, false, 0⟩) := by
    refine h.of_changes hc ?_ (fun x _ => Iff.rfl) ?_ (fun x _ => Iff.rfl) ?_ h.nodup ?_
    · refine h.heap.congr fun x hx => hc.key_eq ?_
      rintro rfl
      exact hout hx
    · show e ∈ b.timeheap.live ↔ _
      simp [hout]
    · rw [h.mem_active]
      simp [hfree]
    · rintro _ ⟨⟩ hactive
      cases hactive
  obtain ⟨b', hb', hs', hc'⟩ := eventAssign_spec hs hc.self rfl rfl persist arg
  refine ⟨b', ?_, hs', hc.trans ?_⟩
  · rw [eventNew, hfree]
    exact hb'
  · rw [ite_self] at hc'
    exact hc'

/-- **`event_free`** takes an event off its queue; nothing is left of it. -/
theorem eventFree_spec (h : Sound b) (hev : b.events e = some ev) :
    ∃ b', b.eventFree e = some b' ∧ Sound b' ∧ Changes b e none (b.activequeue.erase e) b' := by
  obtain ⟨b', hb', hs, hc⟩ := eventDelInternal_spec h hev
  have hc' : Changes b' e none b'.activequeue
      { b' with events := Function.update b'.events e none } := ⟨rfl, rfl, rfl, rfl⟩
  have hout : e ∉ b'.timeheap.live := by
    rw [hs.mem_live]
    simp [hc.self]
  refine ⟨_, ?_, hs.of_changes hc' ?_ (fun x _ => Iff.rfl) ?_ (fun x _ => Iff.rfl) ?_ hs.nodup ?_, ?_⟩
  · rw [eventFree, hb']
    rfl
  · refine hs.heap.congr fun x hx => hc'.key_eq ?_
    rintro rfl
    exact hout hx
  · show e ∈ b'.timeheap.live ↔ _
    simp [hout]
  · rw [hs.mem_active]
    simp [hc.self]
  · rintro _ ⟨⟩
  · exact hc.trans ⟨rfl, hc.activequeue_eq, rfl, rfl⟩

/-! ## Events that are due -/

/-- An event that is on no queue gets active. -/
lemma eventActive_spec (h : Sound b) (hev : b.events e = some ev) (ht : ev.onTimeout = false)
    (ha : ev.onActive = false) (hdue : ev.evTimeout ≤ b.now) :
    ∃ b', b.eventActive e = some b' ∧ Sound b' ∧
      Changes b e (some { ev with evRes := true, onActive := true }) (b.activequeue ++ [e]) b' ∧
      b'.timeheap = b.timeheap := by
  have hout : e ∉ b.activequeue := h.not_mem_active hev ha
  have hc : Changes b e (some { ev with evRes := true, onActive := true }) (b.activequeue ++ [e])
      { b.setEvent e { ev with evRes := true, onActive := true } with
        activequeue := b.activequeue ++ [e] } := ⟨rfl, rfl, rfl, rfl⟩
  refine ⟨_, ?_, h.of_changes hc ?_ (fun x _ => Iff.rfl) ?_ ?_ ?_ ?_ ?_, hc, rfl⟩
  · simp only [eventActive, hev, Option.bind_eq_bind, Option.bind_some, ha, Bool.false_eq_true,
      if_false, insertActive, setEvent, Function.update_self, Function.update_idem]
  · rw [hc.key_eq_of_evTimeout hev rfl]
    exact h.heap
  · show e ∈ b.timeheap.live ↔ _
    rw [h.mem_live]
    simp [hev]
  · intro x hx
    simp [hx]
  · simp
  · rw [List.nodup_append_comm]
    exact List.nodup_cons.mpr ⟨hout, h.nodup⟩
  · rintro _ ⟨⟩ -
    exact ⟨ht, rfl, hdue⟩

/-- Time passes: nothing is changed but the time. -/
lemma Sound.wait (h : Sound b) (time : ℕ) : Sound { b with now := b.now + time } := by
  refine ⟨h.heap, h.mem_live, h.mem_active, h.nodup, h.apart, fun e ev hev ha => ?_⟩
  obtain ⟨hres, hle⟩ := h.due e ev hev ha
  exact ⟨hres, hle.trans (Nat.le_add_right _ _)⟩

/-- The top of the heap is the next deadline. -/
lemma Sound.top_spec (h : Sound b) :
    (b.timeheap.top = none ∧ ∀ x ev, b.events x = some ev → ev.onTimeout = false) ∨
      ∃ e ev, b.timeheap.top = some e ∧ b.events e = some ev ∧ ev.onTimeout ∧
        ∀ x ev', b.events x = some ev' → ev'.onTimeout → ev.evTimeout ≤ ev'.evTimeout := by
  obtain ⟨htop, hnil⟩ | ⟨e, l, htop, hlive, hleast⟩ := h.heap.top_spec
  · refine .inl ⟨htop, fun x ev hx => ?_⟩
    by_contra hon
    have hmem : x ∈ b.timeheap.live := (h.mem_live x).mpr ⟨ev, hx, by simpa using hon⟩
    rw [hnil] at hmem
    cases hmem
  · have hmem : e ∈ b.timeheap.live := by
      rw [hlive]
      exact List.mem_cons_self
    obtain ⟨ev, hev, hon⟩ := (h.mem_live e).mp hmem
    refine .inr ⟨e, ev, htop, hev, hon, fun x ev' hx hon' => ?_⟩
    have hle := hleast x ((h.mem_live x).mpr ⟨ev', hx, hon'⟩)
    rw [EventBase.key_eq hev, EventBase.key_eq hx] at hle
    exact hle

/-- The events that get active: each is due and pending, they come in the order of their deadlines,
and none is left. -/
structure Expired (b : EventBase) (l : List ℕ) (b' : EventBase) : Prop where
  activequeue_eq : b'.activequeue = b.activequeue ++ l
  sorted : l.Pairwise fun x y => b.key x ≤ b.key y
  nodup : l.Nodup
  mem_iff : ∀ e, e ∈ l ↔ ∃ ev, b.events e = some ev ∧ ev.onTimeout ∧ ev.evTimeout ≤ b.now
  active : ∀ e ∈ l, ∀ ev, b.events e = some ev → b'.events e =
    some { ev with onTimeout := false, evRes := true, onActive := true }
  other : ∀ e, e ∉ l → b'.events e = b.events e
  now_eq : b'.now = b.now
  eventBreak_eq : b'.eventBreak = b.eventBreak

/-- Nothing is due before the next deadline. -/
lemma Expired.none_due (hdue : ∀ x ev, b.events x = some ev → ev.onTimeout → b.now < ev.evTimeout) :
    Expired b [] b := by
  refine ⟨(List.append_nil _).symm, .nil, .nil, ?_, ?_, fun _ _ => rfl, rfl, rfl⟩
  · intro x
    refine iff_of_false List.not_mem_nil ?_
    rintro ⟨ev, hev, hon, hle⟩
    exact absurd hle (not_le.mpr (hdue x ev hev hon))
  · exact fun x hx => absurd hx List.not_mem_nil

/-- The next deadline is over: it is the first of those that are. -/
lemma Expired.cons {b₁ : EventBase} {l : List ℕ} (hev : b.events e = some ev)
    (hon : ev.onTimeout) (hdue : ev.evTimeout ≤ b.now)
    (hleast : ∀ x ev', b.events x = some ev' → ev'.onTimeout → ev.evTimeout ≤ ev'.evTimeout)
    (hc : Changes b e (some { ev with onTimeout := false, evRes := true, onActive := true })
      (b.activequeue ++ [e]) b₁)
    (hrest : Expired b₁ l b') : Expired b (e :: l) b' := by
  have hkey : b₁.key = b.key := hc.key_eq_of_evTimeout hev rfl
  have hout : e ∉ l := by
    rw [hrest.mem_iff]
    rintro ⟨_, hself, hon', -⟩
    cases hc.self.symm.trans hself
    cases hon'
  have hother : ∀ {x}, x ≠ e → b₁.events x = b.events x := by
    intro x hx
    rw [hc.events_eq, Function.update_of_ne hx]
  have hmem : ∀ {x}, x ∈ l → x ≠ e ∧ ∃ ev', b.events x = some ev' ∧ ev'.onTimeout ∧
      ev'.evTimeout ≤ b.now := by
    intro x hx
    have hne : x ≠ e := fun heq => hout (heq ▸ hx)
    obtain ⟨ev', hev', hrest'⟩ := (hrest.mem_iff x).mp hx
    rw [hother hne] at hev'
    rw [hc.now_eq] at hrest'
    exact ⟨hne, ev', hev', hrest'⟩
  refine ⟨?_, ?_, List.nodup_cons.mpr ⟨hout, hrest.nodup⟩, ?_, ?_, ?_,
    hrest.now_eq.trans hc.now_eq, hrest.eventBreak_eq.trans hc.eventBreak_eq⟩
  · rw [hrest.activequeue_eq, hc.activequeue_eq, List.append_assoc, List.singleton_append]
  · refine List.pairwise_cons.mpr ⟨fun x hx => ?_, hkey ▸ hrest.sorted⟩
    obtain ⟨-, ev', hev', hon', -⟩ := hmem hx
    rw [EventBase.key_eq hev, EventBase.key_eq hev']
    exact hleast x ev' hev' hon'
  · intro x
    rw [List.mem_cons]
    constructor
    · rintro (rfl | hx)
      · exact ⟨ev, hev, hon, hdue⟩
      · exact (hmem hx).2
    · rintro ⟨ev', hev', hrest'⟩
      by_cases hx : x = e
      · exact .inl hx
      · refine .inr ((hrest.mem_iff x).mpr ⟨ev', (hother hx).trans hev', ?_⟩)
        rw [hc.now_eq]
        exact hrest'
  · intro x hx ev' hev'
    rcases List.mem_cons.mp hx with rfl | hx
    · cases hev.symm.trans hev'
      rw [hrest.other x hout, hc.self]
    · exact hrest.active x hx ev' ((hother (hmem hx).1).trans hev')
  · intro x hx
    rw [List.mem_cons, not_or] at hx
    rw [hrest.other x hx.2, hother hx.1]

/-- Every event that is due leaves the heap and gets active, in the order of the deadlines. By
induction on the fuel, with one event of the heap gone each turn. -/
lemma timeoutProcessWithin_spec (n : ℕ) : ∀ b : EventBase, Sound b → b.timeheap.live.length < n →
    ∃ b' l, timeoutProcessWithin n b = some b' ∧ Sound b' ∧ Expired b l b' := by
  induction n with
  | zero => exact fun b _ hn => absurd hn (Nat.not_lt_zero _)
  | succ n ih =>
      intro b h hn
      rw [timeoutProcessWithin]
      obtain ⟨htop, hnone⟩ | ⟨e, ev, htop, hev, hon, hleast⟩ := h.top_spec
      · rw [htop]
        refine ⟨b, [], rfl, h, Expired.none_due fun x ev hx hon => ?_⟩
        rw [hnone x ev hx] at hon
        cases hon
      · rw [htop]
        simp only [hev, Option.bind_eq_bind, Option.bind_some]
        by_cases hlt : b.now < ev.evTimeout
        · rw [if_pos hlt]
          exact ⟨b, [], rfl, h, Expired.none_due fun x ev' hx hon' =>
            hlt.trans_le (hleast x ev' hx hon')⟩
        · rw [if_neg hlt]
          have ha : ev.onActive = false := by
            by_contra hactive
            rw [h.apart e ev hev (by simpa using hactive)] at hon
            cases hon
          obtain ⟨b₁, hb₁, hs₁, hc₁⟩ := eventDelInternal_spec h hev
          rw [List.erase_of_not_mem (h.not_mem_active hev ha)] at hc₁
          have hnow₁ : ev.evTimeout ≤ b₁.now := by
            rw [hc₁.now_eq]
            exact not_lt.mp hlt
          obtain ⟨b₂, hb₂, hs₂, hc₂, hheap⟩ := eventActive_spec hs₁ hc₁.self rfl rfl hnow₁
          rw [hc₁.activequeue_eq] at hc₂
          have hc := hc₁.trans hc₂
          -- The heap has lost the event.
          have hlen : b₂.timeheap.live.length < n := by
            have hout : e ∉ b₁.timeheap.live := by
              rw [hs₁.mem_live]
              simp [hc₁.self]
            have hsub : e :: b₁.timeheap.live ⊆ b.timeheap.live := by
              intro x hx
              by_cases hxe : x = e
              · exact (h.mem_live x).mpr ⟨ev, hxe ▸ hev, hon⟩
              · have hx₁ := (hs₁.mem_live x).mp ((List.mem_cons.mp hx).resolve_left hxe)
                rw [hc₁.events_eq, Function.update_of_ne hxe] at hx₁
                exact (h.mem_live x).mpr hx₁
            have hle := (List.subperm_of_subset
              (List.nodup_cons.mpr ⟨hout, hs₁.heap.indexed.nodup⟩) hsub).length_le
            rw [List.length_cons] at hle
            rw [hheap]
            omega
          obtain ⟨b', l, hb', hs', hexp⟩ := ih b₂ hs₂ hlen
          refine ⟨b', e :: l, ?_, hs', Expired.cons hev hon (not_lt.mp hlt) hleast hc hexp⟩
          rw [hb₁, Option.bind_some, hb₂, Option.bind_some]
          exact hb'

/-- **`timeout_process`.** All events that are due get active, in the order of their deadlines, and no
others. -/
theorem timeoutProcess_spec (h : Sound b) :
    ∃ b' l, b.timeoutProcess = some b' ∧ Sound b' ∧ Expired b l b' := by
  refine timeoutProcessWithin_spec _ b h ?_
  rw [MinHeap.length_live h.heap.n_le]
  exact Nat.lt_succ_self _

/-! ## Processing -/

/-- When an event is pending again after it was active: it is persistent and has a timeout of its own,
and is later by that at least. -/
structure Again (mem : MinHeap.Realloc ℕ) (now : ℕ) (ev : Event) (again : Bool) (timeout : ℕ) :
    Prop where
  of_again : again → ev.persist ∧ ev.evIoTimeout ≠ 0 ∧ ev.evTimeout + ev.evIoTimeout ≤ timeout ∧
    timeout ≤ now + ev.evIoTimeout
  of_not : again = false → ev.persist → ev.evIoTimeout ≠ 0 → mem.Fails

/-- A persistent event that is called gets its next timeout; without memory for the heap it gets
none. -/
lemma persistClosure_spec (h : Sound b) (mem : MinHeap.Realloc ℕ) (hev : b.events e = some ev)
    (ht : ev.onTimeout = false) (ha : ev.onActive = false) (hres : ev.evRes) (hpersist : ev.persist)
    (hdue : ev.evTimeout ≤ b.now) :
    ∃ b' timeout again, b.persistClosure mem e = some b' ∧ Sound b' ∧
      Changes b e (some { ev with onTimeout := again, evTimeout := timeout }) b.activequeue b' ∧
      Again mem b.now ev again timeout := by
  obtain ⟨evTimeout, ioTimeout, persist, onTimeout, onActive, res, arg⟩ := ev
  simp only at ht ha hres hpersist hdue
  subst ht ha hres hpersist
  simp only [persistClosure, hev, Option.bind_eq_bind, Option.bind_some]
  have hsame : Changes b e (some ⟨evTimeout, ioTimeout, true, false, false, true, arg⟩)
      b.activequeue b := Changes.refl hev
  by_cases hio : ioTimeout ≠ 0
  · rw [if_pos hio]
    simp only [if_true]
    obtain ⟨b', hb', hs', ⟨rfl, hfails⟩ | hc⟩ := eventAddInternal_spec h mem hev
      (if evTimeout + ioTimeout < b.now then b.now + ioTimeout else evTimeout + ioTimeout) true
    · refine ⟨b', evTimeout, false, hb', hs', hsame, ?_, fun _ _ _ => hfails⟩
      rintro ⟨⟩
    · rw [List.erase_of_not_mem (h.not_mem_active hev rfl)] at hc
      simp only [not_true_eq_false, and_false, if_false, if_true] at hc
      refine ⟨b', _, true, hb', hs', hc, fun _ => ⟨rfl, hio, ?_⟩, ?_⟩
      · show evTimeout + ioTimeout ≤ _ ∧ _ ≤ b.now + ioTimeout
        split <;> omega
      · rintro ⟨⟩
  · rw [if_neg hio]
    refine ⟨b, evTimeout, false, rfl, h, hsame, ?_, fun _ _ hio' => absurd hio' hio⟩
    rintro ⟨⟩

/-- **Processing the first active event**, up to its callback: it is off the queue, and if it is
persistent with a timeout, pending again. -/
theorem processFirst_spec (h : Sound b) (mem : MinHeap.Realloc ℕ) {q : List ℕ}
    (hq : b.activequeue = e :: q) (hev : b.events e = some ev) :
    ∃ b' timeout again, b.processFirst mem = some (ev.evArg, b') ∧ Sound b' ∧
      Changes b e (some { ev with onActive := false, onTimeout := again, evTimeout := timeout }) q b' ∧
      Again mem b.now ev again timeout := by
  have ha : ev.onActive = true := by
    have hmem : e ∈ b.activequeue := by
      rw [hq]
      exact List.mem_cons_self
    obtain ⟨_, hev', hactive⟩ := (h.mem_active e).mp hmem
    cases hev.symm.trans hev'
    exact hactive
  have ht := h.apart e ev hev ha
  obtain ⟨hres, hdue⟩ := h.due e ev hev ha
  have herase : b.activequeue.erase e = q := by
    rw [hq, List.erase_cons_head]
  obtain ⟨evTimeout, ioTimeout, persist, onTimeout, onActive, res, arg⟩ := ev
  simp only at ha ht hres
  subst ha ht hres
  simp only [processFirst, hq, List.head?_cons, hev, Option.bind_eq_bind, Option.bind_some]
  cases persist with
  | true =>
      obtain ⟨b₁, hb₁, hs₁, hc₁, -⟩ := removeActive_spec h hev rfl
      obtain ⟨b', timeout, again, hb', hs', hc', hagain⟩ :=
        persistClosure_spec hs₁ mem hc₁.self rfl rfl rfl rfl (hdue.trans_eq hc₁.now_eq.symm)
      have hc := hc₁.trans hc'
      rw [hc₁.activequeue_eq, herase] at hc
      rw [hc₁.now_eq] at hagain
      refine ⟨b', timeout, again, ?_, hs', hc, hagain.1, hagain.2⟩
      rw [if_pos rfl, hb₁, Option.bind_some, onFlag, if_pos rfl, hb', Option.bind_some, hc.self,
        Option.bind_some]
  | false =>
      obtain ⟨b', hb', hs', hc⟩ := eventDelInternal_spec h hev
      rw [herase] at hc
      refine ⟨b', evTimeout, false, ?_, hs', hc, ?_, ?_⟩
      · rw [if_neg Bool.false_ne_true, hb', Option.bind_some, onFlag, if_neg Bool.false_ne_true,
          Option.bind_some, hc.self, Option.bind_some]
      · rintro ⟨⟩
      · rintro - ⟨⟩

end EventBase

end CocInside.LibEvent
