import CocInside.Lib.Runs
import Mathlib.Data.Fintype.Basic
import Mathlib.Logic.Function.Basic

/-!
# `System::MsgQueue`: the double-buffered message queue

`System/MsgQueue.h` keeps two vectors, an index `_currQueue` saying which of them the producers
append to, a manual-reset event and a mutex. `fetchMsg()` flips the index and hands the vector
that was current to the consumer, who iterates over it and clears it with `fetchEnd`, outside the
mutex.

* `MsgQueue` and its methods, as pure functions on the shared state.
* `Sys`, `Act`, `machine`: any number of producers (`pushMsg`, or `pushLock` / `pushMsgNoLock` /
  `pushUnlock`) and one consumer (`fetchMsg()` or `fetchMsg(milli)`, then the iteration, then
  `fetchEnd`) as a machine in the sense of `CocInside.Lib.Runs`. A mutex-protected section is one
  step; `Event::tryWait`, `Event::reset`, the iteration and `fetchEnd` are steps of their own.
* `Owned`: the ownership invariant. The vector the consumer holds is never the current one, and
  the vector that is neither current nor held is empty.
* `machine_delivery`: nothing is lost, duplicated or reordered.
-/

namespace CocInside.System

open CocInside.Lib

/-! ## The shared state and its methods -/

/-- The state of a `MsgQueue<T>`. The index `_currQueue` only takes the values 0 and 1.
Source: `System/MsgQueue.h`, the private members of `MsgQueue` -/
structure MsgQueue (T : Type) where
  /-- `_currQueue`: the vector producers append to. -/
  currQueue : Fin 2
  /-- The state of `_event`, a manual-reset event (`_event(false)`). -/
  event : Bool
  /-- `_msgQueue[2]`. -/
  msgQueue : Fin 2 → List T

namespace MsgQueue

variable {T : Type}

/-- The constructor: index 0, event not signalled, both vectors empty.
Source: `System/MsgQueue.h`, `MsgQueue::MsgQueue` -/
def empty : MsgQueue T where
  currQueue := 0
  event := false
  msgQueue _ := []

/-- The contents of the current vector. -/
def current (q : MsgQueue T) : List T := q.msgQueue q.currQueue

/-- `pushMsgNoLock`: append to the current vector; the event is not touched.
Source: `System/MsgQueue.h`, `pushMsgNoLock` -/
def pushMsgNoLock (q : MsgQueue T) (data : T) : MsgQueue T :=
  { q with msgQueue := Function.update q.msgQueue q.currQueue (q.current ++ [data]) }

/-- `pushMsg`: append to the current vector and set the event, under the mutex.
Source: `System/MsgQueue.h`, `pushMsg` -/
def pushMsg (q : MsgQueue T) (data : T) : MsgQueue T :=
  { q.pushMsgNoLock data with event := true }

/-- The locked section of `fetchMsg()`: `NULL` if the current vector is empty; otherwise flip the
index and return the vector at `1 - _currQueue`, computed after the flip.
Source: `System/MsgQueue.h`, `fetchMsg()` -/
def fetchMsg (q : MsgQueue T) : Option (Fin 2) × MsgQueue T :=
  if q.current = [] then (none, q)
  else
    let q' := { q with currQueue := 1 - q.currQueue }
    (some (1 - q'.currQueue), q')

/-- `fetchEnd(q)`: clear the vector it is given.
Source: `System/MsgQueue.h`, `fetchEnd` -/
def fetchEnd (q : MsgQueue T) (i : Fin 2) : MsgQueue T :=
  { q with msgQueue := Function.update q.msgQueue i [] }

/-- `_event.tryWait(milli)` on a manual-reset event, as one step: it reports whether the event is
signalled and leaves it as it is.
Source: `System/Unix/EventImpl.cpp`, `EventImpl::waitImpl(long)` with `_auto` false -/
def tryWait (q : MsgQueue T) : Bool := q.event

/-- `_event.reset()`.
Source: `System/Unix/EventImpl.h`, `EventImpl::resetImpl` -/
def reset (q : MsgQueue T) : MsgQueue T := { q with event := false }

end MsgQueue

/-- Flipping the index twice gives it back. -/
@[simp] lemma flip_flip (i : Fin 2) : 1 - (1 - i) = i := by
  revert i
  decide

/-- The flipped index is another one. -/
lemma flip_ne (i : Fin 2) : 1 - i ≠ i := by
  revert i
  decide

/-- There are only two vectors. -/
lemma eq_flip_of_ne {i j : Fin 2} (h : i ≠ j) : i = 1 - j := by
  revert i j
  decide

/-! ### What each method does to the two vectors -/

namespace MsgQueue

variable {T : Type}

/-- A push does not change which queue is filled. -/
@[simp] lemma pushMsgNoLock_currQueue (q : MsgQueue T) (d : T) :
    (q.pushMsgNoLock d).currQueue = q.currQueue := rfl

/-- A push without the lock does not set the event. -/
@[simp] lemma pushMsgNoLock_event (q : MsgQueue T) (d : T) :
    (q.pushMsgNoLock d).event = q.event := rfl

/-- The message is put at the end of the queue that is filled. -/
@[simp] lemma pushMsgNoLock_current (q : MsgQueue T) (d : T) :
    (q.pushMsgNoLock d).current = q.current ++ [d] := by
  simp [current, pushMsgNoLock]

/-- A push leaves every vector but the current one alone. -/
lemma pushMsgNoLock_msgQueue_of_ne (q : MsgQueue T) (d : T) {i : Fin 2} (h : i ≠ q.currQueue) :
    (q.pushMsgNoLock d).msgQueue i = q.msgQueue i := by
  simp [pushMsgNoLock, h]

/-- A push does not change which queue is filled. -/
@[simp] lemma pushMsg_currQueue (q : MsgQueue T) (d : T) :
    (q.pushMsg d).currQueue = q.currQueue := rfl

/-- A push sets the event. -/
@[simp] lemma pushMsg_event (q : MsgQueue T) (d : T) : (q.pushMsg d).event = true := rfl

/-- The message is put at the end of the queue that is filled. -/
@[simp] lemma pushMsg_current (q : MsgQueue T) (d : T) :
    (q.pushMsg d).current = q.current ++ [d] := pushMsgNoLock_current q d

/-- `pushMsg` too leaves every vector but the current one alone. -/
lemma pushMsg_msgQueue_of_ne (q : MsgQueue T) (d : T) {i : Fin 2} (h : i ≠ q.currQueue) :
    (q.pushMsg d).msgQueue i = q.msgQueue i := pushMsgNoLock_msgQueue_of_ne q d h

/-- `fetchMsg()` on an empty current vector. -/
lemma fetchMsg_of_nil {q : MsgQueue T} (h : q.current = []) : q.fetchMsg = (none, q) := by
  simp [fetchMsg, h]

/-- `fetchMsg()` on a non-empty current vector hands out exactly that vector. -/
lemma fetchMsg_of_ne_nil {q : MsgQueue T} (h : q.current ≠ []) :
    q.fetchMsg = (some q.currQueue, { q with currQueue := 1 - q.currQueue }) := by
  simp [fetchMsg, h]

/-- The end of a fetch does not change which queue is filled. -/
@[simp] lemma fetchEnd_currQueue (q : MsgQueue T) (i : Fin 2) :
    (q.fetchEnd i).currQueue = q.currQueue := rfl

/-- The end of a fetch clears the queue that was fetched. -/
@[simp] lemma fetchEnd_msgQueue_self (q : MsgQueue T) (i : Fin 2) :
    (q.fetchEnd i).msgQueue i = [] := by
  simp [fetchEnd]

/-- The other queue is left alone. -/
lemma fetchEnd_msgQueue_of_ne (q : MsgQueue T) {i j : Fin 2} (h : j ≠ i) :
    (q.fetchEnd i).msgQueue j = q.msgQueue j := by
  simp [fetchEnd, h]

/-- A reset clears the event only. -/
@[simp] lemma reset_current (q : MsgQueue T) : q.reset.current = q.current := rfl

end MsgQueue

/-! ## Producers and the consumer -/

/-- Where the consumer is. -/
inductive Phase where
  /-- Outside every method of the queue. -/
  | idle
  /-- Inside `fetchMsg(milli)`, `_event.tryWait` has returned true. -/
  | waited
  /-- Inside `fetchMsg(milli)`, `fetchMsg()` has returned and `_event.reset` has not run yet. -/
  | fetched (r : Option (Fin 2))
  /-- Holding the vector a fetch returned, not yet iterated over. -/
  | holding (i : Fin 2)
  /-- Done iterating, before `fetchEnd`. -/
  | iterated (i : Fin 2)
  deriving DecidableEq, Repr

namespace Phase

/-- The vector the consumer has a pointer to. -/
def held : Phase → Option (Fin 2)
  | idle | waited => none
  | fetched r => r
  | holding i | iterated i => some i

/-- The vector the consumer has been given but has not iterated over. -/
def unread : Phase → Option (Fin 2)
  | idle | waited | iterated _ => none
  | fetched r => r
  | holding i => some i

/-- The consumer is inside `fetchMsg(milli)`. -/
def InFetch : Phase → Prop
  | waited | fetched _ => True
  | idle | holding _ | iterated _ => False

instance : DecidablePred InFetch
  | waited | fetched _ => .isTrue trivial
  | idle | holding _ | iterated _ => .isFalse id

/-- Where the consumer is once it has the result of a fetch in hand. -/
def ofResult : Option (Fin 2) → Phase
  | none => idle
  | some i => holding i

end Phase

/-- The whole system. `pushed` and `iteratedOver` only record what happened: every message in
push order, and every vector the consumer iterated over. -/
structure Sys (P T : Type) where
  queue : MsgQueue T
  /-- The producer inside `pushLock` … `pushUnlock`, if any. -/
  holder : Option P
  consumer : Phase
  pushed : List T
  iteratedOver : List (List T)

/-- One atomic step of a producer or of the consumer. -/
inductive Act (P T : Type) where
  | pushMsg (p : P) (data : T)
  | pushLock (p : P)
  | pushMsgNoLock (p : P) (data : T)
  | pushUnlock (p : P)
  | tryWait
  | fetchMsg
  | reset
  | iterate
  | fetchEnd
  deriving DecidableEq

namespace Sys

variable {P T : Type}

/-- Everything empty, nobody inside. -/
def start : Sys P T where
  queue := MsgQueue.empty
  holder := none
  consumer := .idle
  pushed := []
  iteratedOver := []

/-- The step function. A step that needs the mutex is refused while a producer is between
`pushLock` and `pushUnlock`; the consumer follows its protocol and calls `fetchEnd` before the
next fetch.
Source: `System/MsgQueue.h` -/
def step [DecidableEq P] (s : Sys P T) : Act P T → Option (Sys P T)
  | .pushMsg _ d =>
      if s.holder = none then
        some { s with queue := s.queue.pushMsg d, pushed := s.pushed ++ [d] }
      else none
  | .pushLock p => if s.holder = none then some { s with holder := some p } else none
  | .pushMsgNoLock p d =>
      if s.holder = some p then
        some { s with queue := s.queue.pushMsgNoLock d, pushed := s.pushed ++ [d] }
      else none
  | .pushUnlock p => if s.holder = some p then some { s with holder := none } else none
  | .tryWait =>
      -- a false result leaves `fetchMsg(milli)` at once, with `NULL`
      if s.consumer = .idle then
        some { s with consumer := if s.queue.tryWait then .waited else .idle }
      else none
  | .fetchMsg =>
      if s.holder = none then
        match s.consumer with
        | .idle =>
            some { s with queue := s.queue.fetchMsg.2, consumer := .ofResult s.queue.fetchMsg.1 }
        | .waited =>
            some { s with queue := s.queue.fetchMsg.2, consumer := .fetched s.queue.fetchMsg.1 }
        | _ => none
      else none
  | .reset =>
      match s.consumer with
      | .fetched r => some { s with queue := s.queue.reset, consumer := .ofResult r }
      | _ => none
  | .iterate =>
      match s.consumer with
      | .holding i =>
          some { s with consumer := .iterated i,
                        iteratedOver := s.iteratedOver ++ [s.queue.msgQueue i] }
      | _ => none
  | .fetchEnd =>
      match s.consumer with
      | .iterated i => some { s with queue := s.queue.fetchEnd i, consumer := .idle }
      | _ => none

/-- The messages the consumer has been given but has not iterated over. -/
def unread (s : Sys P T) : List T :=
  match s.consumer.unread with
  | none => []
  | some i => s.queue.msgQueue i

end Sys

/-- Producers and consumer as a machine. -/
def machine (P T : Type) [DecidableEq P] : Machine (Sys P T) (Act P T) where
  init := Sys.start
  step := Sys.step

/-! ### What a step can do -/

section steps

variable {P T : Type} [DecidableEq P]

/-- The outcomes of a step, one constructor for each way an event can be taken. -/
inductive StepTo : Sys P T → Act P T → Sys P T → Prop where
  | pushMsg {s p d} (free : s.holder = none) :
      StepTo s (.pushMsg p d) { s with queue := s.queue.pushMsg d, pushed := s.pushed ++ [d] }
  | pushLock {s p} (free : s.holder = none) :
      StepTo s (.pushLock p) { s with holder := some p }
  | pushMsgNoLock {s p d} (mine : s.holder = some p) :
      StepTo s (.pushMsgNoLock p d)
        { s with queue := s.queue.pushMsgNoLock d, pushed := s.pushed ++ [d] }
  | pushUnlock {s p} (mine : s.holder = some p) :
      StepTo s (.pushUnlock p) { s with holder := none }
  | waited {s} (idle : s.consumer = .idle) (set : s.queue.event = true) :
      StepTo s .tryWait { s with consumer := .waited }
  | timeout {s} (idle : s.consumer = .idle) (unset : s.queue.event = false) :
      StepTo s .tryWait s
  | fetchNone {s} (free : s.holder = none) (idle : s.consumer = .idle)
      (nil : s.queue.current = []) : StepTo s .fetchMsg s
  | fetch {s} (free : s.holder = none) (idle : s.consumer = .idle)
      (ne : s.queue.current ≠ []) :
      StepTo s .fetchMsg { s with queue := { s.queue with currQueue := 1 - s.queue.currQueue },
                                  consumer := .holding s.queue.currQueue }
  | fetchNoneWaited {s} (free : s.holder = none) (wait : s.consumer = .waited)
      (nil : s.queue.current = []) :
      StepTo s .fetchMsg { s with consumer := .fetched none }
  | fetchWaited {s} (free : s.holder = none) (wait : s.consumer = .waited)
      (ne : s.queue.current ≠ []) :
      StepTo s .fetchMsg { s with queue := { s.queue with currQueue := 1 - s.queue.currQueue },
                                  consumer := .fetched (some s.queue.currQueue) }
  | reset {s r} (got : s.consumer = .fetched r) :
      StepTo s .reset { s with queue := s.queue.reset, consumer := .ofResult r }
  | iterate {s i} (hold : s.consumer = .holding i) :
      StepTo s .iterate { s with consumer := .iterated i,
                                 iteratedOver := s.iteratedOver ++ [s.queue.msgQueue i] }
  | fetchEnd {s i} (done : s.consumer = .iterated i) :
      StepTo s .fetchEnd { s with queue := s.queue.fetchEnd i, consumer := .idle }

/-- An accepted step has one of the listed outcomes. -/
lemma stepTo_of_step {s t : Sys P T} {a : Act P T} (h : s.step a = some t) : StepTo s a t := by
  cases a with
  | pushMsg p d =>
      simp only [Sys.step, Option.ite_none_right_eq_some, Option.some.injEq] at h
      obtain ⟨free, rfl⟩ := h
      exact .pushMsg free
  | pushLock p =>
      simp only [Sys.step, Option.ite_none_right_eq_some, Option.some.injEq] at h
      obtain ⟨free, rfl⟩ := h
      exact .pushLock free
  | pushMsgNoLock p d =>
      simp only [Sys.step, Option.ite_none_right_eq_some, Option.some.injEq] at h
      obtain ⟨mine, rfl⟩ := h
      exact .pushMsgNoLock mine
  | pushUnlock p =>
      simp only [Sys.step, Option.ite_none_right_eq_some, Option.some.injEq] at h
      obtain ⟨mine, rfl⟩ := h
      exact .pushUnlock mine
  | tryWait =>
      simp only [Sys.step, Option.ite_none_right_eq_some, Option.some.injEq] at h
      obtain ⟨idle, rfl⟩ := h
      cases hev : s.queue.event with
      | true => simpa [MsgQueue.tryWait, hev] using StepTo.waited idle hev
      | false => simpa [MsgQueue.tryWait, hev, ← idle] using StepTo.timeout idle hev
  | fetchMsg =>
      simp only [Sys.step, Option.ite_none_right_eq_some] at h
      obtain ⟨free, h⟩ := h
      by_cases hnil : s.queue.current = []
      · rw [MsgQueue.fetchMsg_of_nil hnil] at h
        split at h
        · next idle =>
            cases h
            simpa [Phase.ofResult, ← idle] using StepTo.fetchNone free idle hnil
        · next wait =>
            cases h
            exact .fetchNoneWaited free wait hnil
        · cases h
      · rw [MsgQueue.fetchMsg_of_ne_nil hnil] at h
        split at h
        · next idle =>
            cases h
            exact .fetch free idle hnil
        · next wait =>
            cases h
            exact .fetchWaited free wait hnil
        · cases h
  | reset =>
      simp only [Sys.step] at h
      split at h
      · next got =>
          cases h
          exact .reset got
      · cases h
  | iterate =>
      simp only [Sys.step] at h
      split at h
      · next hold =>
          cases h
          exact .iterate hold
      · cases h
  | fetchEnd =>
      simp only [Sys.step] at h
      split at h
      · next done =>
          cases h
          exact .fetchEnd done
      · cases h

end steps

/-! ## Ownership -/

section ownership

variable {P T : Type}

/-- The ownership invariant: the vector the consumer holds is not the current one, the vector
that is neither held nor current is empty, and every message is where it should be. -/
structure Owned (s : Sys P T) : Prop where
  held_ne : ∀ i, s.consumer.held = some i → i ≠ s.queue.currQueue
  spare_nil : s.consumer.held = none → s.queue.msgQueue (1 - s.queue.currQueue) = []
  account : s.pushed = s.iteratedOver.flatten ++ s.unread ++ s.queue.current

/-- A push keeps ownership, with or without the event. -/
lemma Owned.push {s : Sys P T} (h : Owned s) (d : T) (ev : Bool) :
    Owned { s with queue := { s.queue.pushMsgNoLock d with event := ev },
                   pushed := s.pushed ++ [d] } := by
  refine ⟨h.held_ne, ?_, ?_⟩
  · intro hn
    exact (MsgQueue.pushMsgNoLock_msgQueue_of_ne s.queue d (flip_ne _)).trans (h.spare_nil hn)
  · have hcur : ({ s.queue.pushMsgNoLock d with event := ev } : MsgQueue T).current =
        s.queue.current ++ [d] := MsgQueue.pushMsgNoLock_current s.queue d
    have hunread : Sys.unread { s with
        queue := { s.queue.pushMsgNoLock d with event := ev },
        pushed := s.pushed ++ [d] } = s.unread := by
      simp only [Sys.unread]
      cases hu : s.consumer.unread with
      | none => rfl
      | some i =>
          have hheld : s.consumer.held = some i := by
            cases hc : s.consumer <;> simp_all [Phase.unread, Phase.held]
          exact MsgQueue.pushMsgNoLock_msgQueue_of_ne s.queue d (h.held_ne i hheld)
    rw [hcur, hunread]
    simp [h.account]

/-- A fetch that returns a vector moves the current messages into the consumer's hands. -/
lemma Owned.fetch {s : Sys P T} (h : Owned s) (hheld : s.consumer.held = none)
    (hunread : s.consumer.unread = none) {c : Phase} (hc : c.held = some s.queue.currQueue)
    (hcu : c.unread = some s.queue.currQueue) :
    Owned { s with queue := { s.queue with currQueue := 1 - s.queue.currQueue },
                   consumer := c } := by
  refine ⟨?_, ?_, ?_⟩
  · intro i hi
    have hieq : i = s.queue.currQueue := Option.some.inj (hi.symm.trans hc)
    subst hieq
    exact (flip_ne _).symm
  · intro hn
    exact absurd (hn.symm.trans hc) (by simp)
  · have hspare := h.spare_nil hheld
    have hacc := h.account
    simp only [Sys.unread, hunread, MsgQueue.current] at hacc
    simp [Sys.unread, hcu, MsgQueue.current, hspare, hacc]

variable [DecidableEq P]

/-- **Step lemma**: every step keeps ownership. -/
lemma Owned.step {s t : Sys P T} {a : Act P T} (h : Owned s) (hst : s.step a = some t) :
    Owned t := by
  cases stepTo_of_step hst with
  | pushMsg free => exact h.push _ true
  | pushLock free => exact ⟨h.held_ne, h.spare_nil, h.account⟩
  | pushMsgNoLock mine => exact h.push _ s.queue.event
  | pushUnlock mine => exact ⟨h.held_ne, h.spare_nil, h.account⟩
  | waited idle set =>
      have hspare := h.spare_nil (by simp [idle, Phase.held])
      have hacc := h.account
      simp only [Sys.unread, idle, Phase.unread] at hacc
      exact ⟨by simp [Phase.held], fun _ => hspare, by simpa [Sys.unread, Phase.unread] using hacc⟩
  | timeout idle unset => exact h
  | fetchNone free idle nil => exact h
  | fetch free idle ne =>
      exact h.fetch (by simp [idle, Phase.held]) (by simp [idle, Phase.unread]) rfl rfl
  | fetchNoneWaited free wait nil =>
      have hspare := h.spare_nil (by simp [wait, Phase.held])
      have hacc := h.account
      simp only [Sys.unread, wait, Phase.unread] at hacc
      exact ⟨by simp [Phase.held], fun _ => hspare, by simpa [Sys.unread, Phase.unread] using hacc⟩
  | fetchWaited free wait ne =>
      exact h.fetch (by simp [wait, Phase.held]) (by simp [wait, Phase.unread]) rfl rfl
  | @reset r got =>
      have hheld : (Phase.ofResult r).held = s.consumer.held := by
        cases r <;> simp [got, Phase.ofResult, Phase.held]
      have hunread : (Phase.ofResult r).unread = s.consumer.unread := by
        cases r <;> simp [got, Phase.ofResult, Phase.unread]
      refine ⟨fun i hi => h.held_ne i (hheld ▸ hi), fun hn => h.spare_nil (hheld ▸ hn), ?_⟩
      have hacc := h.account
      simp only [Sys.unread] at hacc
      simpa [Sys.unread, hunread, MsgQueue.current, MsgQueue.reset] using hacc
  | @iterate i hold =>
      refine ⟨fun j hj => h.held_ne j (by simpa [hold, Phase.held] using hj), by simp [Phase.held], ?_⟩
      have hacc := h.account
      simp only [Sys.unread, hold, Phase.unread] at hacc
      simpa [Sys.unread, Phase.unread] using hacc
  | @fetchEnd i done =>
      have hne := h.held_ne i (by simp [done, Phase.held])
      have hi : i = 1 - s.queue.currQueue := eq_flip_of_ne hne
      have hacc := h.account
      simp only [Sys.unread, done, Phase.unread] at hacc
      refine ⟨by simp [Phase.held], ?_, ?_⟩
      · intro _
        simp [← hi]
      · have hcur : (s.queue.fetchEnd i).current = s.queue.current :=
          MsgQueue.fetchEnd_msgQueue_of_ne s.queue hne.symm
        simpa [Sys.unread, Phase.unread, hcur] using hacc

/-- **Run lemma**: ownership holds in every reachable state. -/
theorem owned_of_run {es : List (Act P T)} {s : Sys P T} (h : (machine P T).run es = some s) :
    Owned s := by
  refine (machine P T).run_invariant ?_ (fun s a t hs hst => hs.step hst) h
  exact ⟨by simp [machine, Sys.start, Phase.held], fun _ => rfl, rfl⟩

/-- **Delivery.** In every reachable state no push changes the vector the consumer holds; what
the consumer iterated over is a prefix of what was pushed, in order; what follows it is exactly
the vector handed out and not yet iterated over (there is one only between a fetch and the
iteration) and the current queue. -/
theorem machine_delivery (es : List (Act P T)) (s : Sys P T)
    (h : (machine P T).run es = some s) :
    (∀ a t, s.step a = some t → (∃ p d, a = .pushMsg p d ∨ a = .pushMsgNoLock p d) →
      ∀ i, s.consumer.held = some i → t.queue.msgQueue i = s.queue.msgQueue i) ∧
    s.iteratedOver.flatten <+: s.pushed ∧
    s.pushed = s.iteratedOver.flatten ++ s.unread ++ s.queue.current ∧
    (s.consumer.unread = none → s.pushed = s.iteratedOver.flatten ++ s.queue.current) := by
  have ho := owned_of_run h
  refine ⟨?_, ?_, ho.account, ?_⟩
  · rintro a t hst ⟨p, d, rfl | rfl⟩ i hi
    · cases stepTo_of_step hst
      exact MsgQueue.pushMsg_msgQueue_of_ne s.queue d (ho.held_ne i hi)
    · cases stepTo_of_step hst
      exact MsgQueue.pushMsgNoLock_msgQueue_of_ne s.queue d (ho.held_ne i hi)
  · exact ⟨s.unread ++ s.queue.current, by rw [ho.account, List.append_assoc]⟩
  · intro hn
    simpa [Sys.unread, hn] using ho.account

/-- Two producers and the consumer, stopped between a fetch and the iteration: the second message
was pushed while the first was in the consumer's hands. -/
theorem machine_delivery_two_producers :
    ∃ s, (machine ℕ ℕ).run [.pushMsg 0 7, .fetchMsg, .pushLock 1, .pushMsgNoLock 1 8] = some s ∧
      s.unread = [7] ∧ s.pushed = s.iteratedOver.flatten ++ s.unread ++ s.queue.current :=
  ⟨_, rfl, rfl, (machine_delivery
    [.pushMsg 0 7, .fetchMsg, .pushLock 1, .pushMsgNoLock 1 8] _ rfl).2.2.1⟩

end ownership

end CocInside.System
