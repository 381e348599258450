import CocInside.System.MsgQueue

/-!
# `System::MsgQueue`: when a wake-up is lost

`fetchMsg(milli)` waits for the event, runs `fetchMsg()` under the mutex and then resets the
event, after and outside the critical section; `pushMsgNoLock` never sets the event. So a pending
message is announced by the event only if no message is pushed between the locked section and the
reset, and none is pushed without the event being set already.

* `Announced`: with the consumer outside `fetchMsg(milli)` and no producer inside the lock, a
  non-empty current queue has its event set.
* `Announces`: the condition on a step, read off the state before it.
* `announced_of_meets`: in every run whose steps all meet `Announces`, every state is `Announced`;
  and a reachable step that does not meet it is followed, after the reset and the unlock that are
  already due, by a state that is not.
-/

namespace CocInside.System

open CocInside.Lib

variable {P T : Type}

/-- A pending message is announced: outside `fetchMsg(milli)` and with the lock free, a non-empty
current queue has the event signalled. -/
def Announced (s : Sys P T) : Prop :=
  ¬ s.consumer.InFetch → s.holder = none → s.queue.current ≠ [] → s.queue.event = true

/-- The consumer is between the locked section of `fetchMsg()` and `_event.reset`. -/
def Phase.AwaitsReset : Phase → Prop
  | fetched _ => True
  | idle | waited | holding _ | iterated _ => False

/-- What a push has to meet for its message to be announced: the consumer is not between the
locked section of its fetch and the reset, and a push without the event finds the event set. -/
def Announces (s : Sys P T) : Act P T → Prop
  | .pushMsg _ _ => ¬ s.consumer.AwaitsReset
  | .pushMsgNoLock _ _ => ¬ s.consumer.AwaitsReset ∧ s.queue.event = true
  | _ => True

/-- What holds along a run of announcing steps. -/
structure WakeInv (s : Sys P T) : Prop where
  owned : Owned s
  /-- A consumer that has waited but not fetched left the event set. -/
  waited_set : s.consumer = .waited → s.queue.event = true
  /-- Nothing is pushed between the fetch and the reset. -/
  fetched_nil : s.consumer.AwaitsReset → s.queue.current = []
  /-- Elsewhere a pending message is announced, whether or not the lock is held. -/
  set_of_ne_nil : ¬ s.consumer.AwaitsReset → s.queue.current ≠ [] → s.queue.event = true

/-- The invariant gives the property. -/
lemma WakeInv.announced {s : Sys P T} (h : WakeInv s) : Announced s := by
  intro hout _ hne
  refine h.set_of_ne_nil (fun hr => hout ?_) hne
  cases hc : s.consumer <;> simp_all [Phase.AwaitsReset, Phase.InFetch]

/-- After a fetch that returned a vector the current queue is the spare one, which is empty. -/
lemma Owned.current_nil_of_fetch {s : Sys P T} (h : Owned s) (hheld : s.consumer.held = none) :
    ({ s.queue with currQueue := 1 - s.queue.currQueue } : MsgQueue T).current = [] :=
  h.spare_nil hheld

/-- Where a fetch leaves the consumer it is outside `fetchMsg(milli)`. -/
lemma not_inFetch_ofResult (r : Option (Fin 2)) : ¬ (Phase.ofResult r).InFetch := by
  cases r <;> simp [Phase.ofResult, Phase.InFetch]

/-- Only a finished fetch awaits its reset. -/
lemma Phase.AwaitsReset.exists_eq {c : Phase} (h : c.AwaitsReset) : ∃ r, c = .fetched r := by
  cases c with
  | fetched r => exact ⟨r, rfl⟩
  | _ => exact absurd h id

/-- A state with a pending message and the event not set is not `Announced`. -/
lemma not_announced {s : Sys P T} (hout : ¬ s.consumer.InFetch) (hfree : s.holder = none)
    (hne : s.queue.current ≠ []) (hev : s.queue.event = false) : ¬ Announced s := by
  intro han
  have hset := han hout hfree hne
  rw [hev] at hset
  cases hset

variable [DecidableEq P]

/-- **Step lemma**: an announcing step keeps the invariant. -/
lemma WakeInv.step {s t : Sys P T} {a : Act P T} (h : WakeInv s) (hok : Announces s a)
    (hst : s.step a = some t) : WakeInv t := by
  have ho := h.owned.step hst
  cases stepTo_of_step hst with
  | pushMsg free => exact ⟨ho, fun _ => rfl, fun hr => absurd hr hok, fun _ _ => rfl⟩
  | pushLock free => exact ⟨ho, h.waited_set, h.fetched_nil, h.set_of_ne_nil⟩
  | pushMsgNoLock mine =>
      exact ⟨ho, fun _ => hok.2, fun hr => absurd hr hok.1, fun _ _ => hok.2⟩
  | pushUnlock mine => exact ⟨ho, h.waited_set, h.fetched_nil, h.set_of_ne_nil⟩
  | waited idle set =>
      exact ⟨ho, fun _ => set, fun hr => absurd hr (by simp [Phase.AwaitsReset]), fun _ _ => set⟩
  | timeout idle unset => exact h
  | fetchNone free idle nil => exact h
  | fetch free idle ne =>
      have hnil := h.owned.current_nil_of_fetch (by simp [idle, Phase.held])
      exact ⟨ho, by simp, fun _ => hnil, fun _ hne => absurd hnil hne⟩
  | fetchNoneWaited free wait nil =>
      exact ⟨ho, by simp, fun _ => nil, fun _ hne => absurd nil hne⟩
  | fetchWaited free wait ne =>
      have hnil := h.owned.current_nil_of_fetch (by simp [wait, Phase.held])
      exact ⟨ho, by simp, fun _ => hnil, fun _ hne => absurd hnil hne⟩
  | @reset r got =>
      have hnil : s.queue.reset.current = [] := h.fetched_nil (by simp [got, Phase.AwaitsReset])
      refine ⟨ho, ?_, fun _ => hnil, fun _ hne => absurd hnil hne⟩
      intro hw
      cases r <;> simp [Phase.ofResult] at hw
  | @iterate i hold =>
      have hset := h.set_of_ne_nil (by simp [hold, Phase.AwaitsReset])
      exact ⟨ho, by simp, fun hr => absurd hr (by simp [Phase.AwaitsReset]), fun _ => hset⟩
  | @fetchEnd i done =>
      have hset := h.set_of_ne_nil (by simp [done, Phase.AwaitsReset])
      have hcur : (s.queue.fetchEnd i).current = s.queue.current :=
        MsgQueue.fetchEnd_msgQueue_of_ne s.queue
          (h.owned.held_ne i (by simp [done, Phase.held])).symm
      refine ⟨ho, by simp, fun hr => absurd hr (by simp [Phase.AwaitsReset]), ?_⟩
      intro _ hne
      exact hset (hcur ▸ hne)

/-- The start is quiet. -/
lemma wakeInv_start : WakeInv (Sys.start : Sys P T) :=
  ⟨@owned_of_run P T _ [] _ rfl, by simp [Sys.start], fun _ => rfl, fun _ hne => absurd rfl hne⟩

/-! ## A push that is not announced -/

/-- A consumer inside `fetchMsg(milli)` has found the event set, and nobody else resets it. -/
lemma event_of_inFetch {es : List (Act P T)} {s : Sys P T}
    (h : (machine P T).run es = some s) : s.consumer.InFetch → s.queue.event = true := by
  refine (machine P T).run_invariant (I := fun s => s.consumer.InFetch → s.queue.event = true)
    (by simp [machine, Sys.start, Phase.InFetch]) (fun s a t hs hst => ?_) h
  cases stepTo_of_step hst with
  | pushMsg free => exact fun _ => rfl
  | pushLock free => exact hs
  | pushMsgNoLock mine => exact hs
  | pushUnlock mine => exact hs
  | waited idle set => exact fun _ => set
  | timeout idle unset => exact hs
  | fetchNone free idle nil => exact hs
  | fetch free idle ne => exact fun hin => absurd hin (by simp [Phase.InFetch])
  | fetchNoneWaited free wait nil => exact fun _ => hs (by simp [wait, Phase.InFetch])
  | fetchWaited free wait ne => exact fun _ => hs (by simp [wait, Phase.InFetch])
  | @reset r got => cases r <;> exact fun hin => absurd hin (by simp [Phase.ofResult, Phase.InFetch])
  | iterate hold => exact fun hin => absurd hin (by simp [Phase.InFetch])
  | fetchEnd done => exact fun hin => absurd hin (by simp [Phase.InFetch])

/-- A push that does not meet `Announces` loses its wake-up: the reset and the unlock that are
already due lead to a state with a pending message and the event not set. -/
lemma exists_not_announced {es : List (Act P T)} {s t : Sys P T} {a : Act P T}
    (hrun : (machine P T).run es = some s) (hst : s.step a = some t) (hbad : ¬ Announces s a) :
    ∃ fs u, (machine P T).runFrom t fs = some u ∧ ¬ Announced u := by
  cases stepTo_of_step hst with
  | @pushMsg p d free =>
      obtain ⟨r, hr⟩ := Phase.AwaitsReset.exists_eq (not_not.mp hbad)
      refine ⟨[.reset], { s with queue := (s.queue.pushMsg d).reset, consumer := .ofResult r,
                                 pushed := s.pushed ++ [d] }, ?_, ?_⟩
      · simp [Machine.runFrom, machine, Sys.step, hr]
      · exact not_announced (not_inFetch_ofResult r) free (by simp) rfl
  | @pushMsgNoLock p d mine =>
      by_cases hc : s.consumer.AwaitsReset
      · obtain ⟨r, hr⟩ := hc.exists_eq
        refine ⟨[.reset, .pushUnlock p],
          { s with queue := (s.queue.pushMsgNoLock d).reset, holder := none,
                   consumer := .ofResult r, pushed := s.pushed ++ [d] }, ?_, ?_⟩
        · simp [Machine.runFrom, machine, Sys.step, hr, mine]
        · exact not_announced (not_inFetch_ofResult r) rfl (by simp) rfl
      · have hev : s.queue.event = false := by simpa [Announces, hc] using hbad
        -- inside `fetchMsg(milli)` the event would still be set
        have hout : ¬ s.consumer.InFetch := fun hin => by
          rw [event_of_inFetch hrun hin] at hev
          cases hev
        refine ⟨[.pushUnlock p], { s with queue := s.queue.pushMsgNoLock d, holder := none,
                                          pushed := s.pushed ++ [d] }, ?_, ?_⟩
        · simp [Machine.runFrom, machine, Sys.step, mine]
        · exact not_announced hout rfl (by simp) hev
  | _ => exact absurd trivial hbad

/-- **Announcement along whole runs.** In every run whose pushes all meet `Announces`, every state
reached is `Announced`; and the condition is exact in that a reachable step that does not meet it
can be continued to a state that is not `Announced`. -/
theorem announced_of_meets :
    (∀ (es fs : List (Act P T)) (s : Sys P T), (machine P T).Meets Announces (es ++ fs) →
      (machine P T).run es = some s → Announced s) ∧
    (∀ (es : List (Act P T)) (s t : Sys P T) (a : Act P T), (machine P T).run es = some s →
      s.step a = some t → ¬ Announces s a →
      ∃ fs u, (machine P T).runFrom t fs = some u ∧ ¬ Announced u) := by
  refine ⟨?_, fun es s t a hrun hst hbad => exists_not_announced hrun hst hbad⟩
  intro es fs s hok hrun
  have hpre : (machine P T).Meets Announces es := Machine.MeetsFrom.of_append _ hok
  exact ((machine P T).meets_invariant wakeInv_start
    (fun s a t hs ha hst => hs.step ha hst) hpre hrun).announced

/-- A run of announcing steps, stopped with a message pending. -/
theorem announced_of_meets_pushed :
    ∃ s, (machine ℕ ℕ).run [.pushMsg 0 7, .tryWait, .fetchMsg, .reset, .pushMsg 1 8] = some s ∧
      s.queue.current = [8] ∧ Announced s :=
  ⟨_, rfl, rfl, announced_of_meets.1
    [.pushMsg 0 7, .tryWait, .fetchMsg, .reset, .pushMsg 1 8] [] _
    (by simp [Machine.Meets, Machine.MeetsFrom, machine, Sys.step, Sys.start, MsgQueue.empty,
      Announces, Phase.AwaitsReset, MsgQueue.tryWait, MsgQueue.fetchMsg, MsgQueue.current,
      MsgQueue.pushMsg, MsgQueue.pushMsgNoLock, MsgQueue.reset, Phase.ofResult]) rfl⟩

/-- The window between the locked section and the reset: a message pushed there is pending while
the event is not signalled, with the consumer outside `fetchMsg(milli)` and the lock free. -/
theorem lost_wakeup_in_reset_window :
    ¬ ∀ (es : List (Act ℕ ℕ)) (s : Sys ℕ ℕ), (machine ℕ ℕ).run es = some s → Announced s := by
  intro h
  have := h [.pushMsg 0 7, .tryWait, .fetchMsg, .pushMsg 1 8, .reset] _ rfl
  exact absurd (this (by decide) rfl (by decide)) (by decide)

end CocInside.System
