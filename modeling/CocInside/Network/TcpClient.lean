import CocInside.System.MsgQueue
import Mathlib.Data.List.Range
import Mathlib.Tactic.Ring

/-!
# `Network::TcpClient`: submitting actions and running them on the timer

`TcpClient::close` is meant to queue a `TcpActionClose`, and `TcpClient::onRunCheck`, called by
the timer, to run every queued action. In `Network/TcpClient.cpp` the test of `close` is the wrong
way round (it queues the pointer only when the allocation failed) and `onRunCheck` never calls
`fetchEnd`, so a fetched vector keeps its actions and is fetched again two swaps later.

* `TcpClient`, `close`, `pushMsg`, `onRunCheck`: the code. Every submission is given a serial
  number, which stands for the identity of the action object.
* `ExactlyOnce`: along a run, the actions run so far are in submission order without repetition,
  and after a tick that follows the last submission all of them have been run.
* `Sound`: no `close` comes before a tick, and no tick comes after two ticks that found new
  submissions. `exactlyOnce_iff_sound`: the two agree.
-/

namespace CocInside.Network

open CocInside.System

/-! ## The client -/

/-- A pointer to an action object: `serial` is its identity, `action` what it does. -/
structure ActionPtr (A : Type) where
  serial : ℕ
  action : A

/-- The members of `TcpClient` that actions go through. `submitted` counts submissions and `ran`
records what `onRunCheck` ran; both are bookkeeping of the model.
Source: `CocTest/Classes/Network/TcpClient.h`, `TcpClient` -/
structure TcpClient (A : Type) where
  /-- `_running`. -/
  running : Bool
  /-- The `MsgQueue<TcpAction *>` base; `none` is the null pointer. -/
  queue : MsgQueue (Option (ActionPtr A))
  /-- `event_base_loopbreak` has been called. -/
  loopbreak : Bool
  submitted : ℕ
  ran : List (ActionPtr A)

namespace TcpClient

variable {A : Type}

/-- A client inside `loop()`, nothing submitted. -/
def start : TcpClient A where
  running := true
  queue := MsgQueue.empty
  loopbreak := false
  submitted := 0
  ran := []

/-- The next submission, as an object of its own. -/
def next (c : TcpClient A) (a : A) : ActionPtr A := ⟨c.submitted, a⟩

/-- Submitting an action with `pushMsg`.
Source: `System/MsgQueue.h`, `pushMsg` -/
def pushMsg (c : TcpClient A) (a : A) : TcpClient A :=
  { c with queue := c.queue.pushMsg (some (c.next a)), submitted := c.submitted + 1 }

/-- `close(id)`: allocate a `TcpActionClose` (`alloc` says whether `new(std::nothrow)` succeeds)
and push it if the pointer is null.
Source: `CocTest/Classes/Network/TcpClient.cpp`, `TcpClient::close` -/
def close (mkClose : UInt32 → A) (alloc : Bool) (c : TcpClient A) (id : UInt32) : TcpClient A :=
  let ac : Option (ActionPtr A) := if alloc then some (c.next (mkClose id)) else none
  if ac.isNone then { c with queue := c.queue.pushMsg ac, submitted := c.submitted + 1 }
  else { c with submitted := c.submitted + 1 }

/-- `onRunCheck`: fetch a vector and run the non-null pointers in it. There is no `fetchEnd`.
Source: `CocTest/Classes/Network/TcpClient.cpp`, `TcpClient::onRunCheck` -/
def onRunCheck (c : TcpClient A) : TcpClient A :=
  if c.running then
    match c.queue.fetchMsg with
    | (none, q) => { c with queue := q }
    | (some i, q) => { c with queue := q, ran := c.ran ++ (q.msgQueue i).filterMap id }
  else { c with loopbreak := true }

end TcpClient

/-- A submission by one of the two ways, or a timer tick. -/
inductive Ev (A : Type) where
  | pushMsg (a : A)
  | close (id : UInt32)
  | tick

section runs

variable {A : Type} (mkClose : UInt32 → A)

/-- One event; allocation succeeds. -/
def TcpClient.apply (c : TcpClient A) : Ev A → TcpClient A
  | .pushMsg a => c.pushMsg a
  | .close id => c.close mkClose true id
  | .tick => c.onRunCheck

/-- A run from the start. -/
def runEvents (es : List (Ev A)) : TcpClient A := es.foldl (TcpClient.apply mkClose) .start

/-- The serial numbers of the actions run so far. -/
def ranSerials (es : List (Ev A)) : List ℕ := (runEvents mkClose es).ran.map ActionPtr.serial

/-- **Exactly once.** At every point of the run the actions run so far are in submission order and
none is repeated; and whenever the last event is a tick, they are all the actions submitted. -/
def ExactlyOnce (es : List (Ev A)) : Prop :=
  ∀ fs gs, es = fs ++ gs →
    (ranSerials mkClose fs).Pairwise (· < ·) ∧
    (∀ hs, fs = hs ++ [.tick] → ranSerials mkClose fs = List.range (runEvents mkClose fs).submitted)

end runs

/-! ## When the code is right -/

/-- Counting one event: a tick counts if there has been a `pushMsg` since the tick before it. -/
def countBatch {A : Type} (nb : ℕ × Bool) : Ev A → ℕ × Bool
  | .pushMsg _ => (nb.1, true)
  | .close _ => nb
  | .tick => (if nb.2 then nb.1 + 1 else nb.1, false)

/-- How many ticks found a submission by `pushMsg` made since the tick before them, and whether
there has been one since the last tick. -/
def batches {A : Type} (es : List (Ev A)) : ℕ × Bool := es.foldl countBatch (0, false)

/-- No tick comes after a `close`, nor after two ticks that found new submissions. -/
def Sound {A : Type} (es : List (Ev A)) : Prop :=
  ∀ fs gs, es = fs ++ .tick :: gs → (∀ id, .close id ∉ fs) ∧ (batches fs).1 < 2

section batches

variable {A : Type} (es : List (Ev A))

/-- A message makes the next tick fetch a batch. -/
@[simp] lemma batches_snoc_pushMsg (a : A) :
    batches (es ++ [.pushMsg a]) = ((batches es).1, true) := by
  simp [batches, countBatch]

/-- A close fetches no batch. -/
@[simp] lemma batches_snoc_close (id : UInt32) :
    batches (es ++ [.close id]) = batches es := by
  simp [batches, countBatch]

/-- A tick fetches a batch when there was a message. -/
@[simp] lemma batches_snoc_tick :
    batches (es ++ [.tick]) =
      (if (batches es).2 then (batches es).1 + 1 else (batches es).1, false) := by
  unfold batches
  rw [List.foldl_append]
  rfl

variable {es}

/-- A prefix of a sound run is sound. -/
lemma Sound.of_append {fs : List (Ev A)} (h : Sound (es ++ fs)) : Sound es := by
  rintro gs hs rfl
  exact h gs (hs ++ fs) (by simp)

/-- A run extended by one event is sound if it was, and the event, when it is a tick, comes at a
place where ticks may. -/
lemma sound_snoc_iff {e : Ev A} :
    Sound (es ++ [e]) ↔ Sound es ∧ (e = .tick → (∀ id, .close id ∉ es) ∧ (batches es).1 < 2) := by
  constructor
  · intro h
    refine ⟨h.of_append, ?_⟩
    rintro rfl
    exact h es [] rfl
  · rintro ⟨h, hlast⟩ fs gs heq
    rcases List.eq_nil_or_concat gs with rfl | ⟨gs', e', rfl⟩
    · obtain ⟨rfl, he⟩ := List.append_inj' heq rfl
      exact hlast (by simpa using he)
    · have heq' : es ++ [e] = (fs ++ Ev.tick :: gs') ++ [e'] := by simpa using heq
      exact h fs gs' (List.append_inj' heq' rfl).1

end batches

/-! ## The shape of the queue along a sound run -/

section shape

variable {A : Type} (mkClose : UInt32 → A)

/-- What the two vectors hold after `es`: the current one starts with actions that were run
already (`old`) and ends with those submitted since the last tick (`pend`); the other one holds
actions that were run already (`spare`), because nothing clears it. -/
structure Shape (es : List (Ev A)) (c : TcpClient A) (old pend spare : List (ActionPtr A)) :
    Prop where
  running : c.running = true
  current : c.queue.current = (old ++ pend).map some
  other : c.queue.msgQueue (1 - c.queue.currQueue) = spare.map some
  fresh : (batches es).2 = true ↔ pend ≠ []
  sorted : ((c.ran ++ pend).map ActionPtr.serial).Pairwise (· < ·)
  bound : ∀ p ∈ c.ran ++ pend, p.serial < c.submitted
  count_le : (c.ran ++ pend).length ≤ c.submitted
  all : (∀ id, .close id ∉ es) → (c.ran ++ pend).map ActionPtr.serial = List.range c.submitted
  lost : (∃ id, .close id ∈ es) → (c.ran ++ pend).length < c.submitted
  old_ran : old ⊆ c.ran
  spare_ran : spare ⊆ c.ran
  old_nil : old = [] ↔ (batches es).1 < 2
  spare_nil : (batches es).1 = 0 → spare = []
  spare_ne : (batches es).1 = 1 → spare ≠ []

/-- The empty run. -/
lemma Shape.start : Shape (A := A) [] .start [] [] [] := by
  constructor <;> simp [TcpClient.start, MsgQueue.empty, MsgQueue.current, batches]

variable {es : List (Ev A)} {c : TcpClient A} {old pend spare : List (ActionPtr A)}

/-- A `pushMsg` joins the pending actions. -/
lemma Shape.pushMsg (h : Shape es c old pend spare) (a : A) :
    Shape (es ++ [.pushMsg a]) (c.pushMsg a) old (pend ++ [c.next a]) spare where
  running := h.running
  current := by simp [TcpClient.pushMsg, h.current]
  other := by
    rw [← h.other]
    exact MsgQueue.pushMsg_msgQueue_of_ne c.queue _ (flip_ne _)
  fresh := by simp
  sorted := by
    rw [← List.append_assoc, List.map_append]
    refine List.pairwise_append.mpr ⟨h.sorted, by simp, ?_⟩
    intro x hx y hy
    obtain ⟨p, hp, rfl⟩ := List.mem_map.mp hx
    simp only [List.map_cons, List.map_nil, List.mem_singleton] at hy
    subst hy
    exact h.bound p hp
  bound := by
    intro p hp
    rw [← List.append_assoc, List.mem_append, List.mem_singleton] at hp
    simp only [TcpClient.pushMsg]
    rcases hp with hp | rfl
    · exact Nat.lt_succ_of_lt (h.bound p hp)
    · exact Nat.lt_succ_self _
  count_le := by
    have := h.count_le
    simp only [TcpClient.pushMsg, List.length_append, List.length_singleton] at this ⊢
    omega
  all := by
    intro hno
    have hall := h.all fun id hid => hno id (List.mem_append_left _ hid)
    simp only [TcpClient.pushMsg, List.range_succ, ← hall, ← List.append_assoc]
    simp [TcpClient.next]
  lost := by
    rintro ⟨id, hid⟩
    have := h.lost ⟨id, by simpa using hid⟩
    simp only [TcpClient.pushMsg, List.length_append, List.length_singleton] at this ⊢
    omega
  old_ran := h.old_ran
  spare_ran := h.spare_ran
  old_nil := by simpa using h.old_nil
  spare_nil := by simpa using h.spare_nil
  spare_ne := by simpa using h.spare_ne

/-- A `close` whose allocation succeeds changes no vector. -/
lemma Shape.close (h : Shape es c old pend spare) (id : UInt32) :
    Shape (es ++ [.close id]) (c.close mkClose true id) old pend spare where
  running := h.running
  current := h.current
  other := h.other
  fresh := by simpa using h.fresh
  sorted := h.sorted
  bound p hp := Nat.lt_succ_of_lt (h.bound p hp)
  count_le := Nat.le_succ_of_le h.count_le
  all hno := absurd (List.mem_append_right es (List.mem_singleton.mpr rfl)) (hno id)
  lost _ := Nat.lt_succ_of_le h.count_le
  old_ran := h.old_ran
  spare_ran := h.spare_ran
  old_nil := by simpa using h.old_nil
  spare_nil := by simpa using h.spare_nil
  spare_ne := by simpa using h.spare_ne

/-- A tick that finds the current vector empty does nothing. -/
lemma TcpClient.onRunCheck_of_nil (hrun : c.running = true) (hnil : c.queue.current = []) :
    c.onRunCheck = c := by
  unfold onRunCheck
  rw [if_pos hrun, MsgQueue.fetchMsg_of_nil hnil]

/-- A tick that finds actions runs all of them and leaves them where they are. -/
lemma TcpClient.onRunCheck_of_ne_nil (hrun : c.running = true) {l : List (ActionPtr A)}
    (hcur : c.queue.current = l.map some) (hne : l ≠ []) :
    c.onRunCheck = { c with queue := { c.queue with currQueue := 1 - c.queue.currQueue },
                            ran := c.ran ++ l } := by
  have hne' : c.queue.current ≠ [] := by simpa [hcur] using hne
  have hvec : c.queue.msgQueue c.queue.currQueue = l.map some := hcur
  simp [onRunCheck, hrun, MsgQueue.fetchMsg_of_ne_nil hne', hvec, List.filterMap_map]

/-- A tick of a sound run, with nothing pending. -/
lemma Shape.tick_of_nil (h : Shape es c old [] spare) (hn : (batches es).1 < 2) :
    Shape (es ++ [.tick]) c.onRunCheck [] [] spare := by
  have hold := h.old_nil.mpr hn
  subst hold
  have hflag : (batches es).2 = false := by simpa using h.fresh
  rw [TcpClient.onRunCheck_of_nil h.running (by simpa using h.current)]
  constructor
  case all => exact fun hno => h.all fun id hid => hno id (List.mem_append_left _ hid)
  case lost => exact fun ⟨id, hid⟩ => h.lost ⟨id, by simpa using hid⟩
  case old_nil => simpa [hflag] using hn
  case spare_nil => simpa [hflag] using h.spare_nil
  case spare_ne => simpa [hflag] using h.spare_ne
  case fresh => simp
  all_goals first
    | exact h.running | exact h.current | exact h.other | exact h.sorted | exact h.bound
    | exact h.count_le | exact h.old_ran | exact h.spare_ran

/-- A tick of a sound run, with actions pending: they are run, and the vector they stay in is the
other one from now on. -/
lemma Shape.tick_of_ne_nil (h : Shape es c old pend spare) (hn : (batches es).1 < 2)
    (hpend : pend ≠ []) : Shape (es ++ [.tick]) c.onRunCheck spare [] pend := by
  have hold := h.old_nil.mpr hn
  subst hold
  have hflag : (batches es).2 = true := h.fresh.mpr hpend
  have hcur : c.queue.current = pend.map some := by simpa using h.current
  rw [TcpClient.onRunCheck_of_ne_nil h.running hcur hpend]
  constructor
  case running => exact h.running
  case current => simpa [MsgQueue.current] using h.other
  case other => simpa [MsgQueue.current] using hcur
  case fresh => simp
  case sorted => simpa using h.sorted
  case bound => simpa using h.bound
  case count_le => simpa using h.count_le
  case all => exact fun hno => by simpa using h.all fun id hid => hno id (List.mem_append_left _ hid)
  case lost =>
    rintro ⟨id, hid⟩
    simpa using h.lost ⟨id, by simpa using hid⟩
  case old_ran => exact List.Subset.trans h.spare_ran (List.subset_append_left _ _)
  case spare_ran => exact List.subset_append_right _ _
  case old_nil =>
    simp only [batches_snoc_tick, hflag, if_true]
    constructor
    · intro hs
      have := mt h.spare_ne (not_not.mpr hs)
      omega
    · intro hlt
      exact h.spare_nil (by omega)
  case spare_nil => simp [hflag]
  case spare_ne => exact fun _ => hpend

/-- A tick where the vectors hold no action twice leaves nothing pending. -/
lemma Shape.tick (h : Shape es c old pend spare) (hn : (batches es).1 < 2) :
    ∃ old' spare', Shape (es ++ [.tick]) c.onRunCheck old' [] spare' := by
  by_cases hpend : pend = []
  · subst hpend
    exact ⟨_, _, h.tick_of_nil hn⟩
  · exact ⟨_, _, h.tick_of_ne_nil hn hpend⟩

/-- **Run lemma**: a sound run has the shape. -/
lemma exists_shape (es : List (Ev A)) (h : Sound es) :
    ∃ old pend spare, Shape es (runEvents mkClose es) old pend spare := by
  induction es using List.reverseRecOn with
  | nil => exact ⟨[], [], [], Shape.start⟩
  | append_singleton es e ih =>
      obtain ⟨old, pend, spare, hs⟩ := ih h.of_append
      have hrun : runEvents mkClose (es ++ [e]) = (runEvents mkClose es).apply mkClose e := by
        simp [runEvents]
      rw [hrun]
      cases e with
      | pushMsg a => exact ⟨_, _, _, hs.pushMsg a⟩
      | close id => exact ⟨_, _, _, hs.close mkClose id⟩
      | tick =>
          have hn := ((sound_snoc_iff.mp h).2 rfl).2
          obtain ⟨old', spare', hs'⟩ := hs.tick hn
          exact ⟨old', [], spare', hs'⟩

/-! ## Exactly once, exactly when the run is sound -/

/-- The order half of the shape. -/
lemma Shape.ran_sorted (h : Shape es c old pend spare) :
    (c.ran.map ActionPtr.serial).Pairwise (· < ·) := by
  have hs := h.sorted
  rw [List.map_append] at hs
  exact (List.pairwise_append.mp hs).1

/-- Right after a tick of a sound run nothing is pending. -/
lemma Shape.pend_nil (h : Shape (es ++ [.tick]) c old pend spare) : pend = [] := by
  have := h.fresh
  simpa using this

/-- A sound run meets `ExactlyOnce`. -/
lemma exactlyOnce_of_sound (h : Sound es) : ExactlyOnce mkClose es := by
  rintro fs gs rfl
  obtain ⟨old, pend, spare, hs⟩ := exists_shape mkClose fs h.of_append
  refine ⟨hs.ran_sorted, ?_⟩
  rintro hs' rfl
  have hpend := hs.pend_nil
  subst hpend
  have hno := ((sound_snoc_iff.mp h.of_append).2 rfl).1
  simpa [ranSerials] using hs.all fun id hid => hno id (by simpa using hid)

/-- A prefix of a run that meets `ExactlyOnce` meets it. -/
lemma ExactlyOnce.of_append {fs : List (Ev A)} (h : ExactlyOnce mkClose (es ++ fs)) :
    ExactlyOnce mkClose es := by
  rintro gs hs rfl
  exact h gs (hs ++ fs) (by simp)

/-- After two ticks that found new submissions, the next tick runs an action again. -/
lemma Shape.not_sorted_of_two_le (h : Shape es c old pend spare) (hn : 2 ≤ (batches es).1) :
    ¬ (c.onRunCheck.ran.map ActionPtr.serial).Pairwise (· < ·) := by
  have hold : old ≠ [] := mt h.old_nil.mp (by omega)
  rw [TcpClient.onRunCheck_of_ne_nil h.running h.current (by simp [hold])]
  intro hsorted
  obtain ⟨p, hp⟩ := List.exists_mem_of_ne_nil old hold
  rw [List.map_append] at hsorted
  -- `p` is run a second time, after itself
  have := (List.pairwise_append.mp hsorted).2.2 p.serial
    (List.mem_map_of_mem (h.old_ran hp)) p.serial
    (List.mem_map_of_mem (List.mem_append_left _ hp))
  exact lt_irrefl _ this

/-- **Exactly once, exactly when sound.** A run meets `ExactlyOnce` if and only if no tick in it
comes after a `close` or after two ticks that found new submissions. -/
theorem exactlyOnce_iff_sound (es : List (Ev A)) : ExactlyOnce mkClose es ↔ Sound es := by
  refine ⟨?_, exactlyOnce_of_sound mkClose⟩
  intro h
  induction es using List.reverseRecOn with
  | nil => exact fun fs gs heq => by simp at heq
  | append_singleton es e ih =>
      have hsound := ih h.of_append
      obtain ⟨old, pend, spare, hs⟩ := exists_shape mkClose es hsound
      refine sound_snoc_iff.mpr ⟨hsound, ?_⟩
      rintro rfl
      have hrun : runEvents mkClose (es ++ [.tick]) = (runEvents mkClose es).onRunCheck := by
        simp [runEvents, TcpClient.apply]
      obtain ⟨hsorted, hall⟩ := h (es ++ [.tick]) [] (by simp)
      unfold ranSerials at hsorted
      rw [hrun] at hsorted
      have hn : (batches es).1 < 2 := by
        by_contra hn
        exact hs.not_sorted_of_two_le (not_lt.mp hn) hsorted
      refine ⟨?_, hn⟩
      intro id hid
      -- a `close` is submitted but never run, so the count cannot come out
      obtain ⟨old', spare', hs'⟩ := hs.tick hn
      have hlost := hs'.lost ⟨id, List.mem_append_left _ hid⟩
      have hlen := congrArg List.length (hall es rfl)
      unfold ranSerials at hlen
      rw [hrun] at hlen
      simp only [List.length_map, List.length_range, List.append_nil] at hlen hlost
      omega

/-- Three pushes with a tick after each: the third tick runs the first action again. One `close`
and a tick: the action is never run. -/
theorem not_exactlyOnce_three_ticks :
    (ranSerials (fun _ => ()) [.pushMsg (), .tick, .pushMsg (), .tick, .pushMsg (), .tick]
        = [0, 1, 0, 2] ∧
      ¬ ExactlyOnce (fun _ => ())
        [.pushMsg (), .tick, .pushMsg (), .tick, .pushMsg (), .tick]) ∧
    (ranSerials (fun _ => ()) [.close 5, .tick] = [] ∧
      ¬ ExactlyOnce (fun _ => ()) [.close 5, .tick]) := by
  refine ⟨⟨by decide, ?_⟩, by decide, ?_⟩
  · intro h
    have := (h [.pushMsg (), .tick, .pushMsg (), .tick, .pushMsg (), .tick] [] rfl).1
    exact absurd this (by decide)
  · intro h
    exact absurd ((h [.close 5, .tick] [] rfl).2 [.close 5] rfl) (by decide)

end shape

end CocInside.Network
