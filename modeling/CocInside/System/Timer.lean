import CocInside.Lib.Heap
import CocInside.Lib.Runs
import Mathlib.Algebra.BigOperators.Group.List.Basic
import Mathlib.Algebra.GroupWithZero.Nat
import Mathlib.Data.Nat.Count

/-!
# Timers

A `Timer` keeps pointers to its timer structures in a vector that is a heap by due time. `add` pushes
one, `remove` only zeroes the count of one, and `process` fires what is due, from the front.

* `TimerStruct`, `Timer`, `Timer.add`, `Timer.remove`: the class. Structures are numbered in the
  order of their allocation; a pointer to one is its number.
* `Timer.turn`, `Timer.process`: one turn of the loop and the whole call, for an `onTimer` that
  leaves the timers alone.
* `timerMachine`: the same code cut at the call of `onTimer`, so that the callback may call `add`
  and `remove`.
* `TimerLog`: what has been added, removed, fired and deleted, in this order, so that histories can
  be spoken about. The code keeps no such record.

The operations take the heap algorithms as a parameter `H`. The storage of a deleted structure
keeps its last contents here; whether anything still points to it is for the log to say.

Source: `System/Timer.h`, `System/Timer.cpp`.
-/

namespace CocInside.System

open CocInside.Lib

/-- Source: `Timer.cpp`, `TimerStruct`. -/
structure TimerStruct where
  timeNext : UInt32
  interval : UInt32
  /-- Firings left; negative for a timer without an end. -/
  count : ℤ
  data : ℕ
deriving DecidableEq

/-- The structure after a firing that is not its last. -/
def TimerStruct.advance (s : TimerStruct) : TimerStruct :=
  { s with
    timeNext := s.timeNext + s.interval
    count := if s.count > 0 then s.count - 1 else s.count }

/-- A step in the life of the timer structure `td`. -/
inductive TimerLog where
  | added (td : ℕ) (count : ℤ)
  | removed (td : ℕ)
  /-- A call of `onTimer(td, data)`, for the due time `due`. -/
  | fired (td data : ℕ) (due : UInt32)
  | deleted (td : ℕ)
deriving DecidableEq

/-- The vector `_timers`, the structures, how many were allocated, and the log.
Source: `Timer.h`, `Timer`. -/
structure Timer where
  timers : List ℕ
  mem : ℕ → TimerStruct
  fresh : ℕ
  log : List TimerLog

namespace Timer

/-- A timer set right after construction. -/
def empty : Timer := ⟨[], fun _ => ⟨0, 0, 0, 0⟩, 0, []⟩

/-- The due time the heap is ordered by. -/
def due (t : Timer) (td : ℕ) : ℕ := (t.mem td).timeNext.toNat

/-- Source: `Timer.cpp`, `timerCompare`. -/
def timerCompare (t : Timer) (td1 td2 : ℕ) : Bool := (t.mem td1).timeNext > (t.mem td2).timeNext

/-- `timerCompare` is "has the greater due time". -/
lemma timerCompare_iff (t : Timer) (td1 td2 : ℕ) :
    t.timerCompare td1 td2 = true ↔ t.due td2 < t.due td1 := by
  rw [timerCompare, decide_eq_true_iff]
  exact UInt32.lt_iff_toNat_lt

variable (H : HeapOps ℕ ℕ)

/-- `add` with a first interval of its own, at the clock reading `now`. `allocated` says whether
`new` found storage.
Source: `Timer.cpp`, `Timer::add(UInt32, UInt32, void *, int)`. -/
def addFirst (t : Timer) (allocated : Bool) (now interval firstInterval : UInt32) (data : ℕ)
    (count : ℤ) : Timer :=
  if !allocated then t
  else
    let mem := Function.update t.mem t.fresh ⟨now + firstInterval, interval, count, data⟩
    { timers := H.pushHeap (fun td => (mem td).timeNext.toNat) (t.timers ++ [t.fresh])
      mem := mem
      fresh := t.fresh + 1
      log := t.log ++ [.added t.fresh count] }

/-- Source: `Timer.cpp`, `Timer::add(UInt32, void *, int)`. -/
def add (t : Timer) (allocated : Bool) (now interval : UInt32) (data : ℕ) (count : ℤ) : Timer :=
  t.addFirst H allocated now interval interval data count

/-- Source: `Timer.cpp`, `Timer::remove`. -/
def remove (t : Timer) (td : ℕ) : Timer :=
  { t with
    mem := Function.update t.mem td { t.mem td with count := 0 }
    log := t.log ++ [.removed td] }

/-! ## Processing -/

/-- `pop_heap`, erasing the last pointer, and `delete td`. -/
def popAndDelete (t : Timer) (td : ℕ) : Timer :=
  { t with
    timers := (H.popHeap t.due t.timers).dropLast
    log := t.log ++ [.deleted td] }

/-- Counting down and calling `onTimer`. -/
def fire (t : Timer) (td : ℕ) : Timer :=
  let s := t.mem td
  { t with
    mem := Function.update t.mem td { s with count := if s.count > 0 then s.count - 1 else s.count }
    log := t.log ++ [.fired td s.data s.timeNext] }

/-- What the loop does with `td` when `onTimer` has returned: `pop_heap`, then either the end of
`td` or its next due time and `push_heap`. -/
def settle (t : Timer) (td : ℕ) : Timer :=
  let s := t.mem td
  if s.count = 0 then t.popAndDelete H td
  else
    let mem := Function.update t.mem td { s with timeNext := s.timeNext + s.interval }
    { t with
      timers := H.pushHeap (fun td => (mem td).timeNext.toNat) (H.popHeap t.due t.timers)
      mem := mem }

/-- How a turn of the loop of `process` goes. -/
inductive Turn where
  /-- `front` of an empty vector: the behaviour is undefined. -/
  | undefined
  /-- The `break`. -/
  | stop
  /-- The `continue`. -/
  | next (t : Timer)

/-- One turn of the loop, for an `onTimer` that leaves the timers alone.
Source: `Timer.cpp`, `Timer::process`, `while(1)`. -/
def turn (now : UInt32) (t : Timer) : Turn :=
  match t.timers with
  | [] => .undefined
  | td :: _ =>
      if (t.mem td).count = 0 then .next (t.popAndDelete H td)
      else if now ≥ (t.mem td).timeNext then .next ((t.fire td).settle H td)
      else .stop

/-- The loop; `none` if it reaches undefined behaviour or has not ended after `fuel` turns. -/
def processLoop (now : UInt32) : ℕ → Timer → Option Timer
  | 0, _ => none
  | fuel + 1, t =>
      match t.turn H now with
      | .undefined => none
      | .stop => some t
      | .next t' => processLoop now fuel t'

/-- Source: `Timer.cpp`, `Timer::process`. -/
def process (now : UInt32) (fuel : ℕ) (t : Timer) : Option Timer :=
  if t.timers = [] then some t else processLoop H now fuel t

/-! ## What the operations do to the vector -/

/-- The vector is a heap of distinct allocated structures. -/
structure Ordered (t : Timer) : Prop where
  heap : IsHeap t.due t.timers
  nodup : t.timers.Nodup
  lt_fresh : ∀ td ∈ t.timers, td < t.fresh

/-- Without timers the heap is ordered. -/
lemma ordered_empty : empty.Ordered where
  heap := isHeap_nil _
  nodup := List.nodup_nil
  lt_fresh := by simp [empty]

/-- Removing a timer does not change when the timers are due. -/
@[simp] lemma due_remove (t : Timer) (td : ℕ) : (t.remove td).due = t.due := by
  funext p
  by_cases hp : p = td
  · simp [due, remove, hp]
  · simp [due, remove, hp]

/-- Nor does calling one. -/
@[simp] lemma due_fire (t : Timer) (td : ℕ) : (t.fire td).due = t.due := by
  funext p
  by_cases hp : p = td
  · simp [due, fire, hp]
  · simp [due, fire, hp]

/-- Removing a timer only marks it, and keeps the heap ordered. -/
lemma Ordered.remove {t : Timer} (h : t.Ordered) (td : ℕ) : (t.remove td).Ordered where
  heap := by
    rw [due_remove]
    exact h.heap
  nodup := h.nodup
  lt_fresh := h.lt_fresh

/-- Calling a timer keeps the heap ordered. -/
lemma Ordered.fire {t : Timer} (h : t.Ordered) (td : ℕ) : (t.fire td).Ordered where
  heap := by
    rw [due_fire]
    exact h.heap
  nodup := h.nodup
  lt_fresh := h.lt_fresh

section

variable {H}

/-- Writing a structure that the vector does not point to leaves the heap one. -/
lemma isHeap_update {t : Timer} {l : List ℕ} {td : ℕ} (h : IsHeap t.due l) (htd : td ∉ l)
    (s : TimerStruct) :
    IsHeap (fun p => (Function.update t.mem td s p).timeNext.toNat) l := by
  refine h.congr ?_
  intro p hp
  have hne : p ≠ td := by
    rintro rfl
    exact htd hp
  simp only [Function.update_of_ne hne, due]

/-- A timer that is added joins the others. -/
lemma timers_addFirst_perm {t : Timer} (h : t.Ordered) (now interval firstInterval : UInt32)
    (data : ℕ) (count : ℤ) :
    (t.addFirst H true now interval firstInterval data count).timers.Perm (t.fresh :: t.timers) := by
  have hnot : t.fresh ∉ t.timers := by
    intro hmem
    exact absurd (h.lt_fresh _ hmem) (Nat.lt_irrefl _)
  exact (H.push_perm _ _ _ (isHeap_update h.heap hnot _)).trans
    (List.perm_append_singleton _ _)

/-- Adding a timer keeps the heap ordered. -/
lemma Ordered.addFirst {t : Timer} (h : t.Ordered) (allocated : Bool)
    (now interval firstInterval : UInt32) (data : ℕ) (count : ℤ) :
    (t.addFirst H allocated now interval firstInterval data count).Ordered := by
  cases allocated with
  | false => exact h
  | true =>
      have hperm := timers_addFirst_perm (H := H) h now interval firstInterval data count
      have hnot : t.fresh ∉ t.timers := by
        intro hmem
        exact absurd (h.lt_fresh _ hmem) (Nat.lt_irrefl _)
      refine ⟨?_, ?_, ?_⟩
      · exact H.push_isHeap _ _ _ (isHeap_update h.heap hnot _)
      · exact hperm.nodup_iff.mpr (List.nodup_cons.mpr ⟨hnot, h.nodup⟩)
      · intro td htd
        show td < t.fresh + 1
        rcases List.mem_cons.mp (hperm.mem_iff.mp htd) with rfl | hold
        · exact Nat.lt_succ_self _
        · exact Nat.lt_succ_of_lt (h.lt_fresh td hold)

/-- `pop_heap` and erasing the last pointer take the front out of the vector. -/
lemma Ordered.timers_popAndDelete {t : Timer} (h : t.Ordered) {td : ℕ} {l : List ℕ}
    (hl : t.timers = td :: l) :
    (t.popAndDelete H td).timers.Perm l ∧ (t.popAndDelete H td).Ordered := by
  obtain ⟨l', hpop, hperm, hheap⟩ := H.pop_spec t.due td l (hl ▸ h.heap)
  have heq : (t.popAndDelete H td).timers = l' := by
    rw [popAndDelete, hl, hpop]
    exact List.dropLast_concat
  have hnd := h.nodup
  rw [hl, List.nodup_cons] at hnd
  refine ⟨heq ▸ hperm, ?_, ?_, ?_⟩
  · rw [heq]
    exact hheap
  · rw [heq]
    exact hperm.nodup_iff.mpr hnd.2
  · intro p hp
    rw [heq, hperm.mem_iff] at hp
    exact h.lt_fresh p (hl ▸ List.mem_cons_of_mem td hp)

/-- A timer that goes on stays in the vector. -/
lemma Ordered.timers_settle {t : Timer} (h : t.Ordered) {td : ℕ} {l : List ℕ}
    (hl : t.timers = td :: l) (hc : (t.mem td).count ≠ 0) :
    (t.settle H td).timers.Perm t.timers ∧ (t.settle H td).Ordered := by
  obtain ⟨l', hpop, hperm, hheap⟩ := H.pop_spec t.due td l (hl ▸ h.heap)
  have hnd := h.nodup
  rw [hl, List.nodup_cons] at hnd
  have htd : td ∉ l' := by
    rw [hperm.mem_iff]
    exact hnd.1
  have hupd := isHeap_update hheap htd
    { t.mem td with timeNext := (t.mem td).timeNext + (t.mem td).interval }
  have heq : t.settle H td = { t with
      timers := H.pushHeap (fun p => (Function.update t.mem td
        { t.mem td with timeNext := (t.mem td).timeNext + (t.mem td).interval } p).timeNext.toNat)
        (l' ++ [td])
      mem := Function.update t.mem td
        { t.mem td with timeNext := (t.mem td).timeNext + (t.mem td).interval } } := by
    rw [settle, if_neg hc, hl, hpop]
  have hall : (t.settle H td).timers.Perm t.timers := by
    rw [heq, hl]
    exact (H.push_perm _ _ _ hupd).trans
      ((List.perm_append_singleton td l').trans (hperm.cons td))
  refine ⟨hall, ?_, hall.nodup_iff.mpr h.nodup, ?_⟩
  · rw [heq]
    exact H.push_isHeap _ _ _ hupd
  · intro p hp
    rw [heq]
    exact h.lt_fresh p (hall.mem_iff.mp hp)

/-! ## One turn of the loop -/

/-- A turn from `t` to `t₁` that takes the front `td` out of the vector, where `l` stood behind it,
and appends `pre` to the log. -/
structure Dropped (t t₁ : Timer) (td : ℕ) (l : List ℕ) (pre : List TimerLog) : Prop where
  ordered : t₁.Ordered
  perm : t₁.timers.Perm l
  mem : ∀ p, p ≠ td → t₁.mem p = t.mem p
  log : t₁.log = t.log ++ pre

/-- A turn from `t` to `t₁` that fires the front `td` and puts it back with its next due time. -/
structure Kept (t t₁ : Timer) (td : ℕ) : Prop where
  ordered : t₁.Ordered
  perm : t₁.timers.Perm t.timers
  mem : ∀ p, p ≠ td → t₁.mem p = t.mem p
  front : t₁.mem td = (t.mem td).advance
  log : t₁.log = t.log ++ [.fired td (t.mem td).data (t.mem td).timeNext]

variable {now : UInt32} {t t₁ : Timer} {td : ℕ} {l : List ℕ}

/-- What is left in the vector. -/
lemma Dropped.mem_timers_iff {pre : List TimerLog} (h : t.Dropped t₁ td l pre) (ho : t.Ordered)
    (hl : t.timers = td :: l) {p : ℕ} : p ∈ t₁.timers ↔ p ≠ td ∧ p ∈ t.timers := by
  have hnd := ho.nodup
  rw [hl, List.nodup_cons] at hnd
  rw [h.perm.mem_iff, hl, List.mem_cons]
  constructor
  · intro hp
    refine ⟨?_, .inr hp⟩
    rintro rfl
    exact hnd.1 hp
  · rintro ⟨hne, hp⟩
    exact hp.resolve_left hne

/-- A removed timer at the front is popped and deleted. -/
lemma Ordered.turn_removed (h : t.Ordered) (hl : t.timers = td :: l) (hc : (t.mem td).count = 0) :
    ∃ t₁, t.turn H now = .next t₁ ∧ t.Dropped t₁ td l [.deleted td] := by
  obtain ⟨hperm, ho⟩ := h.timers_popAndDelete (H := H) hl
  refine ⟨t.popAndDelete H td, ?_, ho, hperm, fun _ _ => rfl, rfl⟩
  simp [turn, hl, hc]

/-- A due timer at the front with one firing left is fired, popped and deleted. -/
lemma Ordered.turn_last (h : t.Ordered) (hl : t.timers = td :: l) (hc : (t.mem td).count = 1)
    (hdue : (t.mem td).timeNext ≤ now) :
    ∃ t₁, t.turn H now = .next t₁ ∧ t.Dropped t₁ td l
      [.fired td (t.mem td).data (t.mem td).timeNext, .deleted td] := by
  have hcf : ((t.fire td).mem td).count = 0 := by simp [Timer.fire, hc]
  have hset : (t.fire td).settle H td = (t.fire td).popAndDelete H td := by
    rw [settle, if_pos hcf]
  have hfl : (t.fire td).timers = td :: l := hl
  obtain ⟨hperm, ho⟩ := (h.fire td).timers_popAndDelete (H := H) hfl
  refine ⟨(t.fire td).popAndDelete H td, ?_, ho, hperm, ?_, ?_⟩
  · simp [turn, hl, hc, hdue, hset]
  · intro p hp
    simp [Timer.fire, popAndDelete, hp]
  · simp [Timer.fire, popAndDelete]

/-- A due timer at the front that goes on is fired and pushed back with its next due time. -/
lemma Ordered.turn_again (h : t.Ordered) (hl : t.timers = td :: l) (hc0 : (t.mem td).count ≠ 0)
    (hc1 : (t.mem td).count ≠ 1) (hdue : (t.mem td).timeNext ≤ now) :
    ∃ t₁, t.turn H now = .next t₁ ∧ t.Kept t₁ td := by
  have hcf : ((t.fire td).mem td).count ≠ 0 := by
    simp only [Timer.fire, Function.update_self]
    split_ifs <;> omega
  have hfl : (t.fire td).timers = td :: l := hl
  obtain ⟨hperm, ho⟩ := (h.fire td).timers_settle (H := H) hfl hcf
  refine ⟨(t.fire td).settle H td, ?_, ho, hperm, ?_, ?_, ?_⟩
  · simp [turn, hl, hc0, hdue]
  · intro p hp
    rw [settle, if_neg hcf]
    simp [Timer.fire, hp]
  · rw [settle, if_neg hcf]
    simp [Timer.fire, TimerStruct.advance]
  · rw [settle, if_neg hcf]
    rfl

/-- The loop is left at a timer with firings left that is not due. -/
lemma turn_eq_stop_iff : t.turn H now = .stop ↔
    ∃ td l, t.timers = td :: l ∧ (t.mem td).count ≠ 0 ∧ now < (t.mem td).timeNext := by
  cases hl : t.timers with
  | nil => simp [turn, hl]
  | cons td l =>
      simp only [turn, hl, List.cons.injEq, ← UInt32.not_le, ge_iff_le]
      constructor
      · intro h
        split_ifs at h with hc hdue
        exact ⟨td, l, ⟨rfl, rfl⟩, hc, hdue⟩
      · rintro ⟨_, _, ⟨rfl, rfl⟩, hc, hdue⟩
        rw [if_neg hc, if_neg hdue]

/-- The vector is empty exactly in the turn that looks at nothing. -/
lemma turn_eq_undefined_iff : t.turn H now = .undefined ↔ t.timers = [] := by
  cases hl : t.timers with
  | nil => simp [turn, hl]
  | cons td l =>
      simp only [turn, hl]
      split_ifs <;> simp

/-- The front goes for good: it was removed, or has its last firing now. -/
def Ending (now : UInt32) (t : Timer) (td : ℕ) : Prop :=
  (t.mem td).count = 0 ∨ ((t.mem td).count = 1 ∧ (t.mem td).timeNext ≤ now)

/-- A turn after which the loop goes on takes the front out, or fires it and keeps it. -/
lemma Ordered.turn_cases (h : t.Ordered) (hturn : t.turn H now = .next t₁) :
    ∃ td l, t.timers = td :: l ∧
      ((t.Ending now td ∧ ∃ pre, t.Dropped t₁ td l pre) ∨
        ((t.mem td).count ≠ 0 ∧ (t.mem td).count ≠ 1 ∧ (t.mem td).timeNext ≤ now ∧
          t.Kept t₁ td)) := by
  cases hl : t.timers with
  | nil =>
      rw [turn_eq_undefined_iff.mpr hl] at hturn
      cases hturn
  | cons td l =>
      refine ⟨td, l, rfl, ?_⟩
      by_cases hc0 : (t.mem td).count = 0
      · obtain ⟨t₂, h₂, hdrop⟩ : ∃ t₂, t.turn H now = .next t₂ ∧ t.Dropped t₂ td l _ :=
          h.turn_removed hl hc0
        cases h₂.symm.trans hturn
        exact .inl ⟨.inl hc0, _, hdrop⟩
      · by_cases hdue : (t.mem td).timeNext ≤ now
        · by_cases hc1 : (t.mem td).count = 1
          · obtain ⟨t₂, h₂, hdrop⟩ := h.turn_last (H := H) hl hc1 hdue
            cases h₂.symm.trans hturn
            exact .inl ⟨.inr ⟨hc1, hdue⟩, _, hdrop⟩
          · obtain ⟨t₂, h₂, hkept⟩ := h.turn_again (H := H) hl hc0 hc1 hdue
            cases h₂.symm.trans hturn
            exact .inr ⟨hc0, hc1, hdue, hkept⟩
        · rw [turn_eq_stop_iff.mpr ⟨td, l, hl, hc0, UInt32.not_le.mp hdue⟩] at hturn
          cases hturn

/-- What is read off the timers behind the front does not change when only the front is written. -/
lemma Ordered.map_tail {β : Type} (h : t.Ordered) (hl : t.timers = td :: l)
    (hmem : ∀ p, p ≠ td → t₁.mem p = t.mem p) (w : TimerStruct → β) :
    (l.map fun p => w (t₁.mem p)) = l.map fun p => w (t.mem p) := by
  have hnd := h.nodup
  rw [hl, List.nodup_cons] at hnd
  refine List.map_congr_left ?_
  intro p hp
  rw [hmem p]
  rintro rfl
  exact hnd.1 hp

/-- The sum of a weight over the timers, and one for each. -/
def weight (w : TimerStruct → ℕ) (t : Timer) : ℕ := (t.timers.map fun td => w (t.mem td) + 1).sum

/-- A turn that deletes its timer makes every measure smaller. -/
lemma Dropped.weight_lt {pre : List TimerLog} (h : t.Dropped t₁ td l pre) (ho : t.Ordered)
    (hl : t.timers = td :: l) (w : TimerStruct → ℕ) : t₁.weight w < t.weight w := by
  rw [weight, (h.perm.map _).sum_eq, ho.map_tail hl h.mem fun s => w s + 1, weight, hl,
    List.map_cons, List.sum_cons]
  omega

/-- A turn that puts its timer back makes a measure smaller when moving on the timer does. -/
lemma Kept.weight_lt (h : t.Kept t₁ td) (ho : t.Ordered) (hl : t.timers = td :: l)
    {w : TimerStruct → ℕ} (hw : w (t.mem td).advance < w (t.mem td)) :
    t₁.weight w < t.weight w := by
  rw [weight, (h.perm.map _).sum_eq, weight, hl, List.map_cons, List.map_cons,
    ho.map_tail hl h.mem fun s => w s + 1, List.sum_cons, List.sum_cons, h.front]
  omega

end

end Timer

/-! ## Callbacks that use the timers -/

/-- Where the thread that owns the timers is. -/
inductive TimerPhase where
  /-- Outside `process`. -/
  | idle
  /-- At the head of the loop. -/
  | scanning (now : UInt32)
  /-- Inside `onTimer(td, …)`. -/
  | calling (now : UInt32) (td : ℕ)
  /-- Past undefined behaviour. -/
  | undefined
deriving DecidableEq

/-- The timers and the place in the code. -/
structure TimerState where
  timer : Timer
  phase : TimerPhase

/-- What may happen next. `add` and `remove` are calls from outside `process` or from `onTimer`. -/
inductive TimerCall where
  | add (allocated : Bool) (now interval firstInterval : UInt32) (data : ℕ) (count : ℤ)
  | remove (td : ℕ)
  /-- `process` is called and reads the clock. -/
  | process (now : UInt32)
  /-- The loop takes a turn, up to the call of `onTimer` if there is one. -/
  | turn
  /-- `onTimer` returns. -/
  | back
deriving DecidableEq

/-- Code of the owner may run: outside `process`, or inside `onTimer`. -/
def TimerPhase.Open : TimerPhase → Prop
  | .idle => True
  | .calling _ _ => True
  | .scanning _ => False
  | .undefined => False

instance : (p : TimerPhase) → Decidable p.Open
  | .idle => .isTrue trivial
  | .calling _ _ => .isTrue trivial
  | .scanning _ => .isFalse id
  | .undefined => .isFalse id

/-- One step. `remove` takes a timer that was added and is not deleted.
Source: `Timer.cpp`, `Timer::add`, `Timer::remove`, `Timer::process`. -/
def timerStep (H : HeapOps ℕ ℕ) (s : TimerState) : TimerCall → Option TimerState
  | .add allocated now interval firstInterval data count =>
      if s.phase.Open then
        some { s with timer := s.timer.addFirst H allocated now interval firstInterval data count }
      else none
  | .remove td =>
      if s.phase.Open ∧ td < s.timer.fresh ∧ .deleted td ∉ s.timer.log then
        some { s with timer := s.timer.remove td }
      else none
  | .process now =>
      match s.phase with
      | .idle => some (if s.timer.timers = [] then s else { s with phase := .scanning now })
      | _ => none
  | .turn =>
      match s.phase with
      | .scanning now =>
          match s.timer.timers with
          | [] => some { s with phase := .undefined }
          | td :: _ =>
              if (s.timer.mem td).count = 0 then
                some { s with timer := s.timer.popAndDelete H td }
              else if now ≥ (s.timer.mem td).timeNext then
                some ⟨s.timer.fire td, .calling now td⟩
              else some { s with phase := .idle }
      | _ => none
  | .back =>
      match s.phase with
      | .calling now td => some ⟨s.timer.settle H td, .scanning now⟩
      | _ => none

/-- A timer set from its construction on. -/
def timerMachine (H : HeapOps ℕ ℕ) : Machine TimerState TimerCall where
  init := ⟨.empty, .idle⟩
  step := timerStep H

/-- The steps, one for each way a call goes. -/
inductive TimerStepTo (H : HeapOps ℕ ℕ) (s : TimerState) : TimerCall → TimerState → Prop where
  | add {allocated now interval firstInterval data count} (isOpen : s.phase.Open) :
      TimerStepTo H s (.add allocated now interval firstInterval data count)
        ⟨s.timer.addFirst H allocated now interval firstInterval data count, s.phase⟩
  | remove {td} (isOpen : s.phase.Open) (added : td < s.timer.fresh)
      (live : .deleted td ∉ s.timer.log) :
      TimerStepTo H s (.remove td) ⟨s.timer.remove td, s.phase⟩
  | processNone {now} (idle : s.phase = .idle) (nil : s.timer.timers = []) :
      TimerStepTo H s (.process now) s
  | process {now} (idle : s.phase = .idle) (ne : s.timer.timers ≠ []) :
      TimerStepTo H s (.process now) ⟨s.timer, .scanning now⟩
  | turnEmpty {now} (scan : s.phase = .scanning now) (nil : s.timer.timers = []) :
      TimerStepTo H s .turn ⟨s.timer, .undefined⟩
  | turnDelete {now td l} (scan : s.phase = .scanning now) (front : s.timer.timers = td :: l)
      (zero : (s.timer.mem td).count = 0) :
      TimerStepTo H s .turn ⟨s.timer.popAndDelete H td, .scanning now⟩
  | turnFire {now td l} (scan : s.phase = .scanning now) (front : s.timer.timers = td :: l)
      (ne : (s.timer.mem td).count ≠ 0) (due : (s.timer.mem td).timeNext ≤ now) :
      TimerStepTo H s .turn ⟨s.timer.fire td, .calling now td⟩
  | turnStop {now td l} (scan : s.phase = .scanning now) (front : s.timer.timers = td :: l)
      (ne : (s.timer.mem td).count ≠ 0) (not_due : ¬(s.timer.mem td).timeNext ≤ now) :
      TimerStepTo H s .turn ⟨s.timer, .idle⟩
  | back {now td} (call : s.phase = .calling now td) :
      TimerStepTo H s .back ⟨s.timer.settle H td, .scanning now⟩

/-- These are all the steps. -/
lemma timerStepTo_of_step {H : HeapOps ℕ ℕ} {s s' : TimerState} {e : TimerCall}
    (h : (timerMachine H).step s e = some s') : TimerStepTo H s e s' := by
  cases e with
  | add allocated now interval firstInterval data count =>
      simp only [timerMachine, timerStep] at h
      split_ifs at h with hopen
      cases h
      exact .add hopen
  | remove td =>
      simp only [timerMachine, timerStep] at h
      split_ifs at h with hok
      cases h
      exact .remove hok.1 hok.2.1 hok.2.2
  | process now =>
      simp only [timerMachine, timerStep] at h
      split at h
      · next hidle =>
          cases h
          split_ifs with hnil
          · exact .processNone hidle hnil
          · exact .process hidle hnil
      · cases h
  | turn =>
      simp only [timerMachine, timerStep] at h
      split at h
      · next now hscan =>
          split at h
          · next hnil =>
              cases h
              exact .turnEmpty hscan hnil
          · next td l hl =>
              split_ifs at h with hc hdue
              · cases h
                rw [hscan]
                exact .turnDelete hscan hl hc
              · cases h
                exact .turnFire hscan hl hc hdue
              · cases h
                exact .turnStop hscan hl hc hdue
      · cases h
  | back =>
      simp only [timerMachine, timerStep] at h
      split at h
      · next now td hcall =>
          cases h
          exact .back hcall
      · cases h

end CocInside.System
