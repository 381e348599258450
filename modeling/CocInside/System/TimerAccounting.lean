import CocInside.System.Timer

/-!
# Timers and callbacks that change them

`process` keeps a pointer to the front timer across `onTimer` and then pops whatever is at the front.
That is the same timer as long as the callback has pushed nothing in front of it.

* `TimerState.Accounted`: what is to hold of every history of a timer set.
* `TimerCall.KeepsFront`: the calls for which it does: an `add` inside `onTimer` gets a due time that
  is not before that of the timer being fired, and the loop finds a timer at its head.
* `TimerState.Sound`: the invariant. In the window of the callback, the timer being fired is at the
  front (`front`); a count pays for the firings to come (`budget`).
* `accounted_of_keepsFront`: every run of such calls is accounted for, and any other call leads out,
  with every `push_heap` that leaves a front with an equal due time where it is.

Source: `System/Timer.cpp`.
-/

namespace CocInside.System

open CocInside.Lib

/-! ## Histories -/

/-- The structure an entry of the log is about. -/
def TimerLog.timer : TimerLog → ℕ
  | .added td _ => td
  | .removed td => td
  | .fired td _ _ => td
  | .deleted td => td

/-- The entry is a firing of `td`. -/
def TimerLog.fires (td : ℕ) : TimerLog → Bool
  | .fired p _ _ => p = td
  | _ => false

/-- What is to hold of every history: a timer added with `c` firings is fired at most `c` times, and
not at all once it was removed; a structure is deleted at most once; the vector points exactly to
the structures that are not deleted, once to each; and no undefined behaviour was reached. -/
structure TimerState.Accounted (s : TimerState) : Prop where
  fires_le : ∀ td c, .added td c ∈ s.timer.log → 0 ≤ c →
    (s.timer.log.countP (TimerLog.fires td) : ℤ) ≤ c
  silent : s.timer.log.Pairwise fun a b => ∀ td, a = .removed td → b.fires td = false
  deleted_once : ∀ td, s.timer.log.count (.deleted td) ≤ 1
  live : ∀ td, td ∈ s.timer.timers ↔
    (∃ c, .added td c ∈ s.timer.log) ∧ .deleted td ∉ s.timer.log
  nodup : s.timer.timers.Nodup
  defined : s.phase ≠ .undefined

/-- A call after which the timer being fired is still at the front, and a turn that finds a timer. -/
def TimerCall.KeepsFront (s : TimerState) : TimerCall → Prop
  | .add allocated now _ firstInterval _ _ =>
      match s.phase with
      | .calling _ td => allocated = true → (s.timer.mem td).timeNext ≤ now + firstInterval
      | _ => True
  | .turn => s.timer.timers ≠ []
  | _ => True

/-! ## The books -/

/-- The part of the invariant about the log and the counts. -/
structure Timer.Booked (t : Timer) : Prop where
  log_lt : ∀ e ∈ t.log, e.timer < t.fresh
  added : ∀ td, td < t.fresh → ∃ c, .added td c ∈ t.log
  /-- The count pays for the firings to come. -/
  budget : ∀ td c, .added td c ∈ t.log → 0 ≤ c →
    0 ≤ (t.mem td).count ∧ (t.log.countP (TimerLog.fires td) : ℤ) + (t.mem td).count ≤ c
  removed : ∀ td, .removed td ∈ t.log → (t.mem td).count = 0
  silent : t.log.Pairwise fun a b => ∀ td, a = .removed td → b.fires td = false
  deleted_once : ∀ td, t.log.count (.deleted td) ≤ 1

/-- Without timers the books are in order. -/
lemma Timer.booked_empty : Timer.empty.Booked where
  log_lt := by simp [Timer.empty]
  added := by simp [Timer.empty]
  budget := by simp [Timer.empty]
  removed := by simp [Timer.empty]
  silent := List.Pairwise.nil
  deleted_once := by simp [Timer.empty]

/-- Appending an entry that is no firing of a removed timer. -/
lemma silent_append {log : List TimerLog} {e : TimerLog}
    (h : log.Pairwise fun a b => ∀ td, a = .removed td → b.fires td = false)
    (he : ∀ td, .removed td ∈ log → e.fires td = false) :
    (log ++ [e]).Pairwise fun a b => ∀ td, a = .removed td → b.fires td = false := by
  refine List.pairwise_append.mpr ⟨h, List.pairwise_singleton _ _, ?_⟩
  intro a ha b hb td hrem
  rw [List.mem_singleton.mp hb]
  exact he td (hrem ▸ ha)

/-- A firing of a timer is an entry about this timer. -/
lemma TimerLog.timer_eq_of_fires {td : ℕ} {e : TimerLog} (h : e.fires td = true) :
    e.timer = td := by
  cases e with
  | fired p data due => exact of_decide_eq_true h
  | added p c => cases h
  | removed p => cases h
  | deleted p => cases h

/-- Members of a log with one more entry. -/
lemma mem_log_append {log : List TimerLog} {e x : TimerLog} :
    x ∈ log ++ [e] ↔ x ∈ log ∨ x = e := by
  rw [List.mem_append, List.mem_singleton]

/-- One entry more that adds no timer: what has to be shown of it. -/
lemma Timer.Booked.append {t t' : Timer} {e : TimerLog} (h : t.Booked) (hfresh : t'.fresh = t.fresh)
    (hlog : t'.log = t.log ++ [e]) (he : e.timer < t.fresh) (hadd : ∀ td c, e ≠ .added td c)
    (hcount : ∀ td, 0 ≤ (t.mem td).count → 0 ≤ (t'.mem td).count ∧
      (if e.fires td then 1 else 0) + (t'.mem td).count ≤ (t.mem td).count)
    (hzero : ∀ td, (t.mem td).count = 0 ∨ e = .removed td → (t'.mem td).count = 0)
    (hsilent : ∀ td, (t.mem td).count = 0 → e.fires td = false)
    (hdel : ∀ td, e = .deleted td → .deleted td ∉ t.log) : t'.Booked := by
  refine ⟨?_, ?_, ?_, ?_, ?_, ?_⟩
  · intro x hx
    rw [hfresh]
    rw [hlog, mem_log_append] at hx
    rcases hx with hx | rfl
    · exact h.log_lt x hx
    · exact he
  · intro td htd
    rw [hfresh] at htd
    obtain ⟨c, hc⟩ := h.added td htd
    exact ⟨c, by rw [hlog]; exact List.mem_append_left _ hc⟩
  · intro td c hc h0
    rw [hlog, mem_log_append] at hc
    rcases hc with hc | hc
    · obtain ⟨hnn, hle⟩ := h.budget td c hc h0
      obtain ⟨hnn', hle'⟩ := hcount td hnn
      refine ⟨hnn', ?_⟩
      rw [hlog, List.countP_append, List.countP_singleton]
      split_ifs at hle' ⊢ <;> push_cast <;> omega
    · exact absurd hc.symm (hadd td c)
  · intro td hrem
    rw [hlog, mem_log_append] at hrem
    apply hzero
    rcases hrem with hrem | hrem
    · exact .inl (h.removed td hrem)
    · exact .inr hrem.symm
  · rw [hlog]
    exact silent_append h.silent (fun td hrem => hsilent td (h.removed td hrem))
  · intro td
    rw [hlog, List.count_append, List.count_singleton]
    split_ifs with heq
    · rw [List.count_eq_zero_of_not_mem (hdel td (beq_iff_eq.mp heq))]
    · exact h.deleted_once td

/-! ## The operations and the books -/

namespace Timer

variable {t : Timer} {H : HeapOps ℕ ℕ}

/-- Adding a timer keeps the books in order. -/
lemma Booked.addFirst (h : t.Booked) (allocated : Bool) (now interval firstInterval : UInt32)
    (data : ℕ) (count : ℤ) :
    (t.addFirst H allocated now interval firstInterval data count).Booked := by
  cases allocated with
  | false => exact h
  | true =>
      have hold : ∀ e ∈ t.log, e.timer ≠ t.fresh := by
        intro e he
        have := h.log_lt e he
        omega
      have hmem : ∀ td, td ≠ t.fresh →
          (t.addFirst H true now interval firstInterval data count).mem td = t.mem td := by
        intro td htd
        simp [Timer.addFirst, htd]
      have hlog : (t.addFirst H true now interval firstInterval data count).log
          = t.log ++ [.added t.fresh count] := rfl
      refine ⟨?_, ?_, ?_, ?_, ?_, ?_⟩
      · intro e he
        rw [hlog, mem_log_append] at he
        show e.timer < t.fresh + 1
        rcases he with he | rfl
        · exact Nat.lt_succ_of_lt (h.log_lt e he)
        · exact Nat.lt_succ_self _
      · intro td htd
        rcases Nat.lt_succ_iff_lt_or_eq.mp htd with htd | rfl
        · obtain ⟨c, hc⟩ := h.added td htd
          exact ⟨c, List.mem_append_left _ hc⟩
        · exact ⟨count, List.mem_append_right _ List.mem_cons_self⟩
      · intro td c hc h0
        have hcountP : (t.log ++ [TimerLog.added t.fresh count]).countP (TimerLog.fires td)
            = t.log.countP (TimerLog.fires td) := by
          rw [List.countP_append, List.countP_singleton]
          rfl
        rw [hlog] at hc ⊢
        rw [hcountP]
        rcases mem_log_append.mp hc with hc | hc
        · rw [hmem td (hold _ hc)]
          exact h.budget td c hc h0
        · -- the new timer has not been fired
          cases hc
          have hnone : t.log.countP (TimerLog.fires t.fresh) = 0 := by
            rw [List.countP_eq_zero]
            intro e he hf
            exact hold e he (TimerLog.timer_eq_of_fires hf)
          rw [hnone]
          simpa [Timer.addFirst] using h0
      · intro td hrem
        rw [hlog, mem_log_append] at hrem
        rcases hrem with hrem | hrem
        · rw [hmem td (hold _ hrem)]
          exact h.removed td hrem
        · cases hrem
      · exact silent_append h.silent (fun _ _ => rfl)
      · intro td
        rw [hlog, List.count_append, List.count_singleton]
        exact h.deleted_once td

/-- So does removing a timer. -/
lemma Booked.remove (h : t.Booked) {td : ℕ} (htd : td < t.fresh) : (t.remove td).Booked := by
  refine h.append (e := .removed td) rfl rfl htd (by simp) ?_ ?_ (fun _ _ => rfl) (by simp)
  · intro p hp
    by_cases hptd : p = td
    · subst hptd
      simpa [Timer.remove, TimerLog.fires] using hp
    · simpa [Timer.remove, TimerLog.fires, hptd] using hp
  · rintro p (hp | hp)
    · by_cases hptd : p = td
      · simp [Timer.remove, hptd]
      · simpa [Timer.remove, hptd] using hp
    · cases hp
      simp [Timer.remove]

/-- So does firing a timer that has firings left. -/
lemma Booked.fire (h : t.Booked) {td : ℕ} (htd : td < t.fresh) (hc : (t.mem td).count ≠ 0) :
    (t.fire td).Booked := by
  refine h.append (e := .fired td (t.mem td).data (t.mem td).timeNext) rfl rfl htd (by simp) ?_ ?_ ?_
    (by simp)
  · intro p hp
    by_cases hptd : p = td
    · subst hptd
      simp only [Timer.fire, TimerLog.fires, Function.update_self, decide_true, if_true]
      split_ifs <;> omega
    · simpa [Timer.fire, TimerLog.fires, hptd, Ne.symm hptd] using hp
  · rintro p (hp | hp)
    · have hptd : p ≠ td := by
        rintro rfl
        exact hc hp
      simpa [Timer.fire, hptd] using hp
    · cases hp
  · intro p hp
    have hptd : td ≠ p := by
      rintro rfl
      exact hc hp
    simpa [TimerLog.fires] using hptd

/-- So does deleting the first timer, when it was not deleted before. -/
lemma Booked.popAndDelete (h : t.Booked) {td : ℕ} (htd : td < t.fresh)
    (hdel : .deleted td ∉ t.log) : (t.popAndDelete H td).Booked := by
  refine h.append (e := .deleted td) rfl rfl htd (by simp) ?_ ?_ (fun _ _ => rfl) ?_
  · intro p hp
    exact ⟨hp, by simp [TimerLog.fires, Timer.popAndDelete]⟩
  · rintro p (hp | hp)
    · exact hp
    · cases hp
  · intro p hp
    cases hp
    exact hdel

/-- So does what is done to a timer after it was fired. -/
lemma Booked.settle (h : t.Booked) {td : ℕ} (htd : td < t.fresh) (hdel : .deleted td ∉ t.log) :
    (t.settle H td).Booked := by
  by_cases hc : (t.mem td).count = 0
  · rw [Timer.settle, if_pos hc]
    exact h.popAndDelete htd hdel
  · rw [Timer.settle, if_neg hc]
    have hcount : ∀ p, (Function.update t.mem td
        { t.mem td with timeNext := (t.mem td).timeNext + (t.mem td).interval } p).count
        = (t.mem p).count := by
      intro p
      by_cases hp : p = td
      · simp [hp]
      · simp [hp]
    refine ⟨h.log_lt, h.added, ?_, ?_, h.silent, h.deleted_once⟩
    · intro p c hc h0
      show 0 ≤ (Function.update t.mem td _ p).count ∧ _ + (Function.update t.mem td _ p).count ≤ c
      rw [hcount]
      exact h.budget p c hc h0
    · intro p hrem
      show (Function.update t.mem td _ p).count = 0
      rw [hcount]
      exact h.removed p hrem

/-- A timer that falls due before the front goes in front. -/
lemma Ordered.fresh_front_addFirst (h : t.Ordered) {td : ℕ} {l : List ℕ} (hl : t.timers = td :: l)
    {now firstInterval : UInt32} (hlt : now + firstInterval < (t.mem td).timeNext)
    (interval : UInt32) (data : ℕ) (count : ℤ) :
    ∃ m, (t.addFirst H true now interval firstInterval data count).timers
      = t.fresh :: m := by
  set t' := t.addFirst H true now interval firstInterval data count with ht
  have hperm : t'.timers.Perm (t.fresh :: t.timers) :=
    timers_addFirst_perm h now interval firstInterval data count
  have ho : t'.Ordered := h.addFirst true now interval firstInterval data count
  have hold : ∀ p ∈ t.timers, t'.due t.fresh < t'.due p := by
    intro p hp
    have hp' : p ≠ t.fresh := Nat.ne_of_lt (h.lt_fresh p hp)
    have hfront := (hl ▸ h.heap).front_le p (hl ▸ hp)
    simp only [ht, Timer.due, Timer.addFirst, Bool.not_true, Bool.false_eq_true, if_false,
      Function.update_self, Function.update_of_ne hp']
    exact lt_of_lt_of_le (UInt32.lt_iff_toNat_lt.mp hlt) hfront
  cases hq : t'.timers with
  | nil =>
      have := hperm.length_eq
      simp [hq] at this
  | cons q m =>
      have hqle := (hq ▸ ho.heap).front_le t.fresh (hq ▸ hperm.mem_iff.mpr List.mem_cons_self)
      rcases List.mem_cons.mp (hperm.mem_iff.mp (hq ▸ List.mem_cons_self)) with rfl | hin
      · exact ⟨m, rfl⟩
      · exact absurd (hold q hin) (not_lt.mpr hqle)

end Timer

/-! ## The invariant -/

/-- The invariant of the runs whose calls keep the front. -/
structure TimerState.Sound (s : TimerState) : Prop where
  ordered : s.timer.Ordered
  booked : s.timer.Booked
  live : ∀ td, td ∈ s.timer.timers ↔ td < s.timer.fresh ∧ .deleted td ∉ s.timer.log
  front : ∀ now td, s.phase = .calling now td → ∃ l, s.timer.timers = td :: l
  defined : s.phase ≠ .undefined

/-- At the start nothing was added, fired or deleted. -/
lemma sound_init (H : HeapOps ℕ ℕ) : (timerMachine H).init.Sound where
  ordered := Timer.ordered_empty
  booked := Timer.booked_empty
  live := by simp [timerMachine, Timer.empty]
  front := by simp [timerMachine]
  defined := by simp [timerMachine]

namespace TimerState.Sound

variable {H : HeapOps ℕ ℕ} {s : TimerState}

/-- What holds of the log in a sound state is what is to hold of every history. -/
lemma accounted (h : s.Sound) : s.Accounted where
  fires_le td c hc h0 := by
    have := h.booked.budget td c hc h0
    omega
  silent := h.booked.silent
  deleted_once := h.booked.deleted_once
  live td := by
    rw [h.live]
    constructor
    · rintro ⟨hlt, hdel⟩
      exact ⟨h.booked.added td hlt, hdel⟩
    · rintro ⟨⟨c, hc⟩, hdel⟩
      exact ⟨h.booked.log_lt _ hc, hdel⟩
  nodup := h.ordered.nodup
  defined := h.defined

/-- The callback has pushed a timer that is not in front. -/
lemma front_addFirst (hH : H.FrontStays) (h : s.Sound) {now interval firstInterval : UInt32}
    {data : ℕ} {count : ℤ}
    (hok : (TimerCall.add true now interval firstInterval data count).KeepsFront s) (n : UInt32)
    (td : ℕ) (hph : s.phase = .calling n td) :
    ∃ l, (s.timer.addFirst H true now interval firstInterval data count).timers
      = td :: l := by
  obtain ⟨l, hl⟩ := h.front n td hph
  have hle : (s.timer.mem td).timeNext ≤ now + firstInterval := by
    simp only [TimerCall.KeepsFront, hph] at hok
    exact hok trivial
  have htd : td ≠ s.timer.fresh := by
    have := h.ordered.lt_fresh td (hl ▸ List.mem_cons_self)
    omega
  have hnot : s.timer.fresh ∉ s.timer.timers := fun hmem =>
    absurd (h.ordered.lt_fresh _ hmem) (Nat.lt_irrefl _)
  rw [← List.head?_eq_some_iff]
  simp only [Timer.addFirst, Bool.not_true, Bool.false_eq_true, if_false, hl]
  refine hH _ td l s.timer.fresh (hl ▸ Timer.isHeap_update h.ordered.heap hnot _) ?_
  simp only [Function.update_of_ne htd, Function.update_self]
  exact UInt32.le_iff_toNat_le.mp hle

/-- Adding a timer keeps the state sound, when it does not get before the one being fired. -/
lemma addFirst (hH : H.FrontStays) (h : s.Sound) {allocated : Bool}
    {now interval firstInterval : UInt32} {data : ℕ} {count : ℤ}
    (hok : (TimerCall.add allocated now interval firstInterval data count).KeepsFront s) :
    TimerState.Sound ⟨s.timer.addFirst H allocated now interval firstInterval data count,
      s.phase⟩ := by
  cases allocated with
  | false => exact h
  | true =>
      refine ⟨h.ordered.addFirst true now interval firstInterval data count,
        h.booked.addFirst true now interval firstInterval data count, ?_, h.front_addFirst hH hok,
        h.defined⟩
      intro td
      have hperm := Timer.timers_addFirst_perm (H := H) h.ordered now interval
        firstInterval data count
      show td ∈ (s.timer.addFirst H true now interval firstInterval data count).timers
        ↔ td < s.timer.fresh + 1 ∧ .deleted td ∉ s.timer.log ++ [.added s.timer.fresh count]
      rw [hperm.mem_iff, List.mem_cons, h.live, mem_log_append]
      constructor
      · rintro (rfl | ⟨hlt, hdel⟩)
        · refine ⟨Nat.lt_succ_self _, ?_⟩
          rintro (hin | hin)
          · exact absurd (h.booked.log_lt _ hin) (Nat.lt_irrefl _)
          · cases hin
        · refine ⟨Nat.lt_succ_of_lt hlt, ?_⟩
          rintro (hin | hin)
          · exact hdel hin
          · cases hin
      · rintro ⟨hlt, hdel⟩
        rcases Nat.lt_succ_iff_lt_or_eq.mp hlt with hlt | rfl
        · exact .inr ⟨hlt, fun hin => hdel (.inl hin)⟩
        · exact .inl rfl

/-- So does removing one: it is only marked. -/
lemma remove (h : s.Sound) {td : ℕ} (htd : td < s.timer.fresh) :
    TimerState.Sound ⟨s.timer.remove td, s.phase⟩ where
  ordered := h.ordered.remove td
  booked := h.booked.remove htd
  live p := by
    show p ∈ s.timer.timers ↔ p < s.timer.fresh ∧ .deleted p ∉ s.timer.log ++ [.removed td]
    rw [h.live, mem_log_append]
    simp
  front := h.front
  defined := h.defined

/-- The front structure is deleted, in whatever phase the loop goes on. -/
lemma popAndDelete (h : s.Sound) {td : ℕ} {l : List ℕ} (hl : s.timer.timers = td :: l)
    (now : UInt32) :
    TimerState.Sound ⟨s.timer.popAndDelete H td, .scanning now⟩ := by
  obtain ⟨hperm, ho⟩ := h.ordered.timers_popAndDelete (H := H) hl
  obtain ⟨hlt, hdel⟩ := (h.live td).mp (hl ▸ List.mem_cons_self)
  have hnd := h.ordered.nodup
  rw [hl, List.nodup_cons] at hnd
  refine ⟨ho, h.booked.popAndDelete hlt hdel, ?_, fun _ _ hph => (nomatch hph),
    fun hph => (nomatch hph)⟩
  intro p
  show p ∈ (s.timer.popAndDelete H td).timers
    ↔ p < s.timer.fresh ∧ .deleted p ∉ s.timer.log ++ [.deleted td]
  have hp := h.live p
  rw [hl, List.mem_cons] at hp
  rw [hperm.mem_iff, mem_log_append, not_or]
  constructor
  · intro hin
    obtain ⟨hplt, hpdel⟩ := hp.mp (.inr hin)
    refine ⟨hplt, hpdel, ?_⟩
    intro heq
    cases heq
    exact hnd.1 hin
  · rintro ⟨hplt, hpdel, hne⟩
    rcases hp.mpr ⟨hplt, hpdel⟩ with rfl | hin
    · exact absurd rfl hne
    · exact hin

/-- So does firing the first timer: it stays the first. -/
lemma fire (h : s.Sound) {td : ℕ} {l : List ℕ} (hl : s.timer.timers = td :: l)
    (hc : (s.timer.mem td).count ≠ 0) (now : UInt32) :
    TimerState.Sound ⟨s.timer.fire td, .calling now td⟩ := by
  obtain ⟨hlt, -⟩ := (h.live td).mp (hl ▸ List.mem_cons_self)
  refine ⟨h.ordered.fire td, h.booked.fire hlt hc, ?_, ?_, fun hph => (nomatch hph)⟩
  · intro p
    show p ∈ s.timer.timers ↔ p < s.timer.fresh ∧ .deleted p ∉ s.timer.log ++ [.fired td _ _]
    rw [h.live, mem_log_append]
    simp
  · intro n p hph
    cases hph
    exact ⟨l, hl⟩

/-- So does putting it back, or deleting it, after it was fired. -/
lemma settle (h : s.Sound) {td : ℕ} {l : List ℕ} (hl : s.timer.timers = td :: l) (now : UInt32) :
    TimerState.Sound ⟨s.timer.settle H td, .scanning now⟩ := by
  by_cases hc : (s.timer.mem td).count = 0
  · rw [Timer.settle, if_pos hc]
    exact h.popAndDelete hl now
  · obtain ⟨hperm, ho⟩ := h.ordered.timers_settle (H := H) hl hc
    obtain ⟨hlt, hdel⟩ := (h.live td).mp (hl ▸ List.mem_cons_self)
    refine ⟨ho, h.booked.settle hlt hdel, ?_, ?_, ?_⟩
    · intro p
      rw [hperm.mem_iff, Timer.settle, if_neg hc]
      exact h.live p
    · intro _ _ hph
      cases hph
    · intro hph
      cases hph

/-- Only the timers matter outside the callback. -/
lemma setPhase (h : s.Sound) {ph : TimerPhase} (hph : ∀ now td, ph ≠ .calling now td)
    (hdef : ph ≠ .undefined) : TimerState.Sound ⟨s.timer, ph⟩ where
  ordered := h.ordered
  booked := h.booked
  live := h.live
  front n td heq := absurd heq (hph n td)
  defined := hdef

/-- Every call that keeps the front keeps the invariant. -/
lemma step (hH : H.FrontStays) {s' : TimerState} {e : TimerCall} (h : s.Sound) (hok : e.KeepsFront s)
    (hst : (timerMachine H).step s e = some s') : s'.Sound := by
  cases timerStepTo_of_step hst with
  | add _ => exact h.addFirst hH hok
  | remove _ added _ => exact h.remove added
  | processNone _ _ => exact h
  | process _ _ => exact h.setPhase (fun _ _ => nofun) nofun
  | turnEmpty _ nil => exact absurd nil hok
  | turnDelete _ front _ => exact h.popAndDelete front _
  | turnFire _ front ne _ => exact h.fire front ne _
  | turnStop _ _ _ _ => exact h.setPhase (fun _ _ => nofun) nofun
  | back call =>
      obtain ⟨l, hl⟩ := h.front _ _ call
      exact h.settle hl _

/-- An `add` inside `onTimer` that goes in front: if the callback then removes the timer being fired,
that one is deleted and stays in the vector. -/
lemma exists_not_accounted_add (h : s.Sound) {n now interval firstInterval : UInt32} {td data : ℕ}
    {count : ℤ} (hph : s.phase = .calling n td)
    (hlt : now + firstInterval < (s.timer.mem td).timeNext) :
    ∃ u, (timerMachine H).runFrom
        ⟨s.timer.addFirst H true now interval firstInterval data count, s.phase⟩
        [.remove td, .back] = some u ∧ ¬u.Accounted := by
  obtain ⟨l, hl⟩ := h.front n td hph
  have htd : td ∈ s.timer.timers := hl ▸ List.mem_cons_self
  obtain ⟨hfresh, hdel⟩ := (h.live td).mp htd
  set t := s.timer.addFirst H true now interval firstInterval data count with ht
  have hperm : t.timers.Perm (s.timer.fresh :: s.timer.timers) :=
    Timer.timers_addFirst_perm h.ordered now interval firstInterval data count
  have ho : t.Ordered := h.ordered.addFirst true now interval firstInterval data count
  obtain ⟨m, hm⟩ : ∃ m, t.timers = s.timer.fresh :: m :=
    h.ordered.fresh_front_addFirst hl hlt interval data count
  have htdm : td ∈ m := by
    have hin : td ∈ t.timers := hperm.mem_iff.mpr (List.mem_cons_of_mem _ htd)
    rw [hm] at hin
    exact List.mem_of_ne_of_mem (Nat.ne_of_lt hfresh) hin
  have hdel' : .deleted td ∉ t.log := by
    rw [ht]
    show .deleted td ∉ s.timer.log ++ [.added s.timer.fresh count]
    rw [mem_log_append]
    simpa using hdel
  have hopen : s.phase.Open := by
    rw [hph]
    trivial
  have hcount : ((t.remove td).mem td).count = 0 := by simp [Timer.remove]
  refine ⟨⟨(t.remove td).popAndDelete H td, .scanning n⟩, ?_, ?_⟩
  · have hremove : (timerMachine H).step ⟨t, s.phase⟩ (.remove td)
        = some ⟨t.remove td, s.phase⟩ := if_pos ⟨hopen, Nat.lt_succ_of_lt hfresh, hdel'⟩
    have hback : (timerMachine H).step ⟨t.remove td, s.phase⟩ .back
        = some ⟨(t.remove td).popAndDelete H td, .scanning n⟩ := by
      rw [hph]
      show some _ = some _
      rw [Timer.settle, if_pos hcount]
    exact (Machine.runFrom_cons_eq_some _).mpr
      ⟨_, hremove, (Machine.runFrom_cons_eq_some _).mpr ⟨_, hback, rfl⟩⟩
  · intro hacc
    obtain ⟨hperm', -⟩ := (ho.remove td).timers_popAndDelete (H := H)
      (show (t.remove td).timers = s.timer.fresh :: m from hm)
    have hin : td ∈ ((t.remove td).popAndDelete H td).timers :=
      hperm'.mem_iff.mpr htdm
    exact ((hacc.live td).mp hin).2 (List.mem_append_right _ List.mem_cons_self)

/-- A call that does not keep the front can be continued to a history that is not accounted for. -/
lemma exists_not_accounted {s' : TimerState} {e : TimerCall} (h : s.Sound) (hbad : ¬e.KeepsFront s)
    (hst : (timerMachine H).step s e = some s') :
    ∃ fs u, (timerMachine H).runFrom s' fs = some u ∧ ¬u.Accounted := by
  cases timerStepTo_of_step hst with
  | add _ =>
      simp only [TimerCall.KeepsFront] at hbad
      split at hbad
      · next n td hph =>
          rw [Classical.not_imp] at hbad
          obtain ⟨rfl, hlt⟩ := hbad
          exact ⟨_, h.exists_not_accounted_add hph (UInt32.not_le.mp hlt)⟩
      · exact absurd trivial hbad
  | turnEmpty _ _ => exact ⟨[], _, rfl, fun hacc => hacc.defined rfl⟩
  | turnDelete _ front _ => exact absurd (by simp [TimerCall.KeepsFront, front]) hbad
  | turnFire _ front _ _ => exact absurd (by simp [TimerCall.KeepsFront, front]) hbad
  | turnStop _ front _ _ => exact absurd (by simp [TimerCall.KeepsFront, front]) hbad
  | remove _ _ _ => exact absurd trivial hbad
  | processNone _ _ => exact absurd trivial hbad
  | process _ _ => exact absurd trivial hbad
  | back _ => exact absurd trivial hbad

end TimerState.Sound

/-! ## Runs -/

/-- **Accounting along whole runs.** Every state reached by a run of `add`, `remove` and `process`,
callbacks included, whose calls all keep the front is `Accounted`, with every `push_heap` that passes
no equal entry. The condition is exact: a next call that does not keep the front can be continued to a
state that is not. -/
theorem accounted_of_keepsFront (H : HeapOps ℕ ℕ) (hH : H.FrontStays) (es : List TimerCall)
    (s : TimerState)
    (hok : (timerMachine H).Meets (fun s e => e.KeepsFront s) es)
    (hrun : (timerMachine H).run es = some s) :
    s.Accounted ∧
    ∀ e s', (timerMachine H).step s e = some s' → ¬e.KeepsFront s →
      ∃ fs u, (timerMachine H).runFrom s' fs = some u ∧ ¬u.Accounted := by
  have hsound : s.Sound := (timerMachine H).meets_invariant (sound_init _)
    (fun _ _ _ hs he hst => hs.step hH he hst) hok hrun
  refine ⟨hsound.accounted, ?_⟩
  intro e s' hst hbad
  exact hsound.exists_not_accounted hbad hst

/-- A timer with one firing whose callback adds a timer and removes another. -/
theorem accounted_of_keepsFront_callback :
    ∃ s, (timerMachine (siftOps ℕ ℕ)).run
        [.add true 0 10 5 0 1, .add true 0 50 50 1 (-1), .process 5, .turn, .add true 5 10 10 2 3,
          .remove 1, .back, .turn] = some s ∧ s.Accounted := by
  refine ⟨_, rfl, (accounted_of_keepsFront (siftOps ℕ ℕ) frontStays_siftOps
    [.add true 0 10 5 0 1, .add true 0 50 50 1 (-1), .process 5, .turn, .add true 5 10 10 2 3,
      .remove 1, .back, .turn] _ ?_ rfl).1⟩
  refine .cons rfl trivial (.cons rfl trivial (.cons rfl trivial (.cons rfl ?_ (.cons rfl ?_
    (.cons rfl trivial (.cons rfl trivial (.cons rfl ?_ trivial)))))))
  · exact List.cons_ne_nil _ _
  · exact fun _ => by decide
  · exact List.cons_ne_nil _ _

/-- A callback that adds a timer with a first interval of `2 ^ 32 - 50` at time 100, while a timer due
at 100 has its last firing: the new timer is due at 50 and goes in front, so that it is the one that
leaves the vector, and the fired timer, deleted, stays. -/
theorem not_accounted_wrapped_add :
    ∃ s, (timerMachine (siftOps ℕ ℕ)).run
        [.add true 100 10 0 0 1, .process 100, .turn, .add true 100 10 4294967246 1 (-1), .back]
        = some s ∧
      s.timer.timers = [0] ∧ .deleted 0 ∈ s.timer.log ∧ .deleted 1 ∉ s.timer.log ∧
      ¬s.Accounted := by
  refine ⟨_, rfl, by decide, by decide, by decide, ?_⟩
  intro hacc
  exact absurd ((hacc.live 0).mp (by decide)).2 (by decide)

end CocInside.System
