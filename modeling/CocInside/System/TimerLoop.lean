import CocInside.Lib.Loop
import CocInside.System.TimerAccounting
import Mathlib.Order.Lattice.Nat

/-!
# When the loop of `process` ends, and how

`process` checks once that there are timers, then takes turns until it meets one that is not due. It
does not check again that a timer is left, and due times are counted on in 32 bits.

* `TimerStruct.dueAt`: the due times of a timer, as the code counts them on.
* `TimerStruct.Outlasts`: the timers a call does not delete. Such a timer stays in the vector
  through every turn; without one the loop deletes every timer and looks at an empty vector.
* `TimerStruct.lastDue`: the greatest due time a timer ever gets. An unlimited timer whose greatest
  due time is not after now keeps the loop going for ever; without one every turn takes off
  `TimerStruct.turnsLeft`.
* `exists_run_process`: the loop is the part of `timerMachine` whose callbacks leave the timers alone.
* `neverLooksEmpty_iff`, `finitelyManyTurns_iff`: the same for timers built by any calls of `add` and
  `remove`.

Source: `System/Timer.cpp`.
-/

namespace CocInside.System

open CocInside.Lib StateTransition

/-! ## Due times of one timer -/

namespace TimerStruct

/-- The due time after `j` firings, counted on in 32 bits. -/
def dueAt (s : TimerStruct) (j : ℕ) : ℕ := (s.timeNext.toNat + j * s.interval.toNat) % 2 ^ 32

/-- A call at `now` does not delete the timer: it is unlimited, or one of the due times it is to be
fired for is after `now`. -/
def Outlasts (s : TimerStruct) (now : UInt32) : Prop :=
  s.count < 0 ∨ ∃ j < s.count.toNat, now.toNat < s.dueAt j

instance (s : TimerStruct) (now : UInt32) : Decidable (s.Outlasts now) :=
  inferInstanceAs (Decidable (_ ∨ _))

/-- The greatest of all due times: the last 32-bit number that differs from `timeNext` by a multiple
of the greatest power of two in the interval. -/
def lastDue (s : TimerStruct) : ℕ :=
  2 ^ 32 - s.interval.toNat.gcd (2 ^ 32) + s.timeNext.toNat % s.interval.toNat.gcd (2 ^ 32)

/-- An unlimited timer that is due at `now` after any number of firings. -/
def Stuck (s : TimerStruct) (now : UInt32) : Prop := s.count < 0 ∧ ¬now.toNat < s.lastDue

/-- The structure with its next due time. -/
def later (s : TimerStruct) : TimerStruct := { s with timeNext := s.timeNext + s.interval }

/-- How many turns of the loop at `now` may have the timer at the front with firings left. -/
noncomputable def turnsLeft (now : UInt32) (s : TimerStruct) : ℕ :=
  if s.count < 0 then sInf {j | now.toNat < s.dueAt j} else s.count.toNat

variable {s : TimerStruct} {now : UInt32}

/-- The first due time is the one it is set to. -/
lemma dueAt_zero (s : TimerStruct) : s.dueAt 0 = s.timeNext.toNat := by
  rw [dueAt, Nat.zero_mul, Nat.add_zero, Nat.mod_eq_of_lt s.timeNext.toNat_lt]

/-- From the next due time on, the due times are those after the first. -/
lemma dueAt_later (s : TimerStruct) (j : ℕ) : s.later.dueAt j = s.dueAt (j + 1) := by
  simp only [dueAt, later, UInt32.toNat_add, Nat.mod_add_mod]
  congr 1
  ring

/-- A firing takes the first due time off. -/
lemma dueAt_advance (s : TimerStruct) (j : ℕ) : s.advance.dueAt j = s.dueAt (j + 1) :=
  s.dueAt_later j

/-- Some due time is after `x` exactly if the greatest one is. -/
lemma exists_lt_dueAt_iff (s : TimerStruct) (x : ℕ) : (∃ j, x < s.dueAt j) ↔ x < s.lastDue :=
  exists_lt_add_mul_mod_iff (by decide) _ _ _

/-- The due time that is after `now` is not the one the timer is fired for now. -/
lemma exists_lt_dueAt_advance (hdue : s.timeNext ≤ now) {j : ℕ} (h : now.toNat < s.dueAt j) :
    ∃ i, j = i + 1 ∧ now.toNat < s.advance.dueAt i := by
  cases j with
  | zero =>
      rw [dueAt_zero] at h
      exact absurd (UInt32.le_iff_toNat_le.mp hdue) (Nat.not_le.mpr h)
  | succ i => exact ⟨i, rfl, (s.dueAt_advance i).symm ▸ h⟩

/-- Firing a timer does not change whether the call deletes it. -/
lemma outlasts_advance_iff (hdue : s.timeNext ≤ now) :
    s.advance.Outlasts now ↔ s.Outlasts now := by
  have hcount : s.advance.count = if s.count > 0 then s.count - 1 else s.count := rfl
  constructor
  · rintro (h | ⟨i, hi, hlt⟩)
    · refine .inl ?_
      split_ifs at hcount <;> omega
    · refine .inr ⟨i + 1, ?_, s.dueAt_advance i ▸ hlt⟩
      split_ifs at hcount <;> omega
  · rintro (h | ⟨j, hj, hlt⟩)
    · refine .inl ?_
      split_ifs at hcount <;> omega
    · obtain ⟨i, rfl, hnext⟩ := exists_lt_dueAt_advance hdue hlt
      refine .inr ⟨i, ?_, hnext⟩
      split_ifs at hcount <;> omega

/-- A removed timer does not outlast the call. -/
lemma not_outlasts_of_count (hc : s.count = 0) : ¬s.Outlasts now := by
  rintro (h | ⟨j, hj, -⟩)
  · omega
  · omega

/-- A firing takes a turn off, if the timer is to be left alone some time. -/
lemma turnsLeft_advance_lt (hdue : s.timeNext ≤ now) (hc0 : s.count ≠ 0)
    (hlast : s.count < 0 → now.toNat < s.lastDue) :
    s.advance.turnsLeft now < s.turnsLeft now := by
  have hcount : s.advance.count = if s.count > 0 then s.count - 1 else s.count := rfl
  by_cases hneg : s.count < 0
  · rw [if_neg (by omega)] at hcount
    rw [turnsLeft, turnsLeft, if_pos (hcount ▸ hneg), if_pos hneg]
    have hmem : now.toNat < s.dueAt (sInf {j | now.toNat < s.dueAt j}) :=
      Nat.sInf_mem ((s.exists_lt_dueAt_iff _).mpr (hlast hneg))
    obtain ⟨i, hi, hlt⟩ := exists_lt_dueAt_advance hdue hmem
    rw [hi]
    exact Nat.lt_succ_of_le (Nat.sInf_le hlt)
  · rw [if_pos (by omega)] at hcount
    rw [turnsLeft, turnsLeft, if_neg (by omega), if_neg hneg]
    omega

/-- A firing does not change whether the due times ever get past `now`. -/
lemma lt_lastDue_advance_iff (hdue : s.timeNext ≤ now) :
    now.toNat < s.advance.lastDue ↔ now.toNat < s.lastDue := by
  rw [← exists_lt_dueAt_iff, ← exists_lt_dueAt_iff]
  constructor
  · rintro ⟨i, hlt⟩
    exact ⟨i + 1, s.dueAt_advance i ▸ hlt⟩
  · rintro ⟨j, hlt⟩
    obtain ⟨i, -, hnext⟩ := exists_lt_dueAt_advance hdue hlt
    exact ⟨i, hnext⟩

/-- A timer whose due times never get past `now` is due. -/
lemma timeNext_le_of_lastDue_le (h : ¬now.toNat < s.lastDue) : s.timeNext ≤ now := by
  rw [← exists_lt_dueAt_iff] at h
  rw [UInt32.le_iff_toNat_le, ← dueAt_zero]
  exact Nat.not_lt.mp fun hlt => h ⟨0, hlt⟩

end TimerStruct

/-! ## The loop -/

namespace Timer

/-- The timers after a turn from which the loop goes on. -/
def next (H : HeapOps ℕ ℕ) (now : UInt32) (t : Timer) : Option Timer :=
  match t.turn H now with
  | .undefined => none
  | .stop => none
  | .next t' => some t'

/-- `process`, called for `t` at `now`, evaluates `front` only on a vector with an element. -/
def NeverLooksEmpty (H : HeapOps ℕ ℕ) (now : UInt32) (t : Timer) : Prop :=
  t.timers ≠ [] → ∀ t', Reaches (next H now) t t' → t'.timers ≠ []

/-- `process`, called for `t` at `now`, comes to a last turn. -/
def FinitelyManyTurns (H : HeapOps ℕ ℕ) (now : UInt32) (t : Timer) : Prop :=
  t.timers ≠ [] → ∃ t', Reaches (next H now) t t' ∧ next H now t' = none

/-- No unlimited timer stays due for ever. -/
def AllGetPast (now : UInt32) (t : Timer) : Prop :=
  ∀ td ∈ t.timers, (t.mem td).count < 0 → now.toNat < (t.mem td).lastDue

/-- Some timer is not deleted by a call at `now`. -/
def SomeOutlasts (now : UInt32) (t : Timer) : Prop := ∃ td ∈ t.timers, (t.mem td).Outlasts now

instance (now : UInt32) (t : Timer) : Decidable (t.AllGetPast now) :=
  inferInstanceAs (Decidable (∀ td ∈ t.timers, _ → _))

instance (now : UInt32) (t : Timer) : Decidable (t.SomeOutlasts now) :=
  inferInstanceAs (Decidable (∃ td ∈ t.timers, (t.mem td).Outlasts now))

variable {H : HeapOps ℕ ℕ} {now : UInt32} {t t₁ t' : Timer} {td : ℕ} {l : List ℕ}

/-- The loop goes on exactly when its turn does. -/
lemma next_eq_some_iff : t.next H now = some t₁ ↔ t.turn H now = .next t₁ := by
  unfold next
  split <;> simp_all

/-- The loop does not go on after the `break`, nor on an empty vector. -/
lemma next_eq_none_iff :
    t.next H now = none ↔ t.turn H now = .undefined ∨ t.turn H now = .stop := by
  unfold next
  split <;> simp_all

/-- The loop of `process` ends with the `break` of a state it reaches. -/
lemma processLoop_eq_some_iff :
    (∃ fuel, processLoop H now fuel t = some t') ↔
      Reaches (next H now) t t' ∧ t'.turn H now = .stop := by
  constructor
  · rintro ⟨fuel, h⟩
    induction fuel generalizing t with
    | zero => cases h
    | succ fuel ih =>
        rw [processLoop] at h
        cases hturn : t.turn H now with
        | undefined => simp [hturn] at h
        | stop =>
            rw [hturn] at h
            cases h
            exact ⟨.refl, hturn⟩
        | next t₁ =>
            rw [hturn] at h
            obtain ⟨hreach, hstop⟩ := ih h
            exact ⟨.head (next_eq_some_iff.mpr hturn) hreach, hstop⟩
  · rintro ⟨hreach, hstop⟩
    induction hreach using Relation.ReflTransGen.head_induction_on with
    | refl => exact ⟨1, by simp [processLoop, hstop]⟩
    | head hstep _ ih =>
        obtain ⟨fuel, hfuel⟩ := ih
        exact ⟨fuel + 1, by simp [processLoop, next_eq_some_iff.mp hstep, hfuel]⟩

/-! ## What the turns keep -/

/-- What holds of some timer, and of no timer that goes for good, still holds of some timer after a
turn, if firing keeps it. -/
lemma Ordered.exists_turn {P : TimerStruct → Prop} (h : t.Ordered)
    (hturn : t.turn H now = .next t₁) (hend : ∀ td, t.Ending now td → ¬P (t.mem td))
    (hadv : ∀ s : TimerStruct, s.count ≠ 0 → s.count ≠ 1 → s.timeNext ≤ now → P s → P s.advance)
    (hex : ∃ p ∈ t.timers, P (t.mem p)) : ∃ p ∈ t₁.timers, P (t₁.mem p) := by
  obtain ⟨p, hp, hP⟩ := hex
  obtain ⟨td, l, hl, ⟨hending, pre, hdrop⟩ | ⟨hc0, hc1, hdue, hkept⟩⟩ := h.turn_cases hturn
  · have hptd : p ≠ td := by
      rintro rfl
      exact hend p hending hP
    refine ⟨p, (hdrop.mem_timers_iff h hl).mpr ⟨hptd, hp⟩, ?_⟩
    rw [hdrop.mem p hptd]
    exact hP
  · refine ⟨p, hkept.perm.mem_iff.mpr hp, ?_⟩
    by_cases hptd : p = td
    · subst hptd
      rw [hkept.front]
      exact hadv _ hc0 hc1 hdue hP
    · rw [hkept.mem p hptd]
      exact hP

/-- What holds of every timer still does after a turn, if firing keeps it. -/
lemma Ordered.forall_turn {P : TimerStruct → Prop} (h : t.Ordered)
    (hturn : t.turn H now = .next t₁)
    (hadv : ∀ s : TimerStruct, s.count ≠ 0 → s.count ≠ 1 → s.timeNext ≤ now → P s → P s.advance)
    (hall : ∀ p ∈ t.timers, P (t.mem p)) : ∀ p ∈ t₁.timers, P (t₁.mem p) := by
  intro p hp
  obtain ⟨td, l, hl, ⟨-, pre, hdrop⟩ | ⟨hc0, hc1, hdue, hkept⟩⟩ := h.turn_cases hturn
  · obtain ⟨hptd, hpt⟩ := (hdrop.mem_timers_iff h hl).mp hp
    rw [hdrop.mem p hptd]
    exact hall p hpt
  · have hpt := hkept.perm.mem_iff.mp hp
    by_cases hptd : p = td
    · subst hptd
      rw [hkept.front]
      exact hadv _ hc0 hc1 hdue (hall p hpt)
    · rw [hkept.mem p hptd]
      exact hall p hpt

/-- A turn keeps the heap ordered. -/
lemma Ordered.of_turn (h : t.Ordered) (hturn : t.turn H now = .next t₁) : t₁.Ordered := by
  obtain ⟨td, l, -, ⟨-, pre, hdrop⟩ | ⟨-, -, -, hkept⟩⟩ := h.turn_cases hturn
  · exact hdrop.ordered
  · exact hkept.ordered

/-- A timer that goes for good does not outlast the call. -/
lemma Ending.not_outlasts (h : t.Ending now td) : ¬(t.mem td).Outlasts now := by
  rcases h with hc | ⟨hc, hdue⟩
  · exact TimerStruct.not_outlasts_of_count hc
  · rw [← TimerStruct.outlasts_advance_iff hdue]
    refine TimerStruct.not_outlasts_of_count ?_
    simp [TimerStruct.advance, hc]

/-! ## Looking at an empty vector -/

/-- A turn deletes no timer that outlasts the call, and makes none outlast it. -/
lemma Ordered.someOutlasts_iff_of_turn (h : t.Ordered) (hturn : t.turn H now = .next t₁) :
    t₁.SomeOutlasts now ↔ t.SomeOutlasts now := by
  constructor
  · intro hout
    by_contra hnone
    have hall := h.forall_turn (P := fun s => ¬s.Outlasts now) hturn
      (fun s _ _ hdue hs => (TimerStruct.outlasts_advance_iff hdue).not.mpr hs)
      (fun p hp hs => hnone ⟨p, hp, hs⟩)
    obtain ⟨p, hp, hs⟩ := hout
    exact hall p hp hs
  · intro hout
    refine h.exists_turn (P := (·.Outlasts now)) hturn (fun _ hend => hend.not_outlasts) ?_ hout
    intro s _ _ hdue hs
    exact (TimerStruct.outlasts_advance_iff hdue).mpr hs

/-- So does the whole loop. -/
lemma Ordered.someOutlasts_iff_of_reaches (h : t.Ordered) (hreach : Reaches (next H now) t t') :
    t'.SomeOutlasts now ↔ t.SomeOutlasts now := by
  have hstep : ∀ u v : Timer, (u.Ordered ∧ (u.SomeOutlasts now ↔ t.SomeOutlasts now)) →
      u.next H now = some v → v.Ordered ∧ (v.SomeOutlasts now ↔ t.SomeOutlasts now) := by
    rintro u v ⟨ho, hiff⟩ huv
    rw [next_eq_some_iff] at huv
    exact ⟨ho.of_turn huv, (ho.someOutlasts_iff_of_turn huv).trans hiff⟩
  exact (reaches_invariant hstep ⟨h, Iff.rfl⟩ hreach).2

/-- A timer that is not due and has firings left outlasts the call. -/
lemma someOutlasts_of_stop (h : t.turn H now = .stop) : t.SomeOutlasts now := by
  obtain ⟨td, l, hl, hc, hlt⟩ := turn_eq_stop_iff.mp h
  refine ⟨td, hl ▸ List.mem_cons_self, ?_⟩
  by_cases hneg : (t.mem td).count < 0
  · exact .inl hneg
  · refine .inr ⟨0, by omega, ?_⟩
    rw [TimerStruct.dueAt_zero]
    exact UInt32.lt_iff_toNat_lt.mp hlt

/-- With a timer that outlasts the call the vector is not empty. -/
lemma SomeOutlasts.ne_nil (h : t.SomeOutlasts now) : t.timers ≠ [] := by
  obtain ⟨td, htd, -⟩ := h
  exact List.ne_nil_of_mem htd

/-- Where no unlimited timer stays due for ever, the loop comes to a last turn. -/
lemma Ordered.exists_last (h : t.Ordered) (hpast : t.AllGetPast now) :
    ∃ t', Reaches (next H now) t t' ∧ next H now t' = none := by
  have hstep : ∀ u v : Timer, u.Ordered ∧ u.AllGetPast now → u.next H now = some v →
      (v.Ordered ∧ v.AllGetPast now) ∧
        v.weight (TimerStruct.turnsLeft now) < u.weight (TimerStruct.turnsLeft now) := by
    rintro u v ⟨ho, hall⟩ huv
    rw [next_eq_some_iff] at huv
    refine ⟨⟨ho.of_turn huv, ?_⟩, ?_⟩
    · refine ho.forall_turn (P := fun s => s.count < 0 → now.toNat < s.lastDue) huv ?_ hall
      intro s hc0 hc1 hdue hs hneg
      rw [TimerStruct.lt_lastDue_advance_iff hdue]
      refine hs ?_
      simp only [TimerStruct.advance] at hneg
      split_ifs at hneg <;> omega
    · obtain ⟨td, l, hl, ⟨-, pre, hdrop⟩ | ⟨hc0, -, hdue, hkept⟩⟩ := ho.turn_cases huv
      · exact hdrop.weight_lt ho hl _
      · exact hkept.weight_lt ho hl
          (TimerStruct.turnsLeft_advance_lt hdue hc0 (hall td (hl ▸ List.mem_cons_self)))
  obtain ⟨t', hreach, hlast, -⟩ := exists_reaches_none _ hstep ⟨h, hpast⟩
  exact ⟨t', hreach, hlast⟩

/-- Where no timer outlasts the call, none is unlimited, and so none stays due for ever. -/
lemma allGetPast_of_not_someOutlasts (h : ¬t.SomeOutlasts now) : t.AllGetPast now := by
  intro td htd hneg
  exact absurd ⟨td, htd, .inl hneg⟩ h

/-- A call that no timer outlasts deletes them all. -/
lemma Ordered.exists_empty (h : t.Ordered) (hout : ¬t.SomeOutlasts now) :
    ∃ t', Reaches (next H now) t t' ∧ t'.timers = [] := by
  obtain ⟨t', hreach, hlast⟩ := h.exists_last (H := H) (allGetPast_of_not_someOutlasts hout)
  refine ⟨t', hreach, ?_⟩
  rcases next_eq_none_iff.mp hlast with hundef | hstop
  · exact turn_eq_undefined_iff.mp hundef
  · exact absurd ((h.someOutlasts_iff_of_reaches hreach).mp (someOutlasts_of_stop hstop)) hout

/-- **Looking at an empty vector.** -/
lemma Ordered.neverLooksEmpty_iff_someOutlasts (h : t.Ordered) :
    t.NeverLooksEmpty H now ↔ t.timers = [] ∨ t.SomeOutlasts now := by
  constructor
  · intro hnever
    by_cases hnil : t.timers = []
    · exact .inl hnil
    · refine .inr (by_contra fun hout => ?_)
      obtain ⟨t', hreach, hempty⟩ := h.exists_empty (H := H) hout
      exact hnever hnil t' hreach hempty
  · rintro (hnil | hout) hne t' hreach
    · exact absurd hnil hne
    · exact ((h.someOutlasts_iff_of_reaches hreach).mpr hout).ne_nil

/-! ## Going on for ever -/

/-- While some timer is due, the loop goes on: the front is due too, or goes for good. -/
lemma Ordered.exists_next (h : t.Ordered) (htd : td ∈ t.timers) (hdue : (t.mem td).timeNext ≤ now) :
    ∃ t₁, t.next H now = some t₁ := by
  cases hnext : t.next H now with
  | some t₁ => exact ⟨t₁, rfl⟩
  | none =>
      rcases next_eq_none_iff.mp hnext with hundef | hstop
      · rw [turn_eq_undefined_iff.mp hundef] at htd
        cases htd
      · obtain ⟨p, l, hl, -, hlt⟩ := turn_eq_stop_iff.mp hstop
        have hfront := (hl ▸ h.heap).front_le td (hl ▸ htd)
        exact absurd ((UInt32.lt_iff_toNat_lt.mp hlt).trans_le hfront)
          (Nat.not_lt.mpr (UInt32.le_iff_toNat_le.mp hdue))

/-- An unlimited timer that stays due keeps the loop going. -/
lemma Ordered.ne_none_of_stuck (h : t.Ordered) (hpast : ¬t.AllGetPast now)
    (hreach : Reaches (next H now) t t') : next H now t' ≠ none := by
  have hstep : ∀ u : Timer, (u.Ordered ∧ ∃ p ∈ u.timers, (u.mem p).Stuck now) →
      ∃ v, u.next H now = some v ∧ v.Ordered ∧ ∃ p ∈ v.timers, (v.mem p).Stuck now := by
    rintro u ⟨ho, hex⟩
    obtain ⟨p, hp, hs⟩ := id hex
    obtain ⟨v, huv⟩ := ho.exists_next (H := H) hp (TimerStruct.timeNext_le_of_lastDue_le hs.2)
    have hturn := next_eq_some_iff.mp huv
    refine ⟨v, huv, ho.of_turn hturn, ?_⟩
    refine ho.exists_turn (P := (·.Stuck now)) hturn ?_ ?_ hex
    · rintro q (hc | ⟨hc, -⟩) ⟨hneg, -⟩
      · omega
      · omega
    · rintro s hc0 hc1 hdue ⟨hneg, hlast⟩
      refine ⟨?_, ?_⟩
      · simp only [TimerStruct.advance]
        split_ifs <;> omega
      · rwa [TimerStruct.lt_lastDue_advance_iff hdue]
  refine ne_none_of_reaches hstep ⟨h, ?_⟩ hreach
  unfold AllGetPast at hpast
  push Not at hpast
  obtain ⟨td, htd, hneg, hlast⟩ := hpast
  exact ⟨td, htd, hneg, Nat.not_lt.mpr hlast⟩

/-- **Going on for ever.** -/
lemma Ordered.finitelyManyTurns_iff_allGetPast (h : t.Ordered) :
    t.FinitelyManyTurns H now ↔ t.AllGetPast now := by
  constructor
  · intro hfin
    by_cases hnil : t.timers = []
    · intro td htd
      rw [hnil] at htd
      cases htd
    · by_contra hpast
      obtain ⟨t', hreach, hlast⟩ := hfin hnil
      exact h.ne_none_of_stuck hpast hreach hlast
  · intro hpast _
    exact h.exists_last hpast

/-- The call returns exactly if it comes to a last turn and that turn finds a timer. -/
lemma Ordered.process_returns_iff (h : t.Ordered) :
    (∃ fuel t', t.process H now fuel = some t') ↔
      t.AllGetPast now ∧ (t.timers = [] ∨ t.SomeOutlasts now) := by
  by_cases hnil : t.timers = []
  · refine iff_of_true ⟨0, t, if_pos hnil⟩ ⟨?_, .inl hnil⟩
    intro td htd
    rw [hnil] at htd
    cases htd
  · have hloop : (∃ fuel t', t.process H now fuel = some t') ↔
        ∃ t', Reaches (next H now) t t' ∧ t'.turn H now = .stop := by
      simp only [process, if_neg hnil]
      rw [exists_comm]
      exact exists_congr fun t' => processLoop_eq_some_iff
    rw [hloop]
    constructor
    · rintro ⟨t', hreach, hstop⟩
      have hlast := next_eq_none_iff.mpr (.inr hstop)
      refine ⟨h.finitelyManyTurns_iff_allGetPast.mp fun _ => ⟨t', hreach, hlast⟩, .inr ?_⟩
      exact (h.someOutlasts_iff_of_reaches hreach).mp (someOutlasts_of_stop hstop)
    · rintro ⟨hpast, hout⟩
      obtain ⟨t', hreach, hlast⟩ := h.exists_last (H := H) hpast
      refine ⟨t', hreach, ?_⟩
      rcases next_eq_none_iff.mp hlast with hundef | hstop
      · have hsome := (h.someOutlasts_iff_of_reaches hreach).mpr (hout.resolve_left hnil)
        exact absurd (turn_eq_undefined_iff.mp hundef) hsome.ne_nil
      · exact hstop

end Timer

/-! ## The loop as a run of the machine -/

/-- The steps of a call whose callbacks leave the timers alone. -/
def TimerCall.Quiet : TimerCall → Prop
  | .turn => True
  | .back => True
  | _ => False

/-- A turn of the loop is a turn of the machine, with the return of the callback if there is one. -/
lemma exists_runFrom_of_turn {H : HeapOps ℕ ℕ} {now : UInt32} {t t₁ : Timer}
    (h : t.turn H now = .next t₁) : ∃ es : List TimerCall, (∀ e ∈ es, e.Quiet) ∧
      (timerMachine H).runFrom ⟨t, .scanning now⟩ es = some ⟨t₁, .scanning now⟩ := by
  cases hl : t.timers with
  | nil =>
      rw [Timer.turn_eq_undefined_iff.mpr hl] at h
      cases h
  | cons td l =>
      simp only [Timer.turn, hl] at h
      split_ifs at h with hc hdue
      · cases h
        refine ⟨[.turn], by simp [TimerCall.Quiet], ?_⟩
        simp [Machine.runFrom, timerMachine, timerStep, hl, hc]
      · cases h
        refine ⟨[.turn, .back], by simp [TimerCall.Quiet], ?_⟩
        simp [Machine.runFrom, timerMachine, timerStep, hl, hc, hdue]

/-- The states the loop reaches are reached by the machine. -/
lemma exists_runFrom_of_reaches {H : HeapOps ℕ ℕ} {now : UInt32} {t t' : Timer}
    (h : Reaches (Timer.next H now) t t') : ∃ es : List TimerCall, (∀ e ∈ es, e.Quiet) ∧
      (timerMachine H).runFrom ⟨t, .scanning now⟩ es = some ⟨t', .scanning now⟩ := by
  induction h using Relation.ReflTransGen.head_induction_on with
  | refl => exact ⟨[], by simp, rfl⟩
  | head hstep _ ih =>
      obtain ⟨es, hes, hrun⟩ := exists_runFrom_of_turn (Timer.next_eq_some_iff.mp hstep)
      obtain ⟨fs, hfs, hrun'⟩ := ih
      refine ⟨es ++ fs, ?_, ?_⟩
      · intro e he
        exact (List.mem_append.mp he).elim (hes e) (hfs e)
      · rw [Machine.runFrom_append, hrun]
        exact hrun'

/-- How a call of `process` for some timers ends, in the loop and in the machine: at a timer that is
not due, or by looking at an empty vector. -/
theorem exists_run_process {H : HeapOps ℕ ℕ} {now : UInt32} {t t' : Timer} (hne : t.timers ≠ [])
    (h : Reaches (Timer.next H now) t t') :
    (t'.turn H now = .stop → ∃ es : List TimerCall, (∀ e ∈ es, e.Quiet) ∧
      (timerMachine H).runFrom ⟨t, .idle⟩ (.process now :: es) = some ⟨t', .idle⟩) ∧
    (t'.turn H now = .undefined → ∃ es : List TimerCall, (∀ e ∈ es, e.Quiet) ∧
      (timerMachine H).runFrom ⟨t, .idle⟩ (.process now :: es) = some ⟨t', .undefined⟩) := by
  obtain ⟨es, hes, hrun⟩ := exists_runFrom_of_reaches h
  have hcall : (timerMachine H).step ⟨t, .idle⟩ (.process now) = some ⟨t, .scanning now⟩ := by
    simp [timerMachine, timerStep, hne]
  have hquiet : ∀ e ∈ es ++ [.turn], e.Quiet := by
    intro e he
    rcases List.mem_append.mp he with he | he
    · exact hes e he
    · cases List.mem_singleton.mp he
      trivial
  refine ⟨?_, ?_⟩
  · intro hstop
    obtain ⟨td, l, hl, hc, hlt⟩ := Timer.turn_eq_stop_iff.mp hstop
    refine ⟨es ++ [.turn], hquiet, ?_⟩
    rw [Machine.runFrom, hcall, Option.bind_some, Machine.runFrom_append, hrun, Option.bind_some]
    simp [Machine.runFrom, timerMachine, timerStep, hl, hc, UInt32.not_le.mpr hlt]
  · intro hundef
    refine ⟨es ++ [.turn], hquiet, ?_⟩
    rw [Machine.runFrom, hcall, Option.bind_some, Machine.runFrom_append, hrun, Option.bind_some]
    simp [Machine.runFrom, timerMachine, timerStep, Timer.turn_eq_undefined_iff.mp hundef]

/-! ## Callbacks that use the timers -/

/-- The timer `q` outlasts the call of `process` that is going on. While it is fired, its count is
down already but its due time is not yet the next. -/
def TimerState.Outlasting (s : TimerState) (q : ℕ) : Prop :=
  match s.phase with
  | .scanning now => (s.timer.mem q).Outlasts now
  | .calling now td =>
      (if q = td then (s.timer.mem q).later else s.timer.mem q).Outlasts now
  | _ => False

/-- A call that leaves a timer for the loop to find: `process` is called for no timers or for one
that outlasts the call, and a callback neither removes the last such timer nor adds one in front of
the timer being fired. -/
def TimerCall.LeavesOne (s : TimerState) : TimerCall → Prop
  | .add allocated now _ firstInterval _ _ =>
      match s.phase with
      | .calling _ td => allocated = true → (s.timer.mem td).timeNext ≤ now + firstInterval
      | _ => True
  | .remove td =>
      match s.phase with
      | .calling _ _ => ∃ q ∈ s.timer.timers, q ≠ td ∧ s.Outlasting q
      | _ => True
  | .process now => s.timer.timers = [] ∨ s.timer.SomeOutlasts now
  | _ => True

/-- While `process` is going on, some timer outlasts it. -/
def TimerState.Occupied (s : TimerState) : Prop :=
  s.phase = .idle ∨ ∃ q ∈ s.timer.timers, s.Outlasting q

namespace TimerState.Occupied

variable {H : HeapOps ℕ ℕ} {s s' : TimerState}

/-- Calls that leave a timer keep the front. -/
lemma keepsFront (h : s.Occupied) {e : TimerCall} (hok : e.LeavesOne s)
    (hst : (timerMachine H).step s e = some s') : e.KeepsFront s := by
  cases e with
  | add allocated now interval firstInterval data count => exact hok
  | turn =>
      rcases h with hidle | ⟨q, hq, -⟩
      · simp [timerMachine, timerStep, hidle] at hst
      · exact List.ne_nil_of_mem hq
  | remove td => trivial
  | process now => trivial
  | back => trivial

/-- Calls that do not write the structure do not change whether it outlasts the call. -/
lemma outlasting_of_mem {t : Timer} {q : ℕ} (h : s.Outlasting q) (hmem : t.mem q = s.timer.mem q) :
    Outlasting ⟨t, s.phase⟩ q := by
  simp only [Outlasting, hmem]
  exact h

/-- A timer that is added does not take away the one that outlasts the call. -/
lemma addFirst (h : s.Occupied) (ho : s.timer.Ordered) (allocated : Bool)
    (now interval firstInterval : UInt32) (data : ℕ) (count : ℤ) :
    Occupied ⟨s.timer.addFirst H allocated now interval firstInterval data count,
      s.phase⟩ := by
  cases allocated with
  | false => exact h
  | true =>
      rcases h with hidle | ⟨q, hq, hout⟩
      · exact .inl hidle
      · have hperm := Timer.timers_addFirst_perm (H := H) ho now interval firstInterval
          data count
        have hnew : q ≠ s.timer.fresh := Nat.ne_of_lt (ho.lt_fresh q hq)
        have hmem : (s.timer.addFirst H true now interval firstInterval data count).mem q
            = s.timer.mem q := by simp [Timer.addFirst, hnew]
        exact .inr ⟨q, hperm.mem_iff.mpr (List.mem_cons_of_mem _ hq), outlasting_of_mem hout hmem⟩

/-- Nor does removing one, when another is left. -/
lemma remove {td : ℕ} (hok : (TimerCall.remove td).LeavesOne s) (hopen : s.phase.Open) :
    Occupied ⟨s.timer.remove td, s.phase⟩ := by
  cases hph : s.phase with
  | idle => exact .inl rfl
  | calling now p =>
      simp only [TimerCall.LeavesOne, hph] at hok
      obtain ⟨q, hq, hne, hout⟩ := hok
      have hmem : (s.timer.remove td).mem q = s.timer.mem q := by simp [Timer.remove, hne]
      rw [← hph]
      exact .inr ⟨q, hq, outlasting_of_mem hout hmem⟩
  | scanning now =>
      rw [hph] at hopen
      exact hopen.elim
  | undefined =>
      rw [hph] at hopen
      exact hopen.elim

/-- A removed front is not the timer that outlasts the call. -/
lemma popAndDelete {t : Timer} {now : UInt32} {td : ℕ} {l : List ℕ} (ho : t.Ordered)
    (hl : t.timers = td :: l) (h : ∃ q ∈ t.timers, q ≠ td ∧ (t.mem q).Outlasts now) :
    Occupied ⟨t.popAndDelete H td, .scanning now⟩ := by
  obtain ⟨q, hq, hne, hout⟩ := h
  obtain ⟨hperm, -⟩ := ho.timers_popAndDelete (H := H) hl
  rw [hl] at hq
  exact .inr ⟨q, hperm.mem_iff.mpr (List.mem_of_ne_of_mem hne hq), hout⟩

/-- A timer that outlasts the call does so after a firing. -/
lemma fire {t : Timer} {now : UInt32} {td : ℕ} (hdue : (t.mem td).timeNext ≤ now)
    (h : t.SomeOutlasts now) : Occupied ⟨t.fire td, .calling now td⟩ := by
  obtain ⟨q, hq, hout⟩ := h
  refine .inr ⟨q, hq, ?_⟩
  by_cases hqtd : q = td
  · subst hqtd
    have hadv : ((t.fire q).mem q).later = (t.mem q).advance := by
      simp [Timer.fire, TimerStruct.later, TimerStruct.advance]
    simp only [Outlasting, if_true, hadv]
    exact (TimerStruct.outlasts_advance_iff hdue).mpr hout
  · have hmem : (t.fire td).mem q = t.mem q := by simp [Timer.fire, hqtd]
    simp only [Outlasting, if_neg hqtd, hmem]
    exact hout

/-- A timer that outlasts the call stays in the vector after a firing. -/
lemma settle {t : Timer} {now : UInt32} {td : ℕ} {l : List ℕ} (ho : t.Ordered)
    (hl : t.timers = td :: l)
    (h : ∃ q ∈ t.timers, (if q = td then (t.mem q).later else t.mem q).Outlasts now) :
    Occupied ⟨t.settle H td, .scanning now⟩ := by
  obtain ⟨q, hq, hout⟩ := h
  by_cases hc : (t.mem td).count = 0
  · rw [Timer.settle, if_pos hc]
    have hqtd : q ≠ td := by
      rintro rfl
      rw [if_pos rfl] at hout
      exact TimerStruct.not_outlasts_of_count (s := (t.mem q).later) hc hout
    rw [if_neg hqtd] at hout
    exact popAndDelete ho hl ⟨q, hq, hqtd, hout⟩
  · obtain ⟨hperm, -⟩ := ho.timers_settle (H := H) hl hc
    refine .inr ⟨q, hperm.mem_iff.mpr hq, ?_⟩
    have hmem : (t.settle H td).mem q
        = if q = td then (t.mem q).later else t.mem q := by
      rw [Timer.settle, if_neg hc]
      by_cases hqtd : q = td
      · subst hqtd
        simp [TimerStruct.later]
      · simp [hqtd]
    simp only [Outlasting, hmem]
    exact hout

/-- At the head of the loop. -/
lemma someOutlasts (h : s.Occupied) {now : UInt32} (hph : s.phase = .scanning now) :
    s.timer.SomeOutlasts now := by
  rcases h with hidle | ⟨q, hq, hout⟩
  · rw [hidle] at hph
    cases hph
  · simp only [Outlasting, hph] at hout
    exact ⟨q, hq, hout⟩

/-- Every call that leaves a timer keeps the loop supplied with one. -/
lemma step (h : s.Occupied) (hsound : s.Sound) {e : TimerCall} (hok : e.LeavesOne s)
    (hst : (timerMachine H).step s e = some s') : s'.Occupied := by
  cases timerStepTo_of_step hst with
  | add _ => exact h.addFirst hsound.ordered _ _ _ _ _ _
  | remove isOpen _ _ => exact remove hok isOpen
  | processNone idle _ => exact .inl idle
  | process _ ne => exact .inr (hok.resolve_left ne)
  | turnEmpty scan nil => exact absurd nil (h.someOutlasts scan).ne_nil
  | turnDelete scan front zero =>
      obtain ⟨q, hq, hout⟩ := h.someOutlasts scan
      refine popAndDelete hsound.ordered front ⟨q, hq, ?_, hout⟩
      rintro rfl
      exact TimerStruct.not_outlasts_of_count zero hout
  | turnFire scan _ _ due => exact fire due (h.someOutlasts scan)
  | turnStop _ _ _ _ => exact .inl rfl
  | back call =>
      obtain ⟨l, hl⟩ := hsound.front _ _ call
      rcases h with hidle | ⟨q, hq, hout⟩
      · rw [hidle] at call
        cases call
      · simp only [Outlasting, call] at hout
        exact settle hsound.ordered hl ⟨q, hq, hout⟩

end TimerState.Occupied

/-! ## Timers built by calls -/

/-- The calls that build a set of timers. -/
def TimerCall.Edits : TimerCall → Prop
  | .add _ _ _ _ _ _ => True
  | .remove _ => True
  | .process _ => False
  | .turn => False
  | .back => False

/-- Any calls of `add` and `remove` leave a heap of distinct timers. -/
lemma ordered_of_edits (H : HeapOps ℕ ℕ) (es : List TimerCall) {s : TimerState}
    (hes : ∀ e ∈ es, e.Edits) (hrun : (timerMachine H).run es = some s) : s.timer.Ordered := by
  refine (timerMachine H).meets_invariant (I := fun s => s.timer.Ordered) Timer.ordered_empty ?_
    ((timerMachine H).meetsFrom_of_forall hes _) hrun
  intro u e v hu he hstep
  cases e with
  | add allocated now interval firstInterval data count =>
      cases timerStepTo_of_step hstep
      exact hu.addFirst _ _ _ _ _ _
  | remove td =>
      cases timerStepTo_of_step hstep
      exact hu.remove td
  | process now => exact he.elim
  | turn => exact he.elim
  | back => exact he.elim

/-- **`process` and the empty vector.** For timers built by any calls of `add` and `remove`, and an
`onTimer` that leaves them alone, `process` evaluates `front` only on a vector with an element exactly
if there are no timers or one of them outlasts the call. With callbacks that use the timers, no run
whose calls all leave a timer for the loop looks at an empty vector, if `push_heap` passes no equal
entry; a next call of `process` for timers that none outlasts does, with callbacks that leave the timers
alone. -/
theorem neverLooksEmpty_iff (H : HeapOps ℕ ℕ) (es : List TimerCall) (s : TimerState) (now : UInt32)
    (hes : ∀ e ∈ es, e.Edits) (hrun : (timerMachine H).run es = some s) :
    (s.timer.NeverLooksEmpty H now ↔ s.timer.timers = [] ∨ s.timer.SomeOutlasts now) ∧
    (H.FrontStays → ∀ fs u, (timerMachine H).Meets (fun s e => e.LeavesOne s) fs →
      (timerMachine H).run fs = some u →
      u.phase ≠ .undefined ∧
      ∀ n, u.phase = .idle → ¬(TimerCall.process n).LeavesOne u →
        ∃ gs t', (∀ e ∈ gs, TimerCall.Quiet e) ∧
          (timerMachine H).runFrom u (.process n :: gs) = some ⟨t', .undefined⟩) := by
  refine ⟨(ordered_of_edits H es hes hrun).neverLooksEmpty_iff_someOutlasts, ?_⟩
  intro hH fs u hok hfs
  have hstep : ∀ v e w, (v.Sound ∧ v.Occupied) → e.LeavesOne v →
      (timerMachine H).step v e = some w → w.Sound ∧ w.Occupied := by
    rintro v e w ⟨hsound, hocc⟩ he hvw
    exact ⟨hsound.step hH (hocc.keepsFront he hvw) hvw, hocc.step hsound he hvw⟩
  obtain ⟨hsound, -⟩ := (timerMachine H).meets_invariant
    ⟨sound_init _, .inl rfl⟩ hstep hok hfs
  refine ⟨hsound.defined, ?_⟩
  intro n hidle hbad
  obtain ⟨hne, hout⟩ := not_or.mp hbad
  obtain ⟨t', hreach, hempty⟩ := hsound.ordered.exists_empty (H := H) hout
  obtain ⟨gs, hgs, hgrun⟩ :=
    (exists_run_process hne hreach).2 (Timer.turn_eq_undefined_iff.mpr hempty)
  refine ⟨gs, t', hgs, ?_⟩
  rw [← hidle] at hgrun
  exact hgrun

/-- At time 5: a timer with one firing, due at 5, and an unlimited one, due at 50. In a run, the
callback of the first adds a timer and removes it again. -/
theorem neverLooksEmpty_iff_unlimited :
    ∃ s u, (timerMachine (siftOps ℕ ℕ)).run [.add true 0 10 5 0 1, .add true 0 50 50 1 (-1)] = some s ∧
      s.timer.NeverLooksEmpty (siftOps ℕ ℕ) 5 ∧
      (timerMachine (siftOps ℕ ℕ)).run [.add true 0 10 5 0 1, .add true 0 50 50 1 (-1), .process 5,
        .turn, .add true 5 10 10 2 3, .remove 2, .back, .turn] = some u ∧ u.phase ≠ .undefined := by
  have hes : ∀ e ∈ [TimerCall.add true 0 10 5 0 1, .add true 0 50 50 1 (-1)], e.Edits := by
    simp [TimerCall.Edits]
  obtain ⟨hiff, hruns⟩ := neverLooksEmpty_iff (siftOps ℕ ℕ)
    [.add true 0 10 5 0 1, .add true 0 50 50 1 (-1)] _ 5 hes rfl
  refine ⟨_, _, rfl, hiff.mpr (.inr (by decide)), rfl, ?_⟩
  refine (hruns frontStays_siftOps [.add true 0 10 5 0 1, .add true 0 50 50 1 (-1), .process 5, .turn,
    .add true 5 10 10 2 3, .remove 2, .back, .turn] _ ?_ rfl).1
  refine .cons rfl trivial (.cons rfl trivial (.cons rfl ?_ (.cons rfl trivial (.cons rfl ?_
    (.cons rfl ?_ (.cons rfl trivial (.cons rfl trivial trivial)))))))
  · exact .inr (by decide)
  · exact fun _ => by decide
  · exact ⟨1, by decide, by decide, .inl (by decide)⟩

/-- The only timer has its one firing: it is deleted, and the loop looks at the empty vector. -/
theorem not_neverLooksEmpty_last_firing :
    ∃ s, (timerMachine (siftOps ℕ ℕ)).run [.add true 0 5 0 7 1] = some s ∧
      ¬s.timer.NeverLooksEmpty (siftOps ℕ ℕ) 0 := by
  refine ⟨_, rfl, ?_⟩
  intro h
  exact h (List.cons_ne_nil _ _) _ (.single rfl) rfl

/-- **Termination of `process`.** For timers built by any calls of `add` and `remove`, the loop comes
to a last turn exactly if the due times of every unlimited timer get past now; and it returns exactly
if, besides, there are no timers or one of them outlasts the call. -/
theorem finitelyManyTurns_iff (H : HeapOps ℕ ℕ) (es : List TimerCall) (s : TimerState)
    (now : UInt32) (hes : ∀ e ∈ es, e.Edits) (hrun : (timerMachine H).run es = some s) :
    (s.timer.FinitelyManyTurns H now ↔ s.timer.AllGetPast now) ∧
    ((∃ fuel t', s.timer.process H now fuel = some t') ↔
      s.timer.AllGetPast now ∧ (s.timer.timers = [] ∨ s.timer.SomeOutlasts now)) := by
  have ho := ordered_of_edits H es hes hrun
  exact ⟨ho.finitelyManyTurns_iff_allGetPast, ho.process_returns_iff⟩

/-- At time 25: an unlimited timer that falls due every 10, and one with two firings and no interval. -/
theorem finitelyManyTurns_iff_unlimited :
    ∃ s, (timerMachine (siftOps ℕ ℕ)).run [.add true 0 10 5 7 (-1), .add true 0 0 3 8 2] = some s ∧
      s.timer.FinitelyManyTurns (siftOps ℕ ℕ) 25 ∧
      ∃ fuel t', s.timer.process (siftOps ℕ ℕ) 25 fuel = some t' := by
  have hes : ∀ e ∈ [TimerCall.add true 0 10 5 7 (-1), .add true 0 0 3 8 2], e.Edits := by
    simp [TimerCall.Edits]
  obtain ⟨hiff, hret⟩ := finitelyManyTurns_iff (siftOps ℕ ℕ)
    [.add true 0 10 5 7 (-1), .add true 0 0 3 8 2] _ 25 hes rfl
  exact ⟨_, rfl, hiff.mpr (by decide), hret.mpr ⟨by decide, .inr (by decide)⟩⟩

/-- An unlimited timer with no interval is due for ever. -/
theorem not_finitelyManyTurns_zero_interval :
    ∃ s, (timerMachine (siftOps ℕ ℕ)).run [.add true 0 0 0 7 (-1)] = some s ∧
      ¬s.timer.FinitelyManyTurns (siftOps ℕ ℕ) 0 := by
  refine ⟨_, rfl, ?_⟩
  have ho := ordered_of_edits (siftOps ℕ ℕ) [.add true 0 0 0 7 (-1)] (by simp [TimerCall.Edits]) rfl
  rw [ho.finitelyManyTurns_iff_allGetPast]
  decide

end CocInside.System
