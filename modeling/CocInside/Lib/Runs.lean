import Mathlib.Data.List.Basic
import Mathlib.Tactic.Common

/-!
# Runs of partial deterministic machines

A `Machine` is an initial state with a step function that may refuse an event. `Machine.run`
executes a list of events and fails at the first refused one, so "every interleaving" of a
concurrent program is "every list of events that runs".

* `Machine.run_invariant`: what holds initially and is kept by every accepted step holds at the
  end of every run.
* `Machine.exists_run`: where every event is taken in the states of an invariant, every run goes on.
* `Machine.run_rel`: two machines that go in step.
* `Machine.Meets`: every step of a run meets a condition on the state it is taken in; with
  `Machine.meets_invariant`, the invariant rule for such runs.
* `Machine.always_iff_meetsFrom`: a condition that is exact for each step is exact for runs.
-/

namespace CocInside.Lib

/-- A deterministic machine whose events may be refused (`none`). -/
structure Machine (σ ε : Type*) where
  /-- The state every run starts in. -/
  init : σ
  /-- One step; `none` when the event is not enabled. -/
  step : σ → ε → Option σ

namespace Machine

variable {σ ε : Type*} (M : Machine σ ε)

/-- Execute a list of events from `s`; `none` as soon as one of them is refused. -/
def runFrom : σ → List ε → Option σ
  | s, [] => some s
  | s, e :: es => (M.step s e).bind fun s' => runFrom s' es

/-- Execute a list of events from the initial state. -/
def run (es : List ε) : Option σ := M.runFrom M.init es

/-- The empty run stays where it is. -/
@[simp] lemma runFrom_nil (s : σ) : M.runFrom s [] = some s := rfl

/-- A run of `e :: es` is a step and a run of `es`. -/
lemma runFrom_cons_eq_some {s t : σ} {e : ε} {es : List ε} :
    M.runFrom s (e :: es) = some t ↔ ∃ u, M.step s e = some u ∧ M.runFrom u es = some t := by
  rw [runFrom, Option.bind_eq_some_iff]

/-- Runs compose. -/
lemma runFrom_append (s : σ) (es fs : List ε) :
    M.runFrom s (es ++ fs) = (M.runFrom s es).bind fun u => M.runFrom u fs := by
  induction es generalizing s with
  | nil => rfl
  | cons e es ih =>
      rw [List.cons_append, runFrom, runFrom, Option.bind_assoc]
      congr 1
      funext u
      exact ih u

/-- What every accepted step keeps is kept by every run. -/
lemma runFrom_invariant {I : σ → Prop}
    (hstep : ∀ s e t, I s → M.step s e = some t → I t) {s t : σ} {es : List ε} (hs : I s)
    (h : M.runFrom s es = some t) : I t := by
  induction es generalizing s with
  | nil =>
      cases h
      exact hs
  | cons e es ih =>
      obtain ⟨u, hu, hrun⟩ := M.runFrom_cons_eq_some.mp h
      exact ih (hstep s e u hs hu) hrun

/-- **Invariant rule.** What holds initially and is kept by every accepted step holds at the end
of every run. -/
theorem run_invariant {I : σ → Prop} (hinit : I M.init)
    (hstep : ∀ s e t, I s → M.step s e = some t → I t) {t : σ} {es : List ε}
    (h : M.run es = some t) : I t :=
  M.runFrom_invariant hstep hinit h

/-- **Progress rule.** Where every event is taken in the states of an invariant and keeps it, every
run goes on. -/
theorem exists_run {I : σ → Prop} (hinit : I M.init)
    (hstep : ∀ s e, I s → ∃ t, M.step s e = some t ∧ I t) (es : List ε) :
    ∃ t, M.run es = some t ∧ I t := by
  have hrun : ∀ s, I s → ∃ t, M.runFrom s es = some t ∧ I t := by
    induction es with
    | nil => exact fun s hs => ⟨s, rfl, hs⟩
    | cons e es ih =>
        intro s hs
        obtain ⟨u, hu, hI⟩ := hstep s e hs
        obtain ⟨t, ht, hI'⟩ := ih u hI
        exact ⟨t, M.runFrom_cons_eq_some.mpr ⟨u, hu, ht⟩, hI'⟩
  exact hrun M.init hinit

/-- **Refinement rule.** Where two machines take related states to related states, or both refuse the
event, their runs are related. -/
theorem run_rel {τ : Type*} {M : Machine σ ε} {N : Machine τ ε} {R : σ → τ → Prop}
    (hinit : R M.init N.init)
    (hstep : ∀ s t e, R s t → Option.Rel R (M.step s e) (N.step t e)) (es : List ε) :
    Option.Rel R (M.run es) (N.run es) := by
  suffices h : ∀ s t, R s t → Option.Rel R (M.runFrom s es) (N.runFrom t es) from h _ _ hinit
  induction es with
  | nil => exact fun s t hst => .some hst
  | cons e es ih =>
      intro s t hst
      rw [runFrom, runFrom]
      have hrel := hstep s t e hst
      generalize M.step s e = s', N.step t e = t' at hrel
      cases hrel with
      | none => exact .none
      | some hst' => exact ih _ _ hst'

/-! ## Runs whose steps all meet a condition -/

/-- Every step of the run `es` from `s` is taken in a state where `ok` allows it. -/
def MeetsFrom (ok : σ → ε → Prop) : σ → List ε → Prop
  | _, [] => True
  | s, e :: es => ok s e ∧ ∀ u, M.step s e = some u → MeetsFrom ok u es

/-- Every step of the run `es` from the initial state is allowed by `ok`. -/
def Meets (ok : σ → ε → Prop) (es : List ε) : Prop := M.MeetsFrom ok M.init es

/-- What every allowed step keeps is kept by every run of allowed steps. -/
lemma meetsFrom_invariant {ok : σ → ε → Prop} {I : σ → Prop}
    (hstep : ∀ s e t, I s → ok s e → M.step s e = some t → I t) {s t : σ} {es : List ε}
    (hs : I s) (hok : M.MeetsFrom ok s es) (h : M.runFrom s es = some t) : I t := by
  induction es generalizing s with
  | nil =>
      cases h
      exact hs
  | cons e es ih =>
      obtain ⟨u, hu, hrun⟩ := M.runFrom_cons_eq_some.mp h
      exact ih (hstep s e u hs hok.1 hu) (hok.2 u hu) hrun

/-- **Invariant rule for conditional runs.** -/
theorem meets_invariant {ok : σ → ε → Prop} {I : σ → Prop} (hinit : I M.init)
    (hstep : ∀ s e t, I s → ok s e → M.step s e = some t → I t) {t : σ} {es : List ε}
    (hok : M.Meets ok es) (h : M.run es = some t) : I t :=
  M.meetsFrom_invariant hstep hinit hok h

/-- A prefix of a conditional run is one. -/
lemma MeetsFrom.of_append {ok : σ → ε → Prop} {s : σ} {es fs : List ε}
    (h : M.MeetsFrom ok s (es ++ fs)) : M.MeetsFrom ok s es := by
  induction es generalizing s with
  | nil => trivial
  | cons e es ih => exact ⟨h.1, fun u hu => ih (h.2 u hu)⟩

/-- A conditional run, step by step. -/
lemma MeetsFrom.cons {M : Machine σ ε} {ok : σ → ε → Prop} {s u : σ} {e : ε} {es : List ε}
    (h : M.step s e = some u) (he : ok s e) (hes : M.MeetsFrom ok u es) :
    M.MeetsFrom ok s (e :: es) := by
  refine ⟨he, ?_⟩
  intro v hv
  rw [h] at hv
  cases hv
  exact hes

/-- A condition on the events alone. -/
lemma meetsFrom_of_forall {ok : ε → Prop} {es : List ε} (h : ∀ e ∈ es, ok e) (s : σ) :
    M.MeetsFrom (fun _ e => ok e) s es := by
  induction es generalizing s with
  | nil => trivial
  | cons e es ih =>
      refine ⟨h e List.mem_cons_self, ?_⟩
      intro u _
      exact ih (fun e' he' => h e' (List.mem_cons_of_mem e he')) u

/-- Two conditions together. -/
lemma MeetsFrom.and {M : Machine σ ε} {ok ok' : σ → ε → Prop} {s : σ} {es : List ε}
    (h : M.MeetsFrom ok s es) (h' : M.MeetsFrom ok' s es) :
    M.MeetsFrom (fun s e => ok s e ∧ ok' s e) s es := by
  induction es generalizing s with
  | nil => trivial
  | cons e es ih => exact ⟨⟨h.1, h'.1⟩, fun u hu => ih (h.2 u hu) (h'.2 u hu)⟩

/-- **Exact conditions.** Where an allowed step is one that keeps the invariant, the invariant holds
all along a run exactly if each of its steps is allowed. -/
theorem always_iff_meetsFrom {ok : σ → ε → Prop} {I : σ → Prop}
    (hstep : ∀ s e t, I s → M.step s e = some t → (I t ↔ ok s e)) {s t : σ} {es : List ε}
    (hs : I s) (hrun : M.runFrom s es = some t) :
    (∀ fs gs u, es = fs ++ gs → M.runFrom s fs = some u → I u) ↔ M.MeetsFrom ok s es := by
  induction es generalizing s with
  | nil =>
      refine iff_of_true ?_ trivial
      intro fs gs u heq hu
      cases (List.append_eq_nil_iff.mp heq.symm).1
      cases hu
      exact hs
  | cons e es ih =>
      obtain ⟨u, hu, hrest⟩ := M.runFrom_cons_eq_some.mp hrun
      constructor
      · intro h
        have hIu : I u := h [e] es u rfl (M.runFrom_cons_eq_some.mpr ⟨u, hu, rfl⟩)
        refine .cons hu ((hstep s e u hs hu).mp hIu) ((ih hIu hrest).mp ?_)
        intro fs gs v heq hv
        exact h (e :: fs) gs v (congrArg (e :: ·) heq)
          (M.runFrom_cons_eq_some.mpr ⟨u, hu, hv⟩)
      · intro h fs gs v heq hv
        cases fs with
        | nil =>
            cases hv
            exact hs
        | cons f fs =>
            cases heq
            obtain ⟨u', hu', hv⟩ := M.runFrom_cons_eq_some.mp hv
            cases hu.symm.trans hu'
            have hIu : I u := (hstep s e u hs hu).mpr h.1
            exact (ih hIu hrest).mpr (h.2 u hu) fs gs v rfl hv

end Machine

end CocInside.Lib
