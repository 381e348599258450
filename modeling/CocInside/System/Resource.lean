import CocInside.Lib.Runs
import CocInside.Lib.WeakPointers
import Mathlib.Data.List.Sort

/-!
# Resources and the pointers to them

A `ResourcePtr` is set to null when the resource it points to is destroyed. For this the resource keeps
the addresses of the pointers to it, and the two classes write into each other's objects.

* `Resources`: the objects there are. `Resources.step`: constructors, destructors and assignments. What
  is done to an object that does not exist, or no longer, has no result.
* `Observed`: the resources know exactly the pointers to them, and no pointer dangles.
* `weak`: the same calls on weak pointers, which know what they were set to by more than its address.
* `run_values`: every list of calls goes wrong for both or for neither, and then every pointer has the
  value of the weak pointer.

Left out is the mutex of a resource: calls come one after the other. Destructors do not take it, so
pointers and resources that threads share are not safe.

Source: `System/Resource.h`, `System/Resource.inl`, `System/ResourcePtr.inl`.
-/

namespace CocInside.System

open CocInside.Lib Function

/-- The resources and the pointers that exist, by their addresses. -/
structure Resources where
  /-- `myObservers` of a resource, in the order of a `std::set`. -/
  myObservers : ℕ → Option (List ℕ)
  /-- `myResource` of a pointer; `some none` is null. -/
  myResource : ℕ → Option (Option ℕ)

namespace Resources

/-- `myObservers.insert(&observer)`. -/
def insertObserver (observer : ℕ) (observers : List ℕ) : List ℕ :=
  if observer ∈ observers then observers else observers.orderedInsert (· ≤ ·) observer

/-! ## `Resource` -/

/-- `Resource()` at the address `r`. Source: `System/Resource.inl`, `Resource<T>::Resource()`. -/
def create (s : Resources) (r : ℕ) : Option Resources :=
  if (s.myObservers r).isSome then none
  else some { s with myObservers := update s.myObservers r (some []) }

/-- `Resource(const Resource& copy)`: the observers are not copied. Source: `System/Resource.inl`,
`Resource<T>::Resource(const Resource<T>&)`. -/
def copyResource (s : Resources) (r copy : ℕ) : Option Resources :=
  if (s.myObservers copy).isSome then s.create r else none

/-- `operator =` of a resource. Source: `System/Resource.inl`, `Resource<T>::operator =`. -/
def assignResource (s : Resources) (r right : ℕ) : Option Resources :=
  if (s.myObservers r).isSome ∧ (s.myObservers right).isSome then some s else none

/-- Source: `System/Resource.inl`, `Resource<T>::Connect`. -/
def connect (s : Resources) (r observer : ℕ) : Option Resources := do
  let observers ← s.myObservers r
  some { s with myObservers := update s.myObservers r (some (insertObserver observer observers)) }

/-- Source: `System/Resource.inl`, `Resource<T>::Disconnect`. -/
def disconnect (s : Resources) (r observer : ℕ) : Option Resources := do
  let observers ← s.myObservers r
  some { s with myObservers := update s.myObservers r (some (observers.erase observer)) }

/-- `OnResourceDestroyed` of the pointer at `p`. Source: `System/ResourcePtr.inl`,
`ResourcePtr<T>::OnResourceDestroyed`. -/
def onResourceDestroyed (s : Resources) (p : ℕ) : Option Resources := do
  let _ ← s.myResource p
  some { s with myResource := update s.myResource p (some none) }

/-- Source: `System/Resource.inl`, `Resource<T>::~Resource`. -/
def destroyResource (s : Resources) (r : ℕ) : Option Resources := do
  let observers ← s.myObservers r
  let s ← observers.foldlM onResourceDestroyed s
  some { s with myObservers := update s.myObservers r none }

/-! ## `ResourcePtr` -/

/-- `if (myResource) myResource->Connect(*this)`. -/
def connectThis (s : Resources) (p : ℕ) : Option Resources := do
  match ← s.myResource p with
  | none => some s
  | some r => s.connect r p

/-- `if (myResource) myResource->Disconnect(*this)`. -/
def disconnectThis (s : Resources) (p : ℕ) : Option Resources := do
  match ← s.myResource p with
  | none => some s
  | some r => s.disconnect r p

/-- `myResource = resource`. -/
def setResource (s : Resources) (p : ℕ) (resource : Option ℕ) : Resources :=
  { s with myResource := update s.myResource p (some resource) }

/-- `ResourcePtr(const T* resource)`; of null, also `ResourcePtr()`. Source:
`System/ResourcePtr.inl`, `ResourcePtr<T>::ResourcePtr()`,
`ResourcePtr<T>::ResourcePtr(const T*)`. -/
def wrap (s : Resources) (p : ℕ) (resource : Option ℕ) : Option Resources :=
  if (s.myResource p).isSome then none else (s.setResource p resource).connectThis p

/-- `ResourcePtr(const ResourcePtr& copy)`. Source: `System/ResourcePtr.inl`,
`ResourcePtr<T>::ResourcePtr(const ResourcePtr<T>&)`. -/
def copyPtr (s : Resources) (p copy : ℕ) : Option Resources := do
  let resource ← s.myResource copy
  s.wrap p resource

/-- Source: `System/ResourcePtr.inl`, `ResourcePtr<T>::~ResourcePtr`. -/
def destroyPtr (s : Resources) (p : ℕ) : Option Resources := do
  let s ← s.disconnectThis p
  some { s with myResource := update s.myResource p none }

/-- `operator =(const T* resource)`. Source: `System/ResourcePtr.inl`,
`ResourcePtr<T>::operator =(const T*)`. -/
def assign (s : Resources) (p : ℕ) (resource : Option ℕ) : Option Resources := do
  let s ← s.disconnectThis p
  (s.setResource p resource).connectThis p

/-- `operator =(const ResourcePtr& right)`: `right` is read after the old resource is left. Source:
`System/ResourcePtr.inl`, `ResourcePtr<T>::operator =(const ResourcePtr<T>&)`. -/
def assignPtr (s : Resources) (p right : ℕ) : Option Resources := do
  let s ← s.disconnectThis p
  let resource ← s.myResource right
  (s.setResource p resource).connectThis p

end Resources

/-! ## Runs -/

/-- A call, with the addresses of the objects it is about. -/
inductive ResourceCall where
  | create (r : ℕ)
  | copyResource (r copy : ℕ)
  | assignResource (r right : ℕ)
  | destroyResource (r : ℕ)
  | wrap (p : ℕ) (resource : Option ℕ)
  | copyPtr (p copy : ℕ)
  | assign (p : ℕ) (resource : Option ℕ)
  | assignPtr (p right : ℕ)
  | destroyPtr (p : ℕ)
deriving DecidableEq

/-- One call. -/
def Resources.step (s : Resources) : ResourceCall → Option Resources
  | .create r => s.create r
  | .copyResource r copy => s.copyResource r copy
  | .assignResource r right => s.assignResource r right
  | .destroyResource r => s.destroyResource r
  | .wrap p resource => s.wrap p resource
  | .copyPtr p copy => s.copyPtr p copy
  | .assign p resource => s.assign p resource
  | .assignPtr p right => s.assignPtr p right
  | .destroyPtr p => s.destroyPtr p

/-- Any calls, from where there are no objects. -/
def resources : Machine Resources ResourceCall := ⟨⟨fun _ => none, fun _ => none⟩, Resources.step⟩

/-- One call, on weak pointers. -/
def weakStep (w : WeakPointers ℕ ℕ) : ResourceCall → Option (WeakPointers ℕ ℕ)
  | .create r => if (w.objects r).isSome then none else some (w.allocate r)
  | .copyResource r copy =>
      if (w.objects copy).isSome ∧ ¬ (w.objects r).isSome then some (w.allocate r) else none
  | .assignResource r right => if (w.objects r).isSome ∧ (w.objects right).isSome then some w else none
  | .destroyResource r => if (w.objects r).isSome then some (w.free r) else none
  | .wrap p resource => if (w.value p).isSome then none else w.point p resource
  | .copyPtr p copy => if (w.value p).isSome then none else w.share p copy
  | .assign p resource => if (w.value p).isSome then w.point p resource else none
  | .assignPtr p right => if (w.value p).isSome then w.share p right else none
  | .destroyPtr p => if (w.value p).isSome then some (w.drop p) else none

/-- The abstract machine. -/
def weak : Machine (WeakPointers ℕ ℕ) ResourceCall := ⟨.empty, weakStep⟩

/-! ## The observers of a resource -/

/-- A pointer that is not null is an observer of the resource it points to, which exists, and a resource
has no other observers. `held` are the resources of the pointers. -/
structure Observed (observers : ℕ → Option (List ℕ)) (held : ℕ → Option ℕ) : Prop where
  nodup : ∀ r l, observers r = some l → l.Nodup
  mem_iff : ∀ r l, observers r = some l → ∀ p, p ∈ l ↔ held p = some r
  alive : ∀ p r, held p = some r → (observers r).isSome

namespace Observed

variable {observers : ℕ → Option (List ℕ)} {held : ℕ → Option ℕ} {l : List ℕ} {p r : ℕ}

/-- No pointer points to where there is no resource. -/
lemma held_ne (h : Observed observers held) (hr : observers r = none) (p : ℕ) : held p ≠ some r := by
  intro hp
  have halive := h.alive p r hp
  rw [hr] at halive
  cases halive

/-- The observers of one resource change, and with them the pointers to it. -/
lemma of_update {held' : ℕ → Option ℕ} {l' : List ℕ} (h : Observed observers held) (hnodup : l'.Nodup)
    (hmem : ∀ p, p ∈ l' ↔ held' p = some r)
    (hrest : ∀ p r', r' ≠ r → (held' p = some r' ↔ held p = some r')) :
    Observed (update observers r (some l')) held' := by
  refine ⟨?_, ?_, ?_⟩
  · intro r' l₁ hl
    rcases eq_or_ne r' r with rfl | hne
    · rw [update_self] at hl
      cases hl
      exact hnodup
    · exact h.nodup r' l₁ (by rwa [update_of_ne hne] at hl)
  · intro r' l₁ hl p
    rcases eq_or_ne r' r with rfl | hne
    · rw [update_self] at hl
      cases hl
      exact hmem p
    · rw [update_of_ne hne] at hl
      rw [h.mem_iff r' l₁ hl p, hrest p r' hne]
  · intro p r' hp
    rcases eq_or_ne r' r with rfl | hne
    · rw [update_self, Option.isSome_some]
    · rw [update_of_ne hne]
      exact h.alive p r' ((hrest p r' hne).mp hp)

/-- A new resource has no observers. -/
theorem create (h : Observed observers held) (hr : observers r = none) :
    Observed (update observers r (some [])) held := by
  refine h.of_update .nil ?_ fun p r' _ => Iff.rfl
  intro p
  exact iff_of_false List.not_mem_nil (h.held_ne hr p)

/-- A pointer comes to a resource. -/
theorem connect (h : Observed observers held) (hr : observers r = some l) (hp : held p = none) :
    Observed (update observers r (some (Resources.insertObserver p l))) (update held p (some r)) := by
  have hpl : p ∉ l := by
    rw [h.mem_iff r l hr p, hp]
    simp
  have hinsert : Resources.insertObserver p l = l.orderedInsert (· ≤ ·) p := if_neg hpl
  rw [hinsert]
  refine h.of_update ?_ ?_ ?_
  · apply (List.perm_orderedInsert _ _ _).nodup_iff.mpr
    exact List.nodup_cons.mpr ⟨hpl, h.nodup r l hr⟩
  · intro q
    rw [List.mem_orderedInsert, h.mem_iff r l hr q]
    rcases eq_or_ne q p with rfl | hq
    · simp
    · simp [hq]
  · intro q r' hne
    rcases eq_or_ne q p with rfl | hq
    · simp [hp, hne.symm]
    · rw [update_of_ne hq]

/-- A pointer leaves its resource. -/
theorem disconnect (h : Observed observers held) (hr : observers r = some l) (hp : held p = some r) :
    Observed (update observers r (some (l.erase p))) (update held p none) := by
  refine h.of_update ((h.nodup r l hr).erase p) ?_ ?_
  · intro q
    rw [(h.nodup r l hr).mem_erase_iff, h.mem_iff r l hr q]
    rcases eq_or_ne q p with rfl | hq
    · simp
    · simp [hq]
  · intro q r' hne
    rcases eq_or_ne q p with rfl | hq
    · simp [hp, hne.symm]
    · rw [update_of_ne hq]

/-- A resource goes, and its observers are null. -/
theorem destroy (h : Observed observers held) (r : ℕ) :
    Observed (update observers r none) fun p => if held p = some r then none else held p := by
  refine ⟨?_, ?_, ?_⟩
  · intro r' l' hl
    rcases eq_or_ne r' r with rfl | hne
    · rw [update_self] at hl
      cases hl
    · exact h.nodup r' l' (by rwa [update_of_ne hne] at hl)
  · intro r' l' hl q
    rcases eq_or_ne r' r with rfl | hne
    · rw [update_self] at hl
      cases hl
    · rw [update_of_ne hne] at hl
      rw [h.mem_iff r' l' hl q]
      split
      · next hq => simp [hq, hne.symm]
      · rfl
  · intro q r' hq
    split at hq
    · cases hq
    · next hqr =>
        have hne : r' ≠ r := by
          rintro rfl
          exact hqr hq
        rw [update_of_ne hne]
        exact h.alive q r' hq

end Observed

/-! ## What the calls do -/

namespace Resources

/-- The resource a pointer points to, if it exists and is not null. Source:
`System/ResourcePtr.inl`, `ResourcePtr<T>::operator const T*`. -/
def held (s : Resources) (p : ℕ) : Option ℕ := (s.myResource p).join

variable {s : Resources} {p r : ℕ} {v : Option ℕ}

/-- A pointer is set. -/
lemma held_setResource (s : Resources) (p : ℕ) (v : Option ℕ) :
    (s.setResource p v).held = update s.held p v := by
  funext q
  rcases eq_or_ne q p with rfl | hq
  · simp [held, setResource]
  · simp [held, setResource, hq]

/-- A pointer is set to where there is no resource. -/
lemma connectThis_of_dead (s : Resources) (p : ℕ) (hr : s.myObservers r = none) :
    (s.setResource p (some r)).connectThis p = none := by
  simp [connectThis, setResource, connect, hr]

/-- A pointer that is not connected is set to null or to a resource. -/
lemma exists_connectThis {old : ℕ → Option ℕ} (h : Observed s.myObservers (update old p none))
    (hold : s.held = old) (hv : ∀ r, v = some r → (s.myObservers r).isSome) :
    ∃ t, (s.setResource p v).connectThis p = some t ∧ Observed t.myObservers t.held ∧
      t.myResource = update s.myResource p (some v) ∧
      ∀ r, (t.myObservers r).isSome = (s.myObservers r).isSome := by
  subst hold
  cases v with
  | none =>
      refine ⟨s.setResource p none, ?_, ?_, rfl, fun r => rfl⟩
      · simp [connectThis, setResource]
      · rw [held_setResource]
        exact h
  | some r =>
      obtain ⟨l, hl⟩ := Option.isSome_iff_exists.mp (hv r rfl)
      refine ⟨{ s.setResource p (some r) with
        myObservers := update s.myObservers r (some (insertObserver p l)) }, ?_, ?_, rfl, ?_⟩
      · simp [connectThis, setResource, connect, hl]
      · have hconnect := h.connect hl (update_self p none s.held)
        rw [update_idem, ← held_setResource] at hconnect
        exact hconnect
      · intro r'
        rcases eq_or_ne r' r with rfl | hne
        · simp [hl]
        · simp [hne]

/-- A pointer leaves its resource, if it has one. -/
lemma exists_disconnectThis (h : Observed s.myObservers s.held) (hp : s.myResource p = some v) :
    ∃ t, s.disconnectThis p = some t ∧ Observed t.myObservers (update s.held p none) ∧
      t.myResource = s.myResource ∧ ∀ r, (t.myObservers r).isSome = (s.myObservers r).isSome := by
  have hheld : s.held p = v := by rw [held, hp, Option.join_some]
  cases v with
  | none =>
      refine ⟨s, ?_, ?_, rfl, fun r => rfl⟩
      · simp [disconnectThis, hp]
      · rw [← hheld, update_eq_self]
        exact h
  | some r =>
      obtain ⟨l, hl⟩ := Option.isSome_iff_exists.mp (h.alive p r hheld)
      refine ⟨{ s with myObservers := update s.myObservers r (some (l.erase p)) }, ?_,
        h.disconnect hl hheld, rfl, ?_⟩
      · simp [disconnectThis, hp, disconnect, hl]
      · intro r'
        rcases eq_or_ne r' r with rfl | hne
        · simp [hl]
        · simp [hne]

/-- The loop of `~Resource`, where all observers exist. -/
lemma foldlM_onResourceDestroyed (l : List ℕ) (s : Resources)
    (hl : ∀ p ∈ l, (s.myResource p).isSome) :
    l.foldlM onResourceDestroyed s =
      some { s with myResource := fun p => if p ∈ l then some none else s.myResource p } := by
  induction l generalizing s with
  | nil => simp
  | cons p l ih =>
      obtain ⟨v, hv⟩ := Option.isSome_iff_exists.mp (hl p List.mem_cons_self)
      have hstep : s.onResourceDestroyed p =
          some { s with myResource := update s.myResource p (some none) } := by
        simp [onResourceDestroyed, hv]
      rw [List.foldlM_cons, hstep, Option.bind_eq_bind, Option.bind_some, ih]
      · congr 2
        funext q
        rcases eq_or_ne q p with rfl | hq
        · simp
        · simp [hq]
      · intro q hq
        rcases eq_or_ne q p with rfl | hqp
        · simp
        · simpa [hqp] using hl q (List.mem_cons_of_mem p hq)

/-- **`~Resource`**: no pointer that is gone is written to, and the pointers to the resource are null. -/
lemma exists_destroyResource (h : Observed s.myObservers s.held) (hr : (s.myObservers r).isSome) :
    ∃ t, s.destroyResource r = some t ∧ Observed t.myObservers t.held ∧
      t.myObservers = update s.myObservers r none ∧
      t.myResource = fun p => (s.myResource p).map fun v => if v = some r then none else v := by
  obtain ⟨l, hl⟩ := Option.isSome_iff_exists.mp hr
  have hmem := h.mem_iff r l hl
  have hsome : ∀ p ∈ l, s.myResource p = some (some r) := by
    intro p hp
    exact Option.join_eq_some_iff.mp ((hmem p).mp hp)
  have hvalue : (fun p => if p ∈ l then some none else s.myResource p) =
      fun p => (s.myResource p).map fun v => if v = some r then none else v := by
    funext p
    by_cases hp : p ∈ l
    · simp [hp, hsome p hp]
    · have hne : s.myResource p ≠ some (some r) := fun heq => hp ((hmem p).mpr (by simp [held, heq]))
      cases hv : s.myResource p with
      | none => simp [hp]
      | some v =>
          rw [hv] at hne
          have hvr : v ≠ some r := fun heq => hne (congrArg some heq)
          simp [hp, hvr]
  refine ⟨⟨update s.myObservers r none, _⟩, ?_, ?_, rfl, rfl⟩
  · rw [destroyResource, hl, Option.bind_eq_bind, Option.bind_some,
      foldlM_onResourceDestroyed l s fun p hp => by rw [hsome p hp, Option.isSome_some], hvalue]
    rfl
  · convert h.destroy r using 1
    funext p
    cases hp : s.myResource p with
    | none => simp [held, hp]
    | some v => by_cases hv : v = some r <;> simp [held, hp, hv]

end Resources

/-! ## The two machines -/

/-- The same resources, and the same values of the pointers. -/
structure Refines (s : Resources) (w : WeakPointers ℕ ℕ) : Prop where
  observed : Observed s.myObservers s.held
  alive : ∀ r, (s.myObservers r).isSome = (w.objects r).isSome
  value : s.myResource = w.value

namespace Refines

variable {s : Resources} {w : WeakPointers ℕ ℕ}

/-- No observers, no object. -/
lemma eq_none_iff (h : Refines s w) (r : ℕ) : s.myObservers r = none ↔ w.objects r = none := by
  rw [← Option.not_isSome_iff_eq_none, ← Option.not_isSome_iff_eq_none, h.alive]

/-- A new resource. -/
lemma create (h : Refines s w) (r : ℕ) :
    Option.Rel Refines (s.create r) (weakStep w (.create r)) := by
  rw [Resources.create, weakStep, h.alive]
  split
  · exact .none
  · next hr =>
      have hw : w.objects r = none := Option.not_isSome_iff_eq_none.mp hr
      refine .some ⟨h.observed.create ((h.eq_none_iff r).mpr hw), ?_, ?_⟩
      · intro r'
        rcases eq_or_ne r' r with rfl | hne
        · simp [WeakPointers.allocate]
        · simpa [WeakPointers.allocate, hne] using h.alive r'
      · funext p
        rw [w.value_allocate hw p, ← h.value]

/-- A resource that is destroyed. -/
lemma destroyResource (h : Refines s w) (r : ℕ) :
    Option.Rel Refines (s.destroyResource r) (weakStep w (.destroyResource r)) := by
  rw [weakStep]
  split
  · next hr =>
      obtain ⟨t, ht, hobserved, halive, hvalue⟩ :=
        Resources.exists_destroyResource h.observed ((h.alive r).trans hr)
      rw [ht]
      refine .some ⟨hobserved, ?_, ?_⟩
      · intro r'
        rw [halive]
        rcases eq_or_ne r' r with rfl | hne
        · simp [WeakPointers.free]
        · simpa [WeakPointers.free, hne] using h.alive r'
      · funext p
        rw [hvalue, w.value_free r p, ← h.value]
  · next hr =>
      have hs : s.myObservers r = none := (h.eq_none_iff r).mpr (Option.not_isSome_iff_eq_none.mp hr)
      rw [Resources.destroyResource, hs]
      exact .none

end Refines

section Pointers

variable {u : Resources} {w : WeakPointers ℕ ℕ} {p : ℕ}

/-- A pointer that is not connected is set, in both machines, to what a raw pointer points to. -/
lemma rel_connectThis_point (hu : Observed u.myObservers (update u.held p none))
    (halive : ∀ r, (u.myObservers r).isSome = (w.objects r).isSome) (hvalue : u.myResource = w.value)
    (v : Option ℕ) : Option.Rel Refines ((u.setResource p v).connectThis p) (w.point p v) := by
  by_cases hv : ∀ r, v = some r → (w.objects r).isSome
  · obtain ⟨t, ht, htobs, htv, hto⟩ :=
      Resources.exists_connectThis hu rfl fun r hr => (halive r).trans (hv r hr)
    obtain ⟨w', hw', hwo, hwv⟩ := w.exists_point p hv
    rw [ht, hw']
    refine .some ⟨htobs, fun r => ?_, ?_⟩
    · rw [hto, halive, hwo]
    · rw [htv, hvalue, hwv]
  · push Not at hv
    obtain ⟨r, rfl, hr⟩ := hv
    have hu : u.myObservers r = none := by rwa [← Option.not_isSome_iff_eq_none, halive]
    rw [Resources.connectThis_of_dead u p hu,
      WeakPointers.point_of_dead (Option.not_isSome_iff_eq_none.mp hr)]
    exact .none

/-- A pointer that is not connected is set, in both machines, to what another pointer points to. -/
lemma rel_connectThis_share (hu : Observed u.myObservers (update u.held p none))
    (halive : ∀ r, (u.myObservers r).isSome = (w.objects r).isSome) (hvalue : u.myResource = w.value)
    {c : ℕ} {v : Option ℕ} (hc : u.myResource c = some v) :
    Option.Rel Refines ((u.setResource p v).connectThis p) (w.share p c) := by
  rw [hvalue] at hc
  have hv : ∀ r, v = some r → (u.myObservers r).isSome := by
    rintro r rfl
    obtain ⟨n, -, hn⟩ := WeakPointers.exists_of_value hc
    rw [halive, hn, Option.isSome_some]
  obtain ⟨t, ht, htobs, htv, hto⟩ := Resources.exists_connectThis hu rfl hv
  obtain ⟨w', hw', hwo, hwv⟩ := WeakPointers.exists_share hc p
  rw [ht, hw']
  refine .some ⟨htobs, fun r => ?_, ?_⟩
  · rw [hto, halive, hwo]
  · rw [htv, hvalue, hwv]

end Pointers

namespace Refines

variable {s : Resources} {w : WeakPointers ℕ ℕ}

/-- A pointer that does not exist yet is not connected. -/
lemma observed_of_none (h : Refines s w) {p : ℕ} (hp : s.myResource p = none) :
    Observed s.myObservers (update s.held p none) := by
  have hheld : s.held p = none := by rw [Resources.held, hp, Option.join_none]
  rw [← hheld, update_eq_self]
  exact h.observed

/-- A pointer that leaves its resource, in the first machine only. -/
lemma exists_disconnectThis (h : Refines s w) {p : ℕ} (hp : (w.value p).isSome) :
    ∃ u, s.disconnectThis p = some u ∧ Observed u.myObservers (update u.held p none) ∧
      (∀ r, (u.myObservers r).isSome = (w.objects r).isSome) ∧ u.myResource = w.value := by
  rw [← h.value] at hp
  obtain ⟨v, hv⟩ := Option.isSome_iff_exists.mp hp
  obtain ⟨u, hu, hobserved, hvalue, halive⟩ := Resources.exists_disconnectThis h.observed hv
  have hheld : u.held = s.held := by
    funext q
    rw [Resources.held, hvalue, Resources.held]
  refine ⟨u, hu, hheld ▸ hobserved, fun r => ?_, hvalue.trans h.value⟩
  rw [halive, h.alive]

/-- Nothing is left by what does not exist. -/
lemma disconnectThis_of_none (h : Refines s w) {p : ℕ} (hp : ¬ (w.value p).isSome) :
    s.disconnectThis p = none := by
  have hs : s.myResource p = none := by
    rw [h.value]
    exact Option.not_isSome_iff_eq_none.mp hp
  rw [Resources.disconnectThis, hs]
  rfl

/-- **One call.** -/
theorem step (h : Refines s w) (e : ResourceCall) :
    Option.Rel Refines (s.step e) (weakStep w e) := by
  cases e with
  | create r => exact h.create r
  | copyResource r copy =>
      rw [Resources.step, Resources.copyResource, h.alive]
      by_cases hcopy : (w.objects copy).isSome
      · have hrel := h.create r
        rw [if_pos hcopy]
        simp only [weakStep] at hrel ⊢
        by_cases hr : (w.objects r).isSome
        · rw [if_pos hr] at hrel
          rwa [if_neg fun hc => hc.2 hr]
        · rw [if_neg hr] at hrel
          rwa [if_pos ⟨hcopy, hr⟩]
      · rw [if_neg hcopy, weakStep, if_neg fun hc => hcopy hc.1]
        exact .none
  | assignResource r right =>
      rw [Resources.step, Resources.assignResource, weakStep, h.alive, h.alive]
      split
      · exact .some h
      · exact .none
  | destroyResource r => exact h.destroyResource r
  | wrap p v =>
      rw [Resources.step, Resources.wrap, weakStep, h.value]
      split
      · exact .none
      · next hp =>
          have hs : s.myResource p = none := by rwa [h.value, ← Option.not_isSome_iff_eq_none]
          exact rel_connectThis_point (h.observed_of_none hs) h.alive h.value v
  | copyPtr p c =>
      rw [Resources.step, Resources.copyPtr, weakStep]
      cases hc : s.myResource c with
      | none =>
          rw [WeakPointers.share_of_none (h.value ▸ hc)]
          simp
      | some v =>
          rw [Option.bind_eq_bind, Option.bind_some, Resources.wrap, h.value]
          split
          · exact .none
          · next hp =>
              have hs : s.myResource p = none := by rwa [h.value, ← Option.not_isSome_iff_eq_none]
              exact rel_connectThis_share (h.observed_of_none hs) h.alive h.value hc
  | assign p v =>
      rw [Resources.step, Resources.assign, weakStep]
      split
      · next hp =>
          obtain ⟨u, hu, hobserved, halive, hvalue⟩ := h.exists_disconnectThis hp
          rw [hu]
          exact rel_connectThis_point hobserved halive hvalue v
      · next hp =>
          rw [h.disconnectThis_of_none hp]
          exact .none
  | assignPtr p c =>
      rw [Resources.step, Resources.assignPtr, weakStep]
      split
      · next hp =>
          obtain ⟨u, hu, hobserved, halive, hvalue⟩ := h.exists_disconnectThis hp
          rw [hu, Option.bind_eq_bind, Option.bind_some]
          cases hc : u.myResource c with
          | none =>
              rw [WeakPointers.share_of_none (hvalue ▸ hc)]
              exact .none
          | some v => exact rel_connectThis_share hobserved halive hvalue hc
      · next hp =>
          rw [h.disconnectThis_of_none hp]
          exact .none
  | destroyPtr p =>
      rw [Resources.step, Resources.destroyPtr, weakStep]
      split
      · next hp =>
          obtain ⟨u, hu, hobserved, halive, hvalue⟩ := h.exists_disconnectThis hp
          rw [hu]
          refine .some ⟨?_, halive, ?_⟩
          · convert hobserved using 1
            funext q
            rcases eq_or_ne q p with rfl | hq
            · simp [Resources.held]
            · simp [Resources.held, hq]
          · rw [w.value_drop, ← hvalue]
      · next hp =>
          rw [h.disconnectThis_of_none hp]
          exact .none

end Refines

/-- **The pointers are weak pointers.** Every list of calls goes wrong for resources and their pointers
exactly if it does for weak pointers, and else every pointer has the same value: null from the end of its
resource on, also where a new resource comes to the address. -/
theorem run_values (es : List ResourceCall) :
    (resources.run es).map Resources.myResource = (weak.run es).map WeakPointers.value := by
  have hinit : Refines resources.init weak.init :=
    ⟨⟨by simp [resources], by simp [resources], by simp [resources, Resources.held]⟩, fun r => rfl, rfl⟩
  have hrun := Machine.run_rel hinit (fun s w e h => h.step e) es
  generalize resources.run es = s, weak.run es = w at hrun
  cases hrun with
  | none => rfl
  | some h => simp [h.value]

end CocInside.System
