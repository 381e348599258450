import Mathlib.Data.Option.Basic
import Mathlib.Logic.Function.Basic
import Mathlib.Tactic.Common

/-!
# Weak pointers

A weak pointer refers to an object as long as the object lives, and to nothing from then on. Addresses
are used again, so the address alone does not say which object is meant: every object gets a number
that no other object gets, and a pointer remembers both.

* `WeakPointers`: the objects and the pointers that there are; all numbers are below the next one.
* `value`: what a pointer refers to now.
* `allocate`, `free`: objects come and go. `value_allocate`, `value_free`: a new object changes no pointer,
  also where it comes to the address of an old one.
* `point`, `share`, `drop`: pointers are set to an object or to what another pointer was set to, and go.
  `exists_point`, `exists_share`, `value_drop`: what they refer to then.
-/

namespace CocInside.Lib

/-- Objects live at addresses in `α`, pointers at addresses in `β`. -/
structure WeakPointers (α β : Type*) where
  /-- The number of the object at an address. -/
  objects : α → Option ℕ
  /-- The number of the next object. -/
  next : ℕ
  /-- What a pointer was set to. -/
  handles : β → Option (Option (α × ℕ))
  objects_lt : ∀ a n, objects a = some n → n < next
  handles_lt : ∀ b a n, handles b = some (some (a, n)) → n < next

namespace WeakPointers

variable {α β : Type*}

/-- No object, no pointer. -/
def empty : WeakPointers α β := ⟨fun _ => none, 0, fun _ => none, by simp, by simp⟩

/-- The object a pointer was set to, if it is still there. -/
def target (w : WeakPointers α β) : Option (α × ℕ) → Option α
  | none => none
  | some (a, n) => if w.objects a = some n then some a else none

/-- What the pointer at `b` refers to; `none` if there is no pointer. -/
def value (w : WeakPointers α β) (b : β) : Option (Option α) := (w.handles b).map w.target

/-- What is to be remembered of a raw pointer; `none` if there is no object at its address. -/
def refer (w : WeakPointers α β) : Option α → Option (Option (α × ℕ))
  | none => some none
  | some a => (w.objects a).map fun n => some (a, n)

/-- A pointer refers to objects that live. -/
lemma exists_of_value {w : WeakPointers α β} {b : β} {a : α} (h : w.value b = some (some a)) :
    ∃ n, w.handles b = some (some (a, n)) ∧ w.objects a = some n := by
  rw [value, Option.map_eq_some_iff] at h
  obtain ⟨_ | ⟨a', n⟩, hb, ht⟩ := h
  · cases ht
  · rw [target] at ht
    split at ht
    · next hn =>
        cases ht
        exact ⟨n, hb, hn⟩
    · cases ht

/-- What is remembered of a raw pointer is that pointer. -/
lemma target_of_refer {w : WeakPointers α β} {v : Option α} {h : Option (α × ℕ)}
    (hv : w.refer v = some h) : w.target h = v := by
  cases v with
  | none =>
      cases hv
      rfl
  | some a =>
      rw [refer, Option.map_eq_some_iff] at hv
      obtain ⟨n, hn, rfl⟩ := hv
      rw [target, if_pos hn]

/-- What is remembered of a raw pointer is of an object there is. -/
lemma lt_of_refer {w : WeakPointers α β} {v : Option α} {h : Option (α × ℕ)}
    (hv : w.refer v = some h) (a : α) (n : ℕ) (ha : h = some (a, n)) : n < w.next := by
  subst ha
  cases v with
  | none => cases hv
  | some a' =>
      rw [refer, Option.map_eq_some_iff] at hv
      obtain ⟨m, hm, heq⟩ := hv
      cases heq
      exact w.objects_lt a n hm

/-! ## Objects -/

section Objects

variable [DecidableEq α]

/-- A new object at `a`. -/
def allocate (w : WeakPointers α β) (a : α) : WeakPointers α β where
  objects := Function.update w.objects a (some w.next)
  next := w.next + 1
  handles := w.handles
  objects_lt b n h := by
    rcases eq_or_ne b a with rfl | hb
    · rw [Function.update_self, Option.some.injEq] at h
      omega
    · rw [Function.update_of_ne hb] at h
      have := w.objects_lt b n h
      omega
  handles_lt b a n h := Nat.lt_succ_of_lt (w.handles_lt b a n h)

/-- The object at `a` is gone. -/
def free (w : WeakPointers α β) (a : α) : WeakPointers α β where
  objects := Function.update w.objects a none
  next := w.next
  handles := w.handles
  objects_lt b n h := by
    rcases eq_or_ne b a with rfl | hb
    · rw [Function.update_self] at h
      cases h
    · exact w.objects_lt b n (by rwa [Function.update_of_ne hb] at h)
  handles_lt := w.handles_lt

/-- **A new object is not the object of any pointer.** -/
theorem value_allocate (w : WeakPointers α β) {a : α} (ha : w.objects a = none) (b : β) :
    (w.allocate a).value b = w.value b := by
  refine Option.map_congr ?_
  rintro (_ | ⟨a', n⟩) hb
  · rfl
  · rcases eq_or_ne a' a with rfl | hne
    · have hn : w.next ≠ n := Nat.ne_of_gt (w.handles_lt b a' n hb)
      simp [target, allocate, ha, hn]
    · simp [target, allocate, hne]

/-- The pointers to an object that is gone refer to nothing. -/
theorem value_free (w : WeakPointers α β) (a : α) (b : β) :
    (w.free a).value b = (w.value b).map fun v => if v = some a then none else v := by
  rw [value, value, Option.map_map]
  refine Option.map_congr ?_
  rintro (_ | ⟨a', n⟩) -
  · rfl
  · rcases eq_or_ne a' a with rfl | hne
    · by_cases h : w.objects a' = some n <;> simp [target, free, h]
    · by_cases h : w.objects a' = some n <;> simp [target, free, h, hne]

end Objects

/-! ## Pointers -/

section Pointers

variable [DecidableEq β]

/-- The pointer at `b` is made, or assigned to. -/
def set (w : WeakPointers α β) (b : β) (h : Option (α × ℕ))
    (hlt : ∀ a n, h = some (a, n) → n < w.next) : WeakPointers α β where
  objects := w.objects
  next := w.next
  handles := Function.update w.handles b (some h)
  objects_lt := w.objects_lt
  handles_lt c a n hc := by
    rcases eq_or_ne c b with rfl | hcb
    · exact hlt a n (by simpa using hc)
    · exact w.handles_lt c a n (by rwa [Function.update_of_ne hcb] at hc)

/-- The pointer at `b` is gone. -/
def drop (w : WeakPointers α β) (b : β) : WeakPointers α β where
  objects := w.objects
  next := w.next
  handles := Function.update w.handles b none
  objects_lt := w.objects_lt
  handles_lt c a n hc := by
    rcases eq_or_ne c b with rfl | hcb
    · rw [Function.update_self] at hc
      cases hc
    · exact w.handles_lt c a n (by rwa [Function.update_of_ne hcb] at hc)

/-- A pointer that is set. -/
theorem value_set (w : WeakPointers α β) (b : β) (h : Option (α × ℕ))
    (hlt : ∀ a n, h = some (a, n) → n < w.next) :
    (w.set b h hlt).value = Function.update w.value b (some (w.target h)) := by
  funext c
  rcases eq_or_ne c b with rfl | hcb
  · simp only [value, set, Function.update_self, Option.map_some]
    rfl
  · simp only [value, set, Function.update_of_ne hcb]
    rfl

/-- A pointer that is gone. -/
theorem value_drop (w : WeakPointers α β) (b : β) :
    (w.drop b).value = Function.update w.value b none := by
  funext c
  rcases eq_or_ne c b with rfl | hcb
  · simp only [value, drop, Function.update_self, Option.map_none]
  · simp only [value, drop, Function.update_of_ne hcb]
    rfl

/-- The pointer at `b` is set to what the raw pointer `v` points to now. -/
def point (w : WeakPointers α β) (b : β) (v : Option α) : Option (WeakPointers α β) :=
  match hv : w.refer v with
  | none => none
  | some h => some (w.set b h (lt_of_refer hv))

/-- The pointer at `b` is set to what the pointer at `c` was set to. -/
def share (w : WeakPointers α β) (b c : β) : Option (WeakPointers α β) :=
  match hc : w.handles c with
  | none => none
  | some h => some (w.set b h fun a n ha => w.handles_lt c a n (ha ▸ hc))

/-- A pointer cannot be set to what is not there. -/
lemma point_of_dead {w : WeakPointers α β} {a : α} (h : w.objects a = none) (b : β) :
    w.point b (some a) = none := by
  have hr : w.refer (some a) = none := by rw [refer, h, Option.map_none]
  unfold point
  split
  · rfl
  · next h' hv =>
      rw [hr] at hv
      cases hv

/-- A pointer that is set to a raw pointer has its value. -/
theorem exists_point (w : WeakPointers α β) (b : β) {v : Option α}
    (hv : ∀ a, v = some a → (w.objects a).isSome) :
    ∃ w', w.point b v = some w' ∧ w'.objects = w.objects ∧
      w'.value = Function.update w.value b (some v) := by
  obtain ⟨h, hr⟩ : ∃ h, w.refer v = some h := by
    cases v with
    | none => exact ⟨none, rfl⟩
    | some a =>
        obtain ⟨n, hn⟩ := Option.isSome_iff_exists.mp (hv a rfl)
        exact ⟨some (a, n), by rw [refer, hn, Option.map_some]⟩
  unfold point
  split
  · next hn =>
      rw [hr] at hn
      cases hn
  · next h' hr' =>
      refine ⟨_, rfl, rfl, ?_⟩
      rw [value_set, target_of_refer hr']

/-- What is no pointer cannot be copied. -/
lemma share_of_none {w : WeakPointers α β} {c : β} (h : w.value c = none) (b : β) :
    w.share b c = none := by
  unfold share
  split
  · rfl
  · next h' hc =>
      rw [value, hc] at h
      cases h

/-- **A copy of a pointer has its value**, also where the object is gone. -/
theorem exists_share {w : WeakPointers α β} {c : β} {v : Option α} (h : w.value c = some v) (b : β) :
    ∃ w', w.share b c = some w' ∧ w'.objects = w.objects ∧
      w'.value = Function.update w.value b (some v) := by
  unfold share
  split
  · next hc =>
      rw [value, hc] at h
      cases h
  · next h' hc =>
      refine ⟨_, rfl, rfl, ?_⟩
      rw [value, hc, Option.map_some, Option.some.injEq] at h
      rw [value_set, h]

end Pointers

end WeakPointers

end CocInside.Lib
