import CocInside.Lib.Heap
import Mathlib.Data.List.Nodup

/-!
# Heaps whose entries know their place

A heap in a list, where each entry has a record of the place it stands at. An entry that moves writes
its record anew.

* `IndexedOn P`: the records of the entries with `P` are exact; with it come the rules for exchanging,
  adding and leaving out an entry.
* `upHeap_set`, `downHeap_set`: an entry of a heap is replaced by another one, which is to move up or
  down.
-/

namespace CocInside.Lib

variable {α κ : Type*} [LinearOrder κ]

/-! ## Records -/

/-- The record of an entry with `P` is its place, and there is none of what is not in the list. -/
def IndexedOn (P : α → Prop) (idx : α → Option ℕ) (l : List α) : Prop :=
  ∀ x, P x → ∀ i, idx x = some i ↔ l[i]? = some x

/-- Records that are right on `P` are right on less. -/
lemma IndexedOn.mono {P Q : α → Prop} {idx : α → Option ℕ} {l : List α} (hi : IndexedOn P idx l)
    (h : ∀ x, Q x → P x) : IndexedOn Q idx l :=
  fun x hx => hi x (h x hx)

/-- In a list without repetitions an entry stands at one place. -/
lemma getElem?_iff_of_nodup {l : List α} (h : l.Nodup) {q : α} {j : ℕ} (hj : l[j]? = some q)
    (i : ℕ) : l[i]? = some q ↔ i = j := by
  obtain ⟨hjl, hjq⟩ := List.getElem?_eq_some_iff.mp hj
  constructor
  · intro hi
    obtain ⟨hil, hiq⟩ := List.getElem?_eq_some_iff.mp hi
    exact (h.getElem_inj_iff).mp (hiq.trans hjq.symm)
  · rintro rfl
    exact hj

/-- An entry at the end is not in the way of the others. -/
lemma getElem?_concat_iff {l : List α} {e x : α} (hx : x ≠ e) (i : ℕ) :
    (l ++ [e])[i]? = some x ↔ l[i]? = some x := by
  rw [List.getElem?_append]
  split_ifs with hi
  · rfl
  · rw [List.getElem?_eq_none (not_lt.mp hi)]
    constructor
    · intro hlast
      exact absurd (List.mem_singleton.mp (List.mem_of_getElem? hlast)) hx
    · intro hno
      cases hno

/-- The records of a list without repetitions. -/
lemma IndexedOn.nodup {idx : α → Option ℕ} {l : List α} (hi : IndexedOn (fun _ => True) idx l) :
    l.Nodup := by
  rw [List.nodup_iff_getElem?_ne_getElem?]
  intro i j hij hj heq
  have hget := List.getElem?_eq_getElem hj
  have h1 := (hi _ trivial i).mpr (heq.trans hget)
  rw [(hi _ trivial j).mpr hget] at h1
  exact absurd (Option.some.inj h1) (Nat.ne_of_gt hij)

section indexed

variable [DecidableEq α] {P : α → Prop} {idx : α → Option ℕ} {l : List α}

/-- The record of an entry at a known place. -/
lemma IndexedOn.place {e : α} {h : ℕ} (hi : IndexedOn (fun x => x ≠ e ∧ P x) idx l)
    (he : ∀ i, l[i]? = some e ↔ i = h) :
    IndexedOn (fun x => x = e ∨ P x) (Function.update idx e (some h)) l := by
  intro x hx i
  by_cases hxe : x = e
  · subst hxe
    rw [Function.update_self, he, Option.some.injEq, eq_comm]
  · rw [Function.update_of_ne hxe]
    exact hi x ⟨hxe, hx.resolve_left hxe⟩ i

/-- The record of an entry that is not in the list. -/
lemma IndexedOn.remove {e : α} (hi : IndexedOn (fun x => x ≠ e ∧ P x) idx l) (he : e ∉ l) :
    IndexedOn (fun x => x = e ∨ P x) (Function.update idx e none) l := by
  intro x hx i
  by_cases hxe : x = e
  · subst hxe
    rw [Function.update_self]
    constructor
    · intro h
      cases h
    · intro h
      exact absurd (List.mem_of_getElem? h) he
  · rw [Function.update_of_ne hxe]
    exact hi x ⟨hxe, hx.resolve_left hxe⟩ i

/-- The entry at `h` and another one change places; the other one's record is written. -/
lemma IndexedOn.swap {e q : α} {h j : ℕ} (hi : IndexedOn (fun x => x ≠ e ∧ P x) idx l)
    (he : ∀ i, l[i]? = some e ↔ i = h) (hq : ∀ i, l[i]? = some q ↔ i = j) (hne : q ≠ e) :
    IndexedOn (fun x => x ≠ e ∧ P x) (Function.update idx q (some h)) (swap l j h) ∧
      ∀ i, (swap l j h)[i]? = some e ↔ i = j := by
  obtain ⟨hh, -⟩ := List.getElem?_eq_some_iff.mp ((he h).mpr rfl)
  obtain ⟨hj, -⟩ := List.getElem?_eq_some_iff.mp ((hq j).mpr rfl)
  constructor
  · intro x hx i
    rw [getElem?_swap hj hh]
    by_cases hxq : x = q
    · subst hxq
      rw [Function.update_self, hq, Option.some.injEq, Equiv.swap_apply_eq_iff,
        Equiv.swap_apply_left, eq_comm]
    · rw [Function.update_of_ne hxq, hi x hx i]
      by_cases hij : i = j
      · subst hij
        rw [Equiv.swap_apply_left, (hq i).mpr rfl, (he h).mpr rfl]
        exact ⟨fun h => absurd (Option.some.inj h) (Ne.symm hxq),
          fun h => absurd (Option.some.inj h) (Ne.symm hx.1)⟩
      · by_cases hih : i = h
        · subst hih
          rw [Equiv.swap_apply_right, (hq j).mpr rfl, (he i).mpr rfl]
          exact ⟨fun h => absurd (Option.some.inj h) (Ne.symm hx.1),
            fun h => absurd (Option.some.inj h) (Ne.symm hxq)⟩
        · rw [Equiv.swap_apply_of_ne_of_ne hij hih]
  · intro i
    rw [getElem?_swap hj hh, he, Equiv.swap_apply_eq_iff, Equiv.swap_apply_right]

end indexed

/-! ## Replacing an entry -/

/-- A swap is symmetric. -/
lemma swap_comm (l : List α) {i j : ℕ} : swap l i j = swap l j i := by
  by_cases h : i < l.length ∧ j < l.length
  · apply List.ext_getElem?
    intro k
    rw [getElem?_swap h.1 h.2, getElem?_swap h.2 h.1, Equiv.swap_comm]
  · rw [swap, swap, dif_neg h, dif_neg (fun h' => h h'.symm)]

/-- A hole that moves: the entry for it changes places with the one that goes into the hole. -/
lemma swap_set {l : List α} {h j : ℕ} {e q : α} (hh : h < l.length) (hj : l[j]? = some q)
    (hne : j ≠ h) : swap (l.set h e) j h = (l.set h q).set j e := by
  obtain ⟨hjl, rfl⟩ := List.getElem?_eq_some_iff.mp hj
  rw [swap, dif_pos ⟨by rwa [List.length_set], by rwa [List.length_set]⟩]
  simp only [List.get_eq_getElem, List.getElem_set_self, List.getElem_set_ne hne.symm]
  rw [List.set_comm _ _ hne, List.set_set, List.set_comm _ _ hne.symm]

/-- Above the children of an entry stands its parent, with no greater key. -/
lemma IsHeap.grand {key : α → κ} {l : List α} (h : IsHeap key l) {i c : ℕ} (hi : i < l.length)
    (hc : (c - 1) / 2 = i) : InOrder key l ((i - 1) / 2) c := by
  intro x y hx hy
  have hmid := List.getElem?_eq_getElem hi
  exact (h i _ _ hx hmid).trans (h c _ _ (by rw [hc, hmid]) hy)

/-- Another entry at `i`, that does not come behind the parent: only it is out of order, and is to
move up. -/
lemma upHeap_set {key : α → κ} {l : List α} {i : ℕ} {q z : α} (h : IsHeap key l)
    (hi : i < l.length) (hq : l[(i - 1) / 2]? = some q) (hle : key z ≤ key q) :
    UpHeap key (l.set i z) i := by
  refine ⟨?_, ?_⟩
  · intro j hj x y hx hy
    rw [List.getElem?_set_ne hj.symm] at hy
    by_cases hp : (j - 1) / 2 = i
    · rw [hp, List.getElem?_set_self hi] at hx
      cases hx
      exact hle.trans (h.grand hi hp _ _ hq hy)
    · rw [List.getElem?_set_ne (Ne.symm hp)] at hx
      exact h j _ _ hx hy
  · intro hpos c hc hci x y hx hy
    rw [List.getElem?_set_ne (by omega)] at hx hy
    exact h.grand hi hci _ _ hx hy

/-- Another entry at `i`, that does not come before the parent: it is to move down. -/
lemma downHeap_set {key : α → κ} {l : List α} {i : ℕ} {z : α} (h : IsHeap key l)
    (hi : i < l.length) (hge : 0 < i → ∀ q, l[(i - 1) / 2]? = some q → key q ≤ key z) :
    DownHeap key (l.set i z) i := by
  refine ⟨?_, ?_⟩
  · intro j hj hp x y hx hy
    rw [List.getElem?_set_ne (Ne.symm hp)] at hx
    by_cases hji : i = j
    · subst hji
      rw [List.getElem?_set_self hi] at hy
      cases hy
      exact hge hj x hx
    · rw [List.getElem?_set_ne hji] at hy
      exact h j _ _ hx hy
  · intro hpos c hc hci x y hx hy
    rw [List.getElem?_set_ne (by omega)] at hx hy
    exact h.grand hi hci _ _ hx hy

end CocInside.Lib
