import Mathlib.Data.List.Basic
import Mathlib.Logic.Equiv.Basic
import Mathlib.Order.Lattice
import Mathlib.Tactic.Common

/-!
# Binary heaps in lists

A list read as a complete binary tree, entry `i` below entry `(i - 1) / 2`, ordered by a key: the
front has the least one. The order is the one `std::push_heap` and `std::pop_heap` work with when
their comparison is "has the greater key".

* `IsHeap`, `IsHeap.front_le`: no entry comes before its parent, so none comes before the front.
* `HeapOps`: a pair of operations that behaves as the standard asks of `push_heap` and `pop_heap`,
  and no more; a result about every `HeapOps` holds for every standard library.
* `HeapOps.FrontStays`: a pushed entry does not pass a front with an equal key, which the standard
  leaves open.
* `siftOps`: the operations by sifting. `siftUp` compares strictly, so that a pushed entry never
  passes one with an equal key: `frontStays_siftOps`.
-/

namespace CocInside.Lib

variable {α κ : Type*} [LinearOrder κ]

/-! ## The order -/

/-- Entry `c` does not come before entry `p`, if both are there. -/
def InOrder (key : α → κ) (l : List α) (p c : ℕ) : Prop :=
  ∀ a b, l[p]? = some a → l[c]? = some b → key a ≤ key b

/-- No entry comes before its parent. Source: `std::is_heap`. -/
def IsHeap (key : α → κ) (l : List α) : Prop := ∀ i, InOrder key l ((i - 1) / 2) i

/-- An entry is in order with itself. -/
lemma InOrder.refl (key : α → κ) (l : List α) (i : ℕ) : InOrder key l i i := by
  intro a b ha hb
  rw [ha] at hb
  cases hb
  exact le_rfl

/-- The empty list is a heap. -/
lemma isHeap_nil (key : α → κ) : IsHeap key [] := by
  intro i a b ha
  cases ha

/-- Only the keys of the entries matter. -/
lemma IsHeap.congr {key key' : α → κ} {l : List α} (h : IsHeap key l)
    (hk : ∀ a ∈ l, key' a = key a) : IsHeap key' l := by
  intro i a b ha hb
  rw [hk a (List.mem_of_getElem? ha), hk b (List.mem_of_getElem? hb)]
  exact h i a b ha hb

/-- The front of a heap has the least key. -/
lemma IsHeap.front_le {key : α → κ} {a : α} {l : List α} (h : IsHeap key (a :: l)) :
    ∀ b ∈ a :: l, key a ≤ key b := by
  intro b hb
  obtain ⟨i, hi⟩ := List.mem_iff_getElem?.mp hb
  clear hb
  -- up the tree from `b` to the root
  induction i using Nat.strongRecOn generalizing b with
  | ind i ih =>
      rcases Nat.eq_zero_or_pos i with rfl | hpos
      · cases hi
        exact le_rfl
      · have hlt : i < (a :: l).length := (List.getElem?_eq_some_iff.mp hi).1
        have hp := List.getElem?_eq_getElem (l := a :: l) (i := (i - 1) / 2) (by omega)
        exact (ih _ (by omega) _ hp).trans (h i _ _ hp hi)

/-! ## Operations as the standard specifies them -/

/-- Operations that do what the C++ standard requires of `std::push_heap` and `std::pop_heap` under
the comparison "has the greater key". -/
structure HeapOps (α κ : Type*) [LinearOrder κ] where
  /-- `std::push_heap`: the last entry joins the heap in front of it. -/
  pushHeap : (α → κ) → List α → List α
  /-- `std::pop_heap`: the front goes to the end, the rest becomes a heap. -/
  popHeap : (α → κ) → List α → List α
  push_perm : ∀ key l a, IsHeap key l → (pushHeap key (l ++ [a])).Perm (l ++ [a])
  push_isHeap : ∀ key l a, IsHeap key l → IsHeap key (pushHeap key (l ++ [a]))
  pop_spec : ∀ key a l, IsHeap key (a :: l) →
    ∃ l', popHeap key (a :: l) = l' ++ [a] ∧ l'.Perm l ∧ IsHeap key l'

/-- A pushed entry that does not come before the front leaves the front where it is: the operations do
not exchange entries with equal keys. -/
def HeapOps.FrontStays (H : HeapOps α κ) : Prop :=
  ∀ key a l b, IsHeap key (a :: l) → key a ≤ key b →
    (H.pushHeap key (a :: l ++ [b])).head? = some a

/-! ## Exchanging two entries -/

/-- The list with entries `i` and `j` exchanged. -/
def swap (l : List α) (i j : ℕ) : List α :=
  if h : i < l.length ∧ j < l.length then (l.set i (l.get ⟨j, h.2⟩)).set j (l.get ⟨i, h.1⟩) else l

/-- A swap is a permutation. -/
lemma swap_perm (l : List α) (i j : ℕ) : (swap l i j).Perm l := by
  unfold swap
  split
  · next h => exact List.set_set_perm h.1 h.2
  · exact List.Perm.refl l

/-- A swap keeps the length. -/
@[simp] lemma length_swap (l : List α) (i j : ℕ) : (swap l i j).length = l.length :=
  (swap_perm l i j).length_eq

/-- Exchanging entries renames positions. -/
lemma getElem?_swap {l : List α} {i j : ℕ} (hi : i < l.length) (hj : j < l.length) (k : ℕ) :
    (swap l i j)[k]? = l[Equiv.swap i j k]? := by
  rw [swap, dif_pos ⟨hi, hj⟩]
  simp only [List.get_eq_getElem, List.getElem?_set, List.length_set]
  by_cases hkj : j = k
  · subst hkj
    rw [if_pos rfl, if_pos hj, Equiv.swap_apply_right, List.getElem?_eq_getElem hi]
  · rw [if_neg hkj]
    by_cases hki : i = k
    · subst hki
      rw [if_pos rfl, if_pos hi, Equiv.swap_apply_left, List.getElem?_eq_getElem hj]
    · rw [if_neg hki, Equiv.swap_apply_of_ne_of_ne (Ne.symm hki) (Ne.symm hkj)]

/-! ## Sifting up -/

/-- The entry at `i` moves up while it comes before its parent; `fuel` bounds the moves. -/
def siftUp (key : α → κ) : ℕ → List α → ℕ → List α
  | 0, l, _ => l
  | fuel + 1, l, i =>
      match l[(i - 1) / 2]?, l[i]? with
      | some a, some b =>
          if key b < key a then siftUp key fuel (swap l ((i - 1) / 2) i) ((i - 1) / 2) else l
      | _, _ => l

/-- A heap but for the entry at `i`, which may come before its parent. -/
structure UpHeap (key : α → κ) (l : List α) (i : ℕ) : Prop where
  inOrder : ∀ j, j ≠ i → InOrder key l ((j - 1) / 2) j
  grand : 0 < i → ∀ c, 0 < c → (c - 1) / 2 = i → InOrder key l ((i - 1) / 2) c

/-- When the entry does not come before its parent the list is a heap. -/
lemma UpHeap.isHeap {key : α → κ} {l : List α} {i : ℕ} (h : UpHeap key l i)
    (hi : InOrder key l ((i - 1) / 2) i) : IsHeap key l := by
  intro j
  by_cases hj : j = i
  · rw [hj]
    exact hi
  · exact h.inOrder j hj

/-- One move up: the entry and its parent change places. -/
lemma UpHeap.move {key : α → κ} {l : List α} {i : ℕ} {a b : α} (h : UpHeap key l i)
    (ha : l[(i - 1) / 2]? = some a) (hb : l[i]? = some b) (hlt : key b < key a) :
    UpHeap key (swap l ((i - 1) / 2) i) ((i - 1) / 2) := by
  obtain ⟨hp, -⟩ := List.getElem?_eq_some_iff.mp ha
  obtain ⟨hi, -⟩ := List.getElem?_eq_some_iff.mp hb
  have hpos : 0 < i := by
    rcases Nat.eq_zero_or_pos i with rfl | h0
    · rw [show (0 - 1) / 2 = 0 from rfl, hb] at ha
      cases ha
      exact absurd hlt (lt_irrefl _)
    · exact h0
  generalize hpd : (i - 1) / 2 = p at *
  have hpi : p < i := by omega
  have hfst : (swap l p i)[p]? = some b := by
    rw [getElem?_swap hp hi, Equiv.swap_apply_left, hb]
  have hsnd : (swap l p i)[i]? = some a := by
    rw [getElem?_swap hp hi, Equiv.swap_apply_right, ha]
  have hrest : ∀ k, k ≠ p → k ≠ i → (swap l p i)[k]? = l[k]? := by
    intro k hkp hki
    rw [getElem?_swap hp hi, Equiv.swap_apply_of_ne_of_ne hkp hki]
  refine ⟨?_, ?_⟩
  · intro j hjp x y hx hy
    by_cases hji : j = i
    · subst hji
      rw [hpd, hfst] at hx
      rw [hsnd] at hy
      cases hx
      cases hy
      exact hlt.le
    · rw [hrest j hjp hji] at hy
      by_cases h1 : (j - 1) / 2 = i
      · rw [h1, hsnd] at hx
        cases hx
        exact h.grand hpos j (by omega) h1 _ _ (hpd ▸ ha) hy
      · by_cases h2 : (j - 1) / 2 = p
        · rw [h2, hfst] at hx
          cases hx
          exact hlt.le.trans (h.inOrder j hji _ _ (h2 ▸ ha) hy)
        · rw [hrest _ h2 h1] at hx
          exact h.inOrder j hji _ _ hx hy
  · intro hp0 c hc hcp x y hx hy
    rw [hrest _ (by omega) (by omega)] at hx
    have hxa : key x ≤ key a := h.inOrder p (by omega) _ _ hx ha
    by_cases hci : c = i
    · subst hci
      rw [hsnd] at hy
      cases hy
      exact hxa
    · rw [hrest c (by omega) hci] at hy
      exact hxa.trans (h.inOrder c hci _ _ (hcp ▸ ha) hy)

/-- Sifting up is a permutation. -/
lemma siftUp_perm (key : α → κ) (fuel : ℕ) (l : List α) (i : ℕ) :
    (siftUp key fuel l i).Perm l := by
  induction fuel generalizing l i with
  | zero => exact List.Perm.refl l
  | succ fuel ih =>
      unfold siftUp
      split
      · split
        · exact (ih _ _).trans (swap_perm _ _ _)
        · exact List.Perm.refl l
      · exact List.Perm.refl l

/-- With a turn for each level above `i` and one more, sifting up ends in a heap. -/
lemma isHeap_siftUp {key : α → κ} {fuel : ℕ} {l : List α} {i : ℕ} (hf : i < fuel)
    (h : UpHeap key l i) : IsHeap key (siftUp key fuel l i) := by
  induction fuel generalizing l i with
  | zero => omega
  | succ fuel ih =>
      unfold siftUp
      split
      · next a b ha hb =>
          split
          · next hlt =>
              refine ih ?_ (h.move ha hb hlt)
              rcases Nat.eq_zero_or_pos i with rfl | hpos
              · rw [show (0 - 1) / 2 = 0 from rfl, hb] at ha
                cases ha
                exact absurd hlt (lt_irrefl _)
              · omega
          · next hge =>
              apply h.isHeap
              intro x y hx hy
              rw [ha] at hx
              rw [hb] at hy
              cases hx
              cases hy
              exact not_lt.mp hge
      · next hno =>
          apply h.isHeap
          intro x y hx hy
          exact absurd hy (hno x y hx)

/-! ## Sifting down -/

/-- The child of `i` that comes first: `2 * i + 1`, unless `2 * i + 2` comes before it. -/
def firstChild (key : α → κ) (l : List α) (i : ℕ) : ℕ :=
  match l[2 * i + 1]?, l[2 * i + 2]? with
  | some a, some b => if key b < key a then 2 * i + 2 else 2 * i + 1
  | _, _ => 2 * i + 1

/-- The entry at `i` moves down while a child comes before it; `fuel` bounds the moves. -/
def siftDown (key : α → κ) : ℕ → List α → ℕ → List α
  | 0, l, _ => l
  | fuel + 1, l, i =>
      let c := firstChild key l i
      match l[i]?, l[c]? with
      | some a, some b => if key b < key a then siftDown key fuel (swap l i c) c else l
      | _, _ => l

/-- The first child is one of the two. -/
lemma firstChild_eq (key : α → κ) (l : List α) (i : ℕ) :
    firstChild key l i = 2 * i + 1 ∨ firstChild key l i = 2 * i + 2 := by
  unfold firstChild
  split
  · split
    · exact .inr rfl
    · exact .inl rfl
  · exact .inl rfl

/-- No child of `i` comes before the first one. -/
lemma firstChild_inOrder (key : α → κ) (l : List α) {i c : ℕ} (hc : 0 < c)
    (hci : (c - 1) / 2 = i) : InOrder key l (firstChild key l i) c := by
  have hcase : c = 2 * i + 1 ∨ c = 2 * i + 2 := by omega
  unfold firstChild
  split
  · next a b ha hb =>
      split
      · next hlt =>
          rcases hcase with rfl | rfl
          · intro x y hx hy
            rw [hb] at hx
            rw [ha] at hy
            cases hx
            cases hy
            exact hlt.le
          · exact InOrder.refl key l _
      · next hge =>
          rcases hcase with rfl | rfl
          · exact InOrder.refl key l _
          · intro x y hx hy
            rw [ha] at hx
            rw [hb] at hy
            cases hx
            cases hy
            exact not_lt.mp hge
  · next hno =>
      rcases hcase with rfl | rfl
      · exact InOrder.refl key l _
      · intro x y hx hy
        exact absurd hy (hno x y hx)

/-- A heap but for the entry at `i`, which a child may come before. -/
structure DownHeap (key : α → κ) (l : List α) (i : ℕ) : Prop where
  inOrder : ∀ j, 0 < j → (j - 1) / 2 ≠ i → InOrder key l ((j - 1) / 2) j
  grand : 0 < i → ∀ c, 0 < c → (c - 1) / 2 = i → InOrder key l ((i - 1) / 2) c

/-- One move down: the entry and a child that no child comes before change places. -/
lemma DownHeap.moveTo {key : α → κ} {l : List α} {i c : ℕ} {a b : α} (h : DownHeap key l i)
    (hcase : c = 2 * i + 1 ∨ c = 2 * i + 2)
    (hmin : ∀ d, 0 < d → (d - 1) / 2 = i → InOrder key l c d) (ha : l[i]? = some a)
    (hb : l[c]? = some b) (hlt : key b < key a) : DownHeap key (swap l i c) c := by
  have hci : (c - 1) / 2 = i := by omega
  obtain ⟨hi, -⟩ := List.getElem?_eq_some_iff.mp ha
  obtain ⟨hc, -⟩ := List.getElem?_eq_some_iff.mp hb
  have hfst : (swap l i c)[i]? = some b := by
    rw [getElem?_swap hi hc, Equiv.swap_apply_left, hb]
  have hsnd : (swap l i c)[c]? = some a := by
    rw [getElem?_swap hi hc, Equiv.swap_apply_right, ha]
  have hrest : ∀ k, k ≠ i → k ≠ c → (swap l i c)[k]? = l[k]? := by
    intro k hki hkc
    rw [getElem?_swap hi hc, Equiv.swap_apply_of_ne_of_ne hki hkc]
  refine ⟨?_, ?_⟩
  · intro j hj hjc x y hx hy
    by_cases hjc' : j = c
    · subst hjc'
      rw [hci, hfst] at hx
      rw [hsnd] at hy
      cases hx
      cases hy
      exact hlt.le
    · by_cases hji : j = i
      · subst hji
        rw [hfst] at hy
        cases hy
        rw [hrest _ (by omega) hjc] at hx
        exact h.grand hj c (by omega) hci _ _ hx hb
      · rw [hrest j hji hjc'] at hy
        by_cases hpi : (j - 1) / 2 = i
        · rw [hpi, hfst] at hx
          cases hx
          exact hmin j hj hpi _ _ hb hy
        · rw [hrest _ hpi hjc] at hx
          exact h.inOrder j hj hpi _ _ hx hy
  · intro _ d hd hdc x y hx hy
    rw [hci, hfst] at hx
    cases hx
    rw [hrest d (by omega) (by omega)] at hy
    exact h.inOrder d hd (by omega) _ _ (hdc ▸ hb) hy

/-- One move down: the entry and its first child change places. -/
lemma DownHeap.move {key : α → κ} {l : List α} {i : ℕ} {a b : α} (h : DownHeap key l i)
    (ha : l[i]? = some a) (hb : l[firstChild key l i]? = some b) (hlt : key b < key a) :
    DownHeap key (swap l i (firstChild key l i)) (firstChild key l i) :=
  h.moveTo (firstChild_eq key l i) (fun _ hd hdi => firstChild_inOrder key l hd hdi) ha hb hlt

/-- Sifting down is a permutation. -/
lemma siftDown_perm (key : α → κ) (fuel : ℕ) (l : List α) (i : ℕ) :
    (siftDown key fuel l i).Perm l := by
  induction fuel generalizing l i with
  | zero => exact List.Perm.refl l
  | succ fuel ih =>
      unfold siftDown
      dsimp only
      split
      · split
        · exact (ih _ _).trans (swap_perm _ _ _)
        · exact List.Perm.refl l
      · exact List.Perm.refl l

/-- If `i` has a child, it has a first one. -/
lemma firstChild_lt (key : α → κ) {l : List α} {i c : ℕ} (hc : 0 < c) (hci : (c - 1) / 2 = i)
    (hl : c < l.length) : firstChild key l i < l.length := by
  unfold firstChild
  split
  · next _ _ _ hb =>
      obtain ⟨hlt, -⟩ := List.getElem?_eq_some_iff.mp hb
      split <;> omega
  · omega

/-- When the first of its children does not come before the entry the list is a heap. -/
lemma DownHeap.isHeap {key : α → κ} {l : List α} {i : ℕ} (h : DownHeap key l i)
    (hi : InOrder key l i (firstChild key l i)) : IsHeap key l := by
  intro j
  rcases Nat.eq_zero_or_pos j with rfl | hj
  · exact InOrder.refl key l 0
  · by_cases hji : (j - 1) / 2 = i
    · intro x y hx hy
      obtain ⟨hjl, -⟩ := List.getElem?_eq_some_iff.mp hy
      have hc := List.getElem?_eq_getElem (firstChild_lt key hj hji hjl)
      rw [hji] at hx
      exact (hi _ _ hx hc).trans (firstChild_inOrder key l hj hji _ _ hc hy)
    · exact h.inOrder j hj hji

/-- With a turn for each entry from `i` on, sifting down ends in a heap. -/
lemma isHeap_siftDown {key : α → κ} {fuel : ℕ} {l : List α} {i : ℕ} (hf : l.length ≤ i + fuel)
    (h : DownHeap key l i) : IsHeap key (siftDown key fuel l i) := by
  induction fuel generalizing l i with
  | zero =>
      apply h.isHeap
      intro x y hx
      rw [List.getElem?_eq_none (by omega)] at hx
      cases hx
  | succ fuel ih =>
      unfold siftDown
      dsimp only
      split
      · next a b ha hb =>
          split
          · next hlt =>
              have hc := firstChild_eq key l i
              exact ih (by rw [length_swap]; omega) (h.move ha hb hlt)
          · next hge =>
              apply h.isHeap
              intro x y hx hy
              rw [ha] at hx
              rw [hb] at hy
              cases hx
              cases hy
              exact not_lt.mp hge
      · next hno =>
          apply h.isHeap
          intro x y hx hy
          exact absurd hy (hno x y hx)

/-! ## The operations by sifting -/

/-- Source: `std::push_heap`. -/
def pushHeap (key : α → κ) (l : List α) : List α := siftUp key l.length l (l.length - 1)

/-- Source: `std::pop_heap`. -/
def popHeap (key : α → κ) (l : List α) : List α :=
  match l with
  | [] => []
  | a :: l =>
      match l.getLast? with
      | none => [a]
      | some z => siftDown key (l.length + 1) (z :: l.dropLast) 0 ++ [a]

/-- A new last entry is the only one that may be out of order. -/
lemma upHeap_append {key : α → κ} {l : List α} (h : IsHeap key l) (a : α) :
    UpHeap key (l ++ [a]) l.length := by
  refine ⟨?_, ?_⟩
  · intro j hj x y hx hy
    obtain ⟨hjl, -⟩ := List.getElem?_eq_some_iff.mp hy
    rw [List.length_append, List.length_singleton] at hjl
    rw [List.getElem?_append_left (by omega)] at hx hy
    exact h j x y hx hy
  · intro _ c _ hc x y _ hy
    rw [List.getElem?_eq_none (by rw [List.length_append, List.length_singleton]; omega)] at hy
    cases hy

/-- A heap whose front is replaced is out of order at the front only. -/
lemma downHeap_cons {key : α → κ} {a : α} {l : List α} (h : IsHeap key (a :: l)) (z : α) :
    DownHeap key (z :: l) 0 := by
  refine ⟨?_, ?_⟩
  · intro j hj hp x y hx hy
    have hx' : (a :: l)[(j - 1) / 2]? = some x := by
      rw [List.getElem?_cons, if_neg hp] at hx ⊢
      exact hx
    have hy' : (a :: l)[j]? = some y := by
      rw [List.getElem?_cons, if_neg (by omega)] at hy ⊢
      exact hy
    exact h j x y hx' hy'
  · intro h0
    exact absurd h0 (Nat.lt_irrefl 0)

/-- A heap without its last entries is one. -/
lemma IsHeap.of_append {key : α → κ} {l m : List α} (h : IsHeap key (l ++ m)) : IsHeap key l := by
  intro i a b ha hb
  obtain ⟨hp, -⟩ := List.getElem?_eq_some_iff.mp ha
  obtain ⟨hi, -⟩ := List.getElem?_eq_some_iff.mp hb
  exact h i a b (by rw [List.getElem?_append_left hp, ha]) (by rw [List.getElem?_append_left hi, hb])

/-- A pop puts the top at the end, and leaves a heap before it. -/
lemma popHeap_spec {key : α → κ} {a : α} {l : List α} (h : IsHeap key (a :: l)) :
    ∃ l', popHeap key (a :: l) = l' ++ [a] ∧ l'.Perm l ∧ IsHeap key l' := by
  rcases List.eq_nil_or_concat' l with rfl | ⟨m, z, rfl⟩
  · exact ⟨[], rfl, List.Perm.refl _, isHeap_nil key⟩
  · refine ⟨siftDown key ((m ++ [z]).length + 1) (z :: m) 0, ?_, ?_, ?_⟩
    · simp only [popHeap, List.getLast?_append, List.getLast?_singleton, Option.some_or,
        List.dropLast_concat]
    · exact (siftDown_perm key _ _ _).trans (List.perm_append_singleton z m).symm
    · refine isHeap_siftDown (by simp) (downHeap_cons (a := a) ?_ z)
      exact IsHeap.of_append (m := [z]) h

/-- `std::push_heap` and `std::pop_heap` by sifting. -/
def siftOps (α κ : Type*) [LinearOrder κ] : HeapOps α κ where
  pushHeap := pushHeap
  popHeap := popHeap
  push_perm key l a _ := siftUp_perm key _ _ _
  push_isHeap key l a h := by
    refine isHeap_siftUp (by simp) ?_
    rw [List.length_append, List.length_singleton, Nat.add_sub_cancel]
    exact upHeap_append h a
  pop_spec _ _ _ := popHeap_spec

/-- Sifting an entry up does not replace a front it does not come before. -/
lemma head?_siftUp {key : α → κ} {fuel : ℕ} {l : List α} {i : ℕ} {a b : α}
    (ha : l.head? = some a) (hb : l[i]? = some b) (hle : key a ≤ key b) :
    (siftUp key fuel l i).head? = some a := by
  induction fuel generalizing l i with
  | zero => exact ha
  | succ fuel ih =>
      unfold siftUp
      split
      · next p c hp hc =>
          rw [hb] at hc
          cases hc
          split
          · next hlt =>
              obtain ⟨hpl, -⟩ := List.getElem?_eq_some_iff.mp hp
              obtain ⟨hil, -⟩ := List.getElem?_eq_some_iff.mp hb
              -- the parent that is passed is not the front
              have hp0 : (i - 1) / 2 ≠ 0 := by
                intro h0
                rw [h0, ← List.head?_eq_getElem?, ha] at hp
                cases hp
                exact absurd hlt (not_lt.mpr hle)
              refine ih ?_ ?_
              · rw [List.head?_eq_getElem?, getElem?_swap hpl hil,
                  Equiv.swap_apply_of_ne_of_ne hp0.symm (by omega), ← List.head?_eq_getElem?, ha]
              · rw [getElem?_swap hpl hil, Equiv.swap_apply_left, hb]
          · exact ha
      · exact ha

/-- Sifting leaves a front with an equal key where it is. -/
lemma frontStays_siftOps : (siftOps α κ).FrontStays := by
  intro key a l b _ hle
  exact head?_siftUp rfl (by simp) hle

end CocInside.Lib
