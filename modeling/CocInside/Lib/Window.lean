import Mathlib.Data.List.Basic
import Mathlib.Tactic.Common

/-!
# A window on an array

An array of which a run of neighbouring cells is in use: what is taken leaves at the front, what is put
comes behind. An access outside the array has no result.

* `Window`: the array and the run, which lies inside. `contents`, `room`: what is in use, and how many
  cells there are behind it.
* `poke`, `extend`, `put`, `discard`, `align`, `rewind`: writing cells, and moving the ends of the run.
* `exists_put`, `exists_discard`, `contents_align`: what they do to the contents.
* `exists_poke_of_extend`: the run may be made longer before its cells are written.
-/

namespace CocInside.Lib

/-- An array, and the run of cells that is in use. -/
structure Window (α : Type*) where
  cells : List α
  start : ℕ
  size : ℕ
  le : start + size ≤ cells.length

namespace Window

variable {α : Type*}

/-- An array with the cells from `i` on written over. -/
def overwritten (cells : List α) (i : ℕ) (xs : List α) : List α :=
  cells.take i ++ xs ++ cells.drop (i + xs.length)

/-- Its length stays. -/
lemma length_overwritten {cells : List α} {i : ℕ} {xs : List α} (h : i + xs.length ≤ cells.length) :
    (overwritten cells i xs).length = cells.length := by
  simp only [overwritten, List.length_append, List.length_take, List.length_drop]
  omega

/-- A run and what is written behind it. -/
lemma take_drop_overwritten {cells : List α} {s n : ℕ} {xs : List α}
    (h : s + n + xs.length ≤ cells.length) :
    ((overwritten cells (s + n) xs).drop s).take (n + xs.length) = (cells.drop s).take n ++ xs := by
  have hlen : ((cells.drop s).take n ++ xs).length = n + xs.length := by
    simp only [List.length_append, List.length_take, List.length_drop]
    omega
  rw [overwritten, List.append_assoc, List.drop_append_of_le_length (by rw [List.length_take]; omega),
    List.drop_take, Nat.add_sub_cancel_left, ← List.append_assoc]
  exact List.take_left' hlen

/-- Nothing is in use. -/
def fresh (cells : List α) : Window α := ⟨cells, 0, 0, Nat.zero_le _⟩

/-- What is in use. -/
def contents (w : Window α) : List α := (w.cells.drop w.start).take w.size

/-- How many cells there are behind it. -/
def room (w : Window α) : ℕ := w.cells.length - (w.start + w.size)

/-- Write cells, anywhere in the array. -/
def poke (w : Window α) (i : ℕ) (xs : List α) : Option (Window α) :=
  if h : i + xs.length ≤ w.cells.length then
    some ⟨overwritten w.cells i xs, w.start, w.size, by rw [length_overwritten h]; exact w.le⟩
  else none

/-- The next `n` cells are in use, too. -/
def extend (w : Window α) (n : ℕ) : Option (Window α) :=
  if h : w.start + w.size + n ≤ w.cells.length then
    some ⟨w.cells, w.start, w.size + n, by omega⟩
  else none

/-- Write behind what is in use. -/
def put (w : Window α) (xs : List α) : Option (Window α) :=
  (w.poke (w.start + w.size) xs).bind fun w => w.extend xs.length

/-- The first `n` cells are no longer in use. -/
def discard (w : Window α) (n : ℕ) : Option (Window α) :=
  if h : n ≤ w.size then
    some ⟨w.cells, w.start + n, w.size - n, by have := w.le; omega⟩
  else none

/-- What is in use, moved to the front. -/
def align (w : Window α) : Window α where
  cells := w.contents ++ w.cells.drop w.size
  start := 0
  size := w.size
  le := by
    have := w.le
    simp only [contents, List.length_append, List.length_take, List.length_drop]
    omega

/-- The run begins at the front. -/
def rewind (w : Window α) : Window α := ⟨w.cells, 0, w.size, by have := w.le; omega⟩

/-! ## Sizes -/

/-- The contents are `size` long. -/
@[simp] lemma length_contents (w : Window α) : w.contents.length = w.size := by
  have := w.le
  simp only [contents, List.length_take, List.length_drop]
  omega

/-- A fresh window is all room. -/
@[simp] lemma room_fresh (cells : List α) : (fresh cells).room = cells.length := by simp [room, fresh]

/-- Nothing in use, no contents. -/
lemma contents_eq_nil_iff (w : Window α) : w.contents = [] ↔ w.size = 0 := by
  rw [← List.length_eq_zero_iff, length_contents]

/-- Where nothing is in use, the run may begin anywhere. -/
lemma contents_rewind {w : Window α} (h : w.size = 0) : w.rewind.contents = w.contents := by
  rw [(contents_eq_nil_iff w).mpr h, contents_eq_nil_iff]
  exact h

/-- All other cells are behind it. -/
lemma room_rewind (w : Window α) : w.rewind.room = w.cells.length - w.size := by
  rw [room, rewind, Nat.zero_add]

/-- What is moved to the front is the same, -/
@[simp] lemma contents_align (w : Window α) : w.align.contents = w.contents := by
  rw [contents, align, List.drop_zero]
  exact List.take_left' w.length_contents

/-- and has all other cells behind it. -/
@[simp] lemma room_align (w : Window α) : w.align.room = w.cells.length - w.size := by
  have := w.le
  simp only [room, align, List.length_append, length_contents, List.length_drop]
  omega

/-! ## The ends of the run -/

/-- What is put comes behind the contents, if there is room. -/
theorem exists_put (w : Window α) (xs : List α) (h : xs.length ≤ w.room) :
    ∃ w', w.put xs = some w' ∧ w'.contents = w.contents ++ xs ∧ w'.size = w.size + xs.length ∧
      w'.start = w.start ∧ w'.cells.length = w.cells.length := by
  have hle := w.le
  have hroom : w.start + w.size + xs.length ≤ w.cells.length := by
    rw [room] at h
    omega
  have hlen := length_overwritten hroom
  refine ⟨⟨overwritten w.cells (w.start + w.size) xs, w.start, w.size + xs.length, by omega⟩, ?_, ?_, rfl,
    rfl, hlen⟩
  · simp only [put, poke, extend, dif_pos hroom, Option.bind_some]
    rw [dif_pos (by omega)]
  · exact take_drop_overwritten hroom

/-- What is taken leaves at the front. -/
theorem exists_discard (w : Window α) {n : ℕ} (h : n ≤ w.size) :
    ∃ w', w.discard n = some w' ∧ w'.contents = w.contents.drop n ∧ w'.size = w.size - n ∧
      w'.room = w.room := by
  refine ⟨⟨w.cells, w.start + n, w.size - n, _⟩, dif_pos h, ?_, rfl, ?_⟩
  · simp only [contents]
    rw [List.drop_take, List.drop_drop]
  · simp only [room]
    omega

/-- The cells may be written before the run is made longer. -/
lemma exists_poke (w : Window α) (xs : List α) (h : xs.length ≤ w.room) :
    ∃ v u : Window α, w.poke (w.start + w.size) xs = some v ∧ v.room = w.room ∧
      v.extend xs.length = some u ∧ u.contents = w.contents ++ xs := by
  obtain ⟨u, hput, hcontents, -⟩ := w.exists_put xs h
  rw [put, Option.bind_eq_some_iff] at hput
  obtain ⟨v, hpoke, hextend⟩ := hput
  refine ⟨v, u, hpoke, ?_, hextend, hcontents⟩
  unfold poke at hpoke
  split at hpoke
  · next hfit =>
      cases hpoke
      simp only [room, length_overwritten hfit]
  · cases hpoke

/-- Nothing is written. -/
@[simp] lemma poke_nil (w : Window α) : w.poke (w.start + w.size) [] = some w := by
  have hle := w.le
  rw [poke, dif_pos (by rw [List.length_nil]; exact hle)]
  simp [overwritten]

/-- The run may be made longer where there are cells behind it. -/
lemma exists_extend {w : Window α} {n : ℕ} (h : n ≤ w.room) :
    ∃ u, w.extend n = some u ∧ u.start = w.start ∧ u.size = w.size + n ∧ u.cells = w.cells := by
  have hle := w.le
  refine ⟨⟨w.cells, w.start, w.size + n, ?_⟩, dif_pos ?_, rfl, rfl, rfl⟩ <;> rw [room] at h <;> omega

/-- By nothing. -/
lemma eq_of_extend_zero {w u : Window α} (h : w.extend 0 = some u) : u = w := by
  have hle := w.le
  rw [extend, dif_pos (by omega)] at h
  exact (Option.some.inj h).symm

/-- The run may be made longer before its cells are written. -/
theorem exists_poke_of_extend {w u : Window α} {n : ℕ} (h : w.extend n = some u) (xs : List α)
    (hxs : xs.length ≤ n) :
    ∃ v u' : Window α, u.poke (w.start + w.size) xs = some u' ∧ v.extend (n - xs.length) = some u' ∧
      v.contents = w.contents ++ xs ∧ v.start = w.start ∧ v.size = w.size + xs.length := by
  unfold extend at h
  split at h
  · next hn =>
      cases h
      have hfit : w.start + w.size + xs.length ≤ w.cells.length := by omega
      have hover := length_overwritten hfit
      refine ⟨⟨overwritten w.cells (w.start + w.size) xs, w.start, w.size + xs.length, by omega⟩,
        ⟨overwritten w.cells (w.start + w.size) xs, w.start, w.size + n, by omega⟩, dif_pos hfit, ?_,
        take_drop_overwritten hfit, rfl, rfl⟩
      rw [extend, dif_pos (by simp only; omega)]
      simp only [Option.some.injEq, mk.injEq, true_and]
      omega
  · cases h

end Window

end CocInside.Lib
