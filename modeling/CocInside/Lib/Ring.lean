import Mathlib.Data.List.Basic
import Mathlib.Data.List.GetD
import Mathlib.Tactic.Common

/-!
# Ring buffers

A buffer of `n` cells used as a ring: its contents are the `len` cells from `start` on, counted
modulo `n`. The cells are a function of the index; only indices below `n` are used.

* `window`: the contents. `slice`, `store`: reading and writing a run of neighbouring cells.
* `window_eq_slice`, `window_eq_append`: the contents in one piece, or in two around the end.
* `window_store`: a run of cells written behind the contents extends them.
* `take_window`, `drop_window`: the contents after taking cells from the front.
* `Occupied`: the cells that hold contents, and `occupied_iff`, the one or two runs they form.
-/

namespace CocInside.Lib

variable {α : Type*}

/-- The `k` cells from `pos` on. -/
def slice (buf : ℕ → α) (pos k : ℕ) : List α := (List.range k).map fun i => buf (pos + i)

/-- The buffer with `bs` written from `pos` on. -/
def store (buf : ℕ → α) (pos : ℕ) (bs : List α) : ℕ → α :=
  fun i => if pos ≤ i then bs.getD (i - pos) (buf i) else buf i

/-- The contents of a ring of `n` cells. -/
def window (buf : ℕ → α) (n start len : ℕ) : List α :=
  (List.range len).map fun i => buf ((start + i) % n)

/-- A slice is as long as asked for. -/
@[simp] lemma length_slice (buf : ℕ → α) (pos k : ℕ) : (slice buf pos k).length = k := by
  simp [slice]

/-- A window is as long as asked for. -/
@[simp] lemma length_window (buf : ℕ → α) (n start len : ℕ) :
    (window buf n start len).length = len := by
  simp [window]

/-- The elements of a slice. -/
lemma getElem?_slice {buf : ℕ → α} {pos k i : ℕ} (hi : i < k) :
    (slice buf pos k)[i]? = some (buf (pos + i)) := by
  simp [slice, hi]

/-- The elements of a window: it wraps around. -/
lemma getElem?_window {buf : ℕ → α} {n start len i : ℕ} (hi : i < len) :
    (window buf n start len)[i]? = some (buf ((start + i) % n)) := by
  simp [window, hi]

/-- Contents that do not reach the end of the buffer are one run of cells. -/
lemma window_eq_slice {buf : ℕ → α} {n start len : ℕ} (h : start + len ≤ n) :
    window buf n start len = slice buf start len := by
  refine List.map_congr_left ?_
  intro i hi
  rw [List.mem_range] at hi
  rw [Nat.mod_eq_of_lt (by omega)]

/-- Contents that go past the end are a run up to it and one from the first cell on. -/
lemma window_eq_append {buf : ℕ → α} {n start len : ℕ} (hs : start < n) (hl : len ≤ n)
    (h : n < start + len) :
    window buf n start len = slice buf start (n - start) ++ slice buf 0 (len - (n - start)) := by
  apply List.ext_getElem?
  intro i
  by_cases hi : i < len
  · rw [getElem?_window hi]
    by_cases hin : i < n - start
    · rw [List.getElem?_append_left (by rw [length_slice]; exact hin), getElem?_slice hin,
        Nat.mod_eq_of_lt (by omega)]
    · rw [List.getElem?_append_right (by rw [length_slice]; omega), length_slice,
        getElem?_slice (by omega)]
      congr 2
      rw [Nat.mod_eq_sub_mod (by omega), Nat.mod_eq_of_lt (by omega)]
      omega
  · rw [List.getElem?_eq_none (by rw [length_window]; omega), List.getElem?_eq_none]
    rw [List.length_append, length_slice, length_slice]
    omega

/-- The first cells of the contents. -/
lemma take_window (buf : ℕ → α) (n start : ℕ) {len k : ℕ} (hk : k ≤ len) :
    (window buf n start len).take k = window buf n start k := by
  unfold window
  rw [← List.map_take, List.take_range, Nat.min_eq_left hk]

/-- Taking cells from the front moves the start on. -/
lemma drop_window (buf : ℕ → α) (n start : ℕ) {len k : ℕ} (hk : k ≤ len) :
    (window buf n start len).drop k = window buf n ((start + k) % n) (len - k) := by
  apply List.ext_getElem?
  intro i
  rw [List.getElem?_drop]
  by_cases hi : i < len - k
  · rw [getElem?_window (by omega), getElem?_window hi, Nat.mod_add_mod, Nat.add_assoc]
  · rw [List.getElem?_eq_none (by rw [length_window]; omega),
      List.getElem?_eq_none (by rw [length_window]; omega)]

/-- Cells outside the run written are as before. -/
lemma store_of_notMem {buf : ℕ → α} {pos i : ℕ} {bs : List α}
    (h : i < pos ∨ pos + bs.length ≤ i) : store buf pos bs i = buf i := by
  unfold store
  split
  · exact List.getD_eq_default _ _ (by omega)
  · rfl

/-- An index that goes past the end at most once. -/
lemma mod_of_lt_two_mul {n x : ℕ} (hx : x < 2 * n) : x % n = if x < n then x else x - n := by
  split
  · next hlt => exact Nat.mod_eq_of_lt hlt
  · next hge => rw [Nat.mod_eq_sub_mod (by omega), Nat.mod_eq_of_lt (by omega)]

/-- A run of cells written right behind the contents, not past the end of the buffer and not into
the contents, extends them. -/
lemma window_store (buf : ℕ → α) (bs : List α) {n start len : ℕ} (hs : start < n)
    (hl : len + bs.length ≤ n) (hend : (start + len) % n + bs.length ≤ n) :
    window (store buf ((start + len) % n) bs) n start (len + bs.length)
      = window buf n start len ++ bs := by
  have hpos := mod_of_lt_two_mul (show start + len < 2 * n by omega)
  apply List.ext_getElem?
  intro i
  by_cases hi : i < len + bs.length
  · have hcell := mod_of_lt_two_mul (show start + i < 2 * n by omega)
    rw [getElem?_window hi]
    by_cases hil : i < len
    · rw [List.getElem?_append_left (by rw [length_window]; exact hil), getElem?_window hil,
        store_of_notMem]
      split at hpos <;> split at hcell <;> omega
    · rw [List.getElem?_append_right (by rw [length_window]; omega), length_window]
      have hcell' : (start + i) % n = (start + len) % n + (i - len) := by
        split at hpos <;> split at hcell <;> omega
      rw [hcell', store, if_pos (Nat.le_add_right _ _), Nat.add_sub_cancel_left,
        List.getD_eq_getElem _ _ (by omega), List.getElem?_eq_getElem (by omega)]
  · rw [List.getElem?_eq_none (by rw [length_window]; omega), List.getElem?_eq_none]
    rw [List.length_append, length_window]
    omega

/-- The cell `p` holds contents. -/
def Occupied (n start len p : ℕ) : Prop := ∃ i < len, (start + i) % n = p

/-- The cells that hold contents: a run from `start` on, and one from the first cell on if the contents
go past the end. -/
lemma occupied_iff {n start len p : ℕ} (hs : start < n) (hl : len ≤ n) :
    Occupied n start len p ↔ (start ≤ p ∧ p < start + len ∧ p < n) ∨ p + n < start + len := by
  constructor
  · rintro ⟨i, hi, rfl⟩
    have hcell := mod_of_lt_two_mul (show start + i < 2 * n by omega)
    split at hcell <;> omega
  · rintro (⟨hge, hlt, hn⟩ | hwrap)
    · refine ⟨p - start, by omega, ?_⟩
      rw [Nat.add_sub_cancel' hge, Nat.mod_eq_of_lt hn]
    · refine ⟨p + n - start, by omega, ?_⟩
      rw [Nat.add_sub_cancel' (by omega), Nat.add_mod_right, Nat.mod_eq_of_lt (by omega)]

end CocInside.Lib
