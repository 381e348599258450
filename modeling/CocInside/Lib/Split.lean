import Mathlib.Data.List.TakeWhile
import Mathlib.Tactic.Common

/-!
# Splitting and scanning

Facts about `List.splitOnP`, `List.takeWhile` and `List.dropWhile` that the library does not have.

* `length_splitOnP`, `eq_false_of_mem_splitOnP`: how many parts there are, and that none has a separator.
* `splitOnP_of_dropWhile_nil`, `splitOnP_of_dropWhile_cons`: the parts, scanned one by one.
* `splitOnP_flatMap`: parts that are written with a separator behind each.
* `takeWhile_append_of_stop`, `dropWhile_append_of_stop`: a scan that does not go on into the rest.
-/

namespace CocInside.Lib

variable {α : Type*} {p : α → Bool}

/-! ## Parts -/

/-- There is a part more than there are separators. -/
lemma length_splitOnP (p : α → Bool) (xs : List α) :
    (xs.splitOnP p).length = (xs.filter p).length + 1 := by
  induction xs with
  | nil => simp
  | cons x xs ih =>
      rw [List.splitOnP_cons_eq_if_modifyHead]
      by_cases hx : p x <;> simp [hx, ih]

/-- No part has a separator. -/
lemma eq_false_of_mem_splitOnP {xs part : List α} (h : part ∈ xs.splitOnP p) :
    ∀ x ∈ part, p x = false := by
  induction xs generalizing part with
  | nil =>
      obtain rfl : part = [] := by simpa using h
      simp
  | cons y xs ih =>
      rw [List.splitOnP_cons_eq_if_modifyHead] at h
      by_cases hy : p y
      · rw [if_pos hy, List.mem_cons] at h
        rcases h with rfl | h
        · simp
        · exact ih h
      · obtain ⟨first, others, hsplit⟩ := List.exists_cons_of_ne_nil (List.splitOnP_ne_nil p xs)
        rw [if_neg hy, hsplit, List.modifyHead_cons, List.mem_cons] at h
        rcases h with rfl | h
        · intro x hx
          rcases List.mem_cons.mp hx with rfl | hx
          · simpa using hy
          · exact ih (by simp [hsplit]) x hx
        · exact ih (by simp [hsplit, h])

/-- What a scan for a separator takes has none. -/
lemma eq_false_of_mem_takeWhile {xs : List α} {x : α} (h : x ∈ xs.takeWhile (!p ·)) :
    p x = false := by
  simpa using List.mem_takeWhile_imp h

/-- The parts of a list without separators. -/
lemma splitOnP_of_dropWhile_nil {xs : List α} (h : xs.dropWhile (!p ·) = []) :
    xs.splitOnP p = [xs.takeWhile (!p ·)] := by
  have hall : xs.takeWhile (!p ·) = xs := by
    have happ := List.takeWhile_append_dropWhile (p := (!p ·)) (l := xs)
    rwa [h, List.append_nil] at happ
  rw [hall]
  apply List.splitOnP_eq_singleton
  intro x hx
  rw [← hall] at hx
  exact eq_false_of_mem_takeWhile hx

/-- The parts of a list with a separator: the first one, and those behind the separator. -/
lemma splitOnP_of_dropWhile_cons {xs rest : List α} {x : α} (h : xs.dropWhile (!p ·) = x :: rest) :
    xs.splitOnP p = xs.takeWhile (!p ·) :: rest.splitOnP p := by
  have hx : p x = true := by
    have hhead := List.head?_dropWhile_not (!p ·) xs
    simpa [h] using hhead
  conv_lhs => rw [← List.takeWhile_append_dropWhile (p := (!p ·)) (l := xs), h]
  have htoken : ∀ y ∈ xs.takeWhile (!p ·), p y = false := fun y hy => eq_false_of_mem_takeWhile hy
  exact List.splitOnP_append_cons_of_forall_mem htoken x hx rest

/-- Parts that are written with a separator behind each, and a last one. -/
lemma splitOnP_flatMap {s : α} (hs : p s = true) {parts : List (List α)} {last : List α}
    (h : ∀ part ∈ parts, ∀ x ∈ part, p x = false) (hlast : ∀ x ∈ last, p x = false) :
    (parts.flatMap (· ++ [s]) ++ last).splitOnP p = parts ++ [last] := by
  induction parts with
  | nil => exact List.splitOnP_eq_singleton hlast
  | cons part parts ih =>
      have hpart := h part List.mem_cons_self
      rw [List.flatMap_cons, List.append_assoc, List.append_assoc, List.singleton_append,
        List.splitOnP_append_cons_of_forall_mem hpart s hs,
        ih fun q hq => h q (List.mem_cons_of_mem part hq)]
      rfl

/-! ## Scans -/

/-- A scan that stops at the beginning of the rest takes nothing of it. -/
lemma takeWhile_append_of_stop {rest : List α} (h : rest.takeWhile p = []) (xs : List α) :
    (xs ++ rest).takeWhile p = xs.takeWhile p := by
  induction xs with
  | nil => exact h
  | cons x xs ih => by_cases hx : p x <;> simp [hx, ih]

/-- And it leaves all of it. -/
lemma dropWhile_append_of_stop {rest : List α} (h : rest.dropWhile p = rest) (xs : List α) :
    (xs ++ rest).dropWhile p = xs.dropWhile p ++ rest := by
  induction xs with
  | nil => exact h
  | cons x xs ih => by_cases hx : p x <;> simp [hx, ih]

end CocInside.Lib
