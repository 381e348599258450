import Mathlib.Data.List.Pairwise
import Mathlib.Data.Set.Basic
import Mathlib.Order.Bounds.Basic
import Mathlib.Tactic.Common

/-!
# Lists of separated intervals

A finite set of naturals kept as a sorted list of closed intervals with a gap between any two of
them. The intervals are the values of an arbitrary type `ι` with two end points `lo` and `hi`.

* `Separated lo hi l`: every interval is non-empty, and each ends at least two below where the
  next one starts, so the list is sorted, disjoint and has no two adjacent intervals.
* `cover lo hi l`: the set the list denotes.
* `separated_append_cons`, `cover_append_cons`: how both read at one interval of the list; every
  update of a list at one place goes through them.
* `Separated.isLeast_cover_cons`: the first end point is the least element covered.
* `Apart lo hi l`: the list is sorted and disjoint, but intervals may be adjacent.
-/

namespace CocInside.Lib

variable {ι : Type*} (lo hi : ι → ℕ)

/-- Non-empty intervals, each ending at least two below the start of every later one. -/
structure Separated (l : List ι) : Prop where
  le : ∀ i ∈ l, lo i ≤ hi i
  gap : l.Pairwise fun i j => hi i + 1 < lo j

/-- The set of points in one of the intervals. -/
def cover (l : List ι) : Set ℕ := {x | ∃ i ∈ l, lo i ≤ x ∧ x ≤ hi i}

variable {lo hi}

/-- Membership in the set a list denotes. -/
lemma mem_cover {l : List ι} {x : ℕ} : x ∈ cover lo hi l ↔ ∃ i ∈ l, lo i ≤ x ∧ x ≤ hi i := Iff.rfl

/-- The empty list of intervals covers nothing. -/
@[simp] lemma cover_nil : cover lo hi ([] : List ι) = ∅ := by
  ext x
  simp [cover]

/-- A list of intervals covers what its first does, or the others. -/
@[simp] lemma mem_cover_cons {i : ι} {l : List ι} {x : ℕ} :
    x ∈ cover lo hi (i :: l) ↔ (lo i ≤ x ∧ x ≤ hi i) ∨ x ∈ cover lo hi l := by
  simp [cover]

/-- Two lists of intervals cover what either does. -/
@[simp] lemma mem_cover_append {l m : List ι} {x : ℕ} :
    x ∈ cover lo hi (l ++ m) ↔ x ∈ cover lo hi l ∨ x ∈ cover lo hi m := by
  simp only [mem_cover, List.mem_append]
  constructor
  · rintro ⟨i, hl | hm, hx⟩
    · exact .inl ⟨i, hl, hx⟩
    · exact .inr ⟨i, hm, hx⟩
  · rintro (⟨i, hl, hx⟩ | ⟨i, hm, hx⟩)
    · exact ⟨i, .inl hl, hx⟩
    · exact ⟨i, .inr hm, hx⟩

/-- A non-empty interval of the list has its lower end covered. -/
lemma Separated.lo_mem_cover {l : List ι} (h : Separated lo hi l) {i : ι} (hi' : i ∈ l) :
    lo i ∈ cover lo hi l :=
  ⟨i, hi', le_rfl, h.le i hi'⟩

/-- A non-empty interval of the list has its upper end covered. -/
lemma Separated.hi_mem_cover {l : List ι} (h : Separated lo hi l) {i : ι} (hi' : i ∈ l) :
    hi i ∈ cover lo hi l :=
  ⟨i, hi', h.le i hi', le_rfl⟩

/-- The empty list of intervals is separated. -/
@[simp] lemma separated_nil : Separated lo hi ([] : List ι) := ⟨by simp, List.Pairwise.nil⟩

/-- Separation, read at the first interval. -/
lemma separated_cons {i : ι} {l : List ι} :
    Separated lo hi (i :: l) ↔
      lo i ≤ hi i ∧ (∀ j ∈ l, hi i + 1 < lo j) ∧ Separated lo hi l := by
  constructor
  · rintro ⟨hle, hgap⟩
    rw [List.pairwise_cons] at hgap
    exact ⟨hle i List.mem_cons_self, hgap.1, fun j hj => hle j (List.mem_cons_of_mem _ hj), hgap.2⟩
  · rintro ⟨hi', hj, hle, hgap⟩
    refine ⟨?_, List.pairwise_cons.mpr ⟨hj, hgap⟩⟩
    intro k hk
    rcases List.mem_cons.mp hk with rfl | hk
    · exact hi'
    · exact hle k hk

/-- Separation, read where two lists meet. -/
lemma separated_append {l m : List ι} :
    Separated lo hi (l ++ m) ↔
      Separated lo hi l ∧ Separated lo hi m ∧ ∀ i ∈ l, ∀ j ∈ m, hi i + 1 < lo j := by
  constructor
  · rintro ⟨hle, hgap⟩
    rw [List.pairwise_append] at hgap
    exact ⟨⟨fun i hi' => hle i (List.mem_append_left _ hi'), hgap.1⟩,
      ⟨fun i hi' => hle i (List.mem_append_right _ hi'), hgap.2.1⟩, hgap.2.2⟩
  · rintro ⟨⟨hl, gl⟩, ⟨hm, gm⟩, hgap⟩
    refine ⟨?_, List.pairwise_append.mpr ⟨gl, gm, hgap⟩⟩
    intro i hi'
    rcases List.mem_append.mp hi' with hi' | hi'
    · exact hl i hi'
    · exact hm i hi'

/-- **The place of one interval**: a list with `i` in it is separated exactly when both sides
are, `i` is not empty, and there is a gap from the left side to `i`, from `i` to the right side
and from the left side to the right side. -/
lemma separated_append_cons {l m : List ι} {i : ι} :
    Separated lo hi (l ++ i :: m) ↔
      Separated lo hi l ∧ Separated lo hi m ∧ lo i ≤ hi i ∧ (∀ j ∈ l, hi j + 1 < lo i) ∧
        (∀ j ∈ m, hi i + 1 < lo j) ∧ ∀ j ∈ l, ∀ k ∈ m, hi j + 1 < lo k := by
  rw [separated_append, separated_cons]
  constructor
  · rintro ⟨hl, ⟨hi', him, hm⟩, hlm⟩
    exact ⟨hl, hm, hi', fun j hj => hlm j hj i List.mem_cons_self, him,
      fun j hj k hk => hlm j hj k (List.mem_cons_of_mem _ hk)⟩
  · rintro ⟨hl, hm, hi', hli, him, hlm⟩
    refine ⟨hl, ⟨hi', him, hm⟩, ?_⟩
    intro j hj k hk
    rcases List.mem_cons.mp hk with rfl | hk
    · exact hli j hj
    · exact hlm j hj k hk

/-- In a separated list the lower ends increase. -/
lemma Separated.pairwise_lo {l : List ι} (h : Separated lo hi l) :
    l.Pairwise fun i j => lo i < lo j := by
  refine h.gap.imp_of_mem fun {i j} hi' _ hij => ?_
  have := h.le i hi'
  omega

/-- The first lower end is the least point covered. -/
lemma Separated.isLeast_cover_cons {i : ι} {l : List ι} (h : Separated lo hi (i :: l)) :
    IsLeast (cover lo hi (i :: l)) (lo i) := by
  refine ⟨h.lo_mem_cover List.mem_cons_self, ?_⟩
  intro x hx
  obtain ⟨hle, hgap, -⟩ := separated_cons.mp h
  rcases mem_cover_cons.mp hx with hx | ⟨j, hj, hx⟩
  · exact hx.1
  · have := hgap j hj
    omega

/-- A sorted list cut at a bound: everything before the cut starts at or below it, everything
after starts above it. -/
lemma Separated.lt_of_mem_dropWhile {l : List ι} (h : Separated lo hi l) {x : ℕ} {j : ι}
    (hj : j ∈ l.dropWhile fun i => decide (lo i ≤ x)) : x < lo j := by
  have hsorted := h.pairwise_lo
  clear h
  induction l with
  | nil => simp at hj
  | cons i l ih =>
      rw [List.pairwise_cons] at hsorted
      by_cases hx : lo i ≤ x
      · rw [List.dropWhile_cons_of_pos (by simpa using hx)] at hj
        exact ih hj hsorted.2
      · rw [List.dropWhile_cons_of_neg (by simpa using hx)] at hj
        rcases List.mem_cons.mp hj with rfl | hj
        · omega
        · have := hsorted.1 j hj
          omega

/-- Non-empty intervals, each ending below the start of every later one. -/
structure Apart (lo hi : ι → ℕ) (l : List ι) : Prop where
  le : ∀ i ∈ l, lo i ≤ hi i
  lt : l.Pairwise fun i j => hi i < lo j

/-- Intervals with gaps between them are disjoint. -/
lemma Separated.apart {l : List ι} (h : Separated lo hi l) : Apart lo hi l :=
  ⟨h.le, h.gap.imp fun hij => Nat.lt_of_succ_lt hij⟩

/-- Two intervals of a disjoint list are one, or lie on two sides of a point. -/
lemma Apart.eq_or_lt {l : List ι} (h : Apart lo hi l) {i j : ι} (hi' : i ∈ l) (hj : j ∈ l) :
    i = j ∨ hi i < lo j ∨ hi j < lo i := by
  by_cases hij : i = j
  · exact .inl hij
  · have hsides : l.Pairwise fun i j => hi i < lo j ∨ hi j < lo i := h.lt.imp .inl
    have : Std.Symm fun i j => hi i < lo j ∨ hi j < lo i := ⟨fun _ _ => Or.symm⟩
    exact .inr (hsides.forall hi' hj hij)

end CocInside.Lib
