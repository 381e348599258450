import CocInside.Lib.Intervals
import CocInside.Lib.Runs
import Mathlib.Data.Finset.Basic
import Mathlib.Data.List.TakeWhile
import Mathlib.Order.Interval.Finset.Nat

/-!
# `System::UniqueID`: allocating and freeing identifiers

`System/UniqueID.h` keeps the largest identifier ever issued and a `std::set` of free intervals
ordered by their lower ends. `next` takes the smallest free identifier, or a new one; `addFree`
returns an interval, merging it with the interval on its left, on its right, with both or with
neither by changing the keys of the set in place.

* `FreeID`, `UniqueID`, `next`, `addFree`: the code, for an unsigned identifier type of `w` bits.
* `Pool`, `machine`: runs of `next` and of `addFree` on identifiers that are all outstanding.
* `PoolInv`: the free intervals are separated in the sense of `CocInside.Lib.Intervals` and cover
  exactly the identifiers issued once and not outstanding now.
* `machine_allocation`: the invariant holds in every reachable state, and what `next` returns.
-/

namespace CocInside.System

open CocInside.Lib

/-! ## The code -/

/-- An interval of free identifiers; the order of the set looks at `_min` only.
Source: `System/UniqueID.h`, `UniqueID::FreeID` -/
structure FreeID where
  min : ℕ
  max : ℕ
  deriving DecidableEq, Repr

/-- The state of a `UniqueID<T>`: the set is the list of its elements in order.
Source: `System/UniqueID.h`, the private members of `UniqueID` -/
structure UniqueID where
  maxId : ℕ
  freeId : List FreeID
  deriving DecidableEq, Repr

namespace UniqueID

/-- The constructor.
Source: `System/UniqueID.h`, `UniqueID::UniqueID` -/
def empty : UniqueID := ⟨0, []⟩

/-- `++` on an unsigned `T` of `w` bits. -/
def incr (w x : ℕ) : ℕ := (x + 1) % 2 ^ w

/-- The value of the expression `x + 1`: computed in `int` when `T` is narrower than `int`, in `T`
otherwise. -/
def plusOne (w x : ℕ) : ℕ := if w < 32 then x + 1 else (x + 1) % 2 ^ w

/-- `next()`.
Source: `System/UniqueID.h`, `UniqueID::next` -/
def next (w : ℕ) (u : UniqueID) : ℕ × UniqueID :=
  match u.freeId with
  | [] => (incr w u.maxId, { u with maxId := incr w u.maxId })
  | it :: rest =>
      (it.min,
        { u with freeId :=
            if it.min = it.max then rest else { it with min := incr w it.min } :: rest })

/-- `std::set::insert`: nothing happens if an element with the same key is there already. -/
def insert (s : List FreeID) (fid : FreeID) : List FreeID :=
  if s.any fun f => f.min == fid.min then s
  else (s.takeWhile fun f => f.min < fid.min) ++ fid :: s.dropWhile fun f => f.min < fid.min

/-- The elements before `upper_bound` of a key: those with `_min` at most the key. -/
def before (s : List FreeID) (key : ℕ) : List FreeID := s.takeWhile fun f => f.min ≤ key

/-- The elements from `upper_bound` of a key on. -/
def upperBound (s : List FreeID) (key : ℕ) : List FreeID := s.dropWhile fun f => f.min ≤ key

/-- The set after `addFree(lId, hId)`. The iterator `it` of the source is the head of
`upperBound`, `begin()` is reached when nothing is before it and `-- it` is the last element
before it.
Source: `System/UniqueID.h`, `UniqueID::addFree` -/
def addFreeSet (w : ℕ) (s : List FreeID) (lId hId : ℕ) : List FreeID :=
  let pre := before s lId
  match pre.getLast?, upperBound s lId with
  | none, [] => insert s ⟨lId, hId⟩
  | none, it :: rest =>
      if plusOne w hId ≥ it.min then { it with min := lId } :: rest
      else insert s ⟨lId, hId⟩
  | some prev, [] =>
      if plusOne w prev.max ≥ lId then pre.dropLast ++ [{ prev with max := hId }]
      else insert s ⟨lId, hId⟩
  | some prev, it :: rest =>
      if plusOne w hId ≥ it.min then
        if plusOne w prev.max ≥ lId then
          -- both neighbours: the left one takes over the end of the right one, which is erased
          pre.dropLast ++ { prev with max := it.max } :: rest
        else pre ++ { it with min := lId } :: rest
      else if plusOne w prev.max ≥ lId then pre.dropLast ++ { prev with max := hId } :: it :: rest
      else insert s ⟨lId, hId⟩

/-- `addFree(lId, hId)`. -/
def addFree (w : ℕ) (u : UniqueID) (lId hId : ℕ) : UniqueID :=
  { u with freeId := addFreeSet w u.freeId lId hId }

end UniqueID

/-! ## Runs -/

/-- An allocator with the set of identifiers issued by `next` and not freed since. -/
structure Pool where
  ids : UniqueID
  outstanding : Finset ℕ

/-- A call on the allocator. -/
inductive Call where
  | next
  | addFree (l h : ℕ)

/-- One call. `next` is refused only where `_maxId` would wrap; `addFree` is refused unless the
interval is non-empty and all of it is outstanding. -/
def Pool.step (w : ℕ) (p : Pool) : Call → Option Pool
  | .next =>
      if p.ids.freeId = [] ∧ 2 ^ w ≤ p.ids.maxId + 1 then none
      else some ⟨(p.ids.next w).2, Insert.insert (p.ids.next w).1 p.outstanding⟩
  | .addFree l h =>
      if l ≤ h ∧ Finset.Icc l h ⊆ p.outstanding then
        some ⟨p.ids.addFree w l h, p.outstanding \ Finset.Icc l h⟩
      else none

/-- The allocator as a machine, from the empty one. -/
def allocator (w : ℕ) : Machine Pool Call where
  init := ⟨.empty, ∅⟩
  step := Pool.step w

/-! ## `addFree` on intervals it does not hold -/

section addFree

open UniqueID

variable {w : ℕ} {s : List FreeID} {l h : ℕ}

/-- `x + 1` of a value of the type wraps to `0` at the largest one, and only where `T` is as wide as
`int`. -/
lemma plusOne_eq {x : ℕ} (hx : x < 2 ^ w) :
    plusOne w x = if x + 1 = 2 ^ w ∧ 32 ≤ w then 0 else x + 1 := by
  unfold plusOne
  by_cases hw : w < 32
  · rw [if_pos hw, if_neg (by omega)]
  · rw [if_neg hw]
    by_cases hlast : x + 1 = 2 ^ w
    · rw [if_pos ⟨hlast, by omega⟩, hlast, Nat.mod_self]
    · rw [if_neg (by omega), Nat.mod_eq_of_lt (by omega)]

/-- No wrap below the largest value. -/
lemma plusOne_of_lt {x : ℕ} (hx : x + 1 < 2 ^ w) : plusOne w x = x + 1 := by
  rw [plusOne_eq (by omega), if_neg (by omega)]

/-- The set is cut in two at `upper_bound`. -/
lemma before_append_upperBound (s : List FreeID) (key : ℕ) :
    before s key ++ upperBound s key = s :=
  List.takeWhile_append_dropWhile

/-- An element of the set is on one side of `upper_bound`. -/
lemma mem_before_or_upperBound {f : FreeID} (hf : f ∈ s) (key : ℕ) :
    f ∈ before s key ∨ f ∈ upperBound s key := by
  rwa [← List.mem_append, before_append_upperBound]

/-- What is before `upper_bound` is in the set. -/
lemma mem_of_mem_before {f : FreeID} (hf : f ∈ before s l) : f ∈ s :=
  (List.takeWhile_sublist _).subset hf

/-- What is from `upper_bound` on is in the set. -/
lemma mem_of_mem_upperBound {f : FreeID} (hf : f ∈ upperBound s l) : f ∈ s :=
  (List.dropWhile_sublist _).subset hf

/-- What is before `upper_bound` begins at the key or below it. -/
lemma min_le_of_mem_before {f : FreeID} (hf : f ∈ before s l) : f.min ≤ l := by
  simpa using List.mem_takeWhile_imp hf

/-- What it means for an interval to be outside the free set. -/
def Outside (s : List FreeID) (l h : ℕ) : Prop :=
  ∀ x, l ≤ x → x ≤ h → x ∉ cover FreeID.min FreeID.max s

/-- The set after `addFree`, by which of the two neighbours the tests of the code take for touching
the interval. -/
inductive Added (w : ℕ) (s : List FreeID) (l h : ℕ) : List FreeID → Prop
  | neither
      (hl : ∀ init prev, before s l = init ++ [prev] → plusOne w prev.max < l)
      (hr : ∀ it rest, upperBound s l = it :: rest → plusOne w h < it.min) :
      Added w s l h (UniqueID.insert s ⟨l, h⟩)
  | right (it : FreeID) (rest : List FreeID)
      (hl : ∀ init prev, before s l = init ++ [prev] → plusOne w prev.max < l)
      (hu : upperBound s l = it :: rest) (hr : it.min ≤ plusOne w h) :
      Added w s l h (before s l ++ { it with min := l } :: rest)
  | left (init : List FreeID) (prev : FreeID)
      (hb : before s l = init ++ [prev]) (hl : l ≤ plusOne w prev.max)
      (hr : ∀ it rest, upperBound s l = it :: rest → plusOne w h < it.min) :
      Added w s l h (init ++ { prev with max := h } :: upperBound s l)
  | both (init : List FreeID) (prev it : FreeID) (rest : List FreeID)
      (hb : before s l = init ++ [prev]) (hl : l ≤ plusOne w prev.max)
      (hu : upperBound s l = it :: rest) (hr : it.min ≤ plusOne w h) :
      Added w s l h (init ++ { prev with max := it.max } :: rest)

/-- **What `addFree` does**: one of the four updates. -/
lemma addFreeSet_added (w : ℕ) (s : List FreeID) (l h : ℕ) :
    Added w s l h (addFreeSet w s l h) := by
  rcases List.eq_nil_or_concat' (before s l) with hb | ⟨init, prev, hb⟩ <;>
    rcases hu : upperBound s l with _ | ⟨it, rest⟩
  · have hadd : addFreeSet w s l h = UniqueID.insert s ⟨l, h⟩ := by simp [addFreeSet, hb, hu]
    rw [hadd]
    exact .neither (by simp [hb]) (by simp [hu])
  · by_cases hr : it.min ≤ plusOne w h
    · have hadd : addFreeSet w s l h = before s l ++ { it with min := l } :: rest := by
        simp [addFreeSet, hb, hu, hr]
      rw [hadd]
      exact .right it rest (by simp [hb]) hu hr
    · have hadd : addFreeSet w s l h = UniqueID.insert s ⟨l, h⟩ := by
        simp [addFreeSet, hb, hu, hr]
      rw [hadd]
      exact .neither (by simp [hb]) (by simpa [hu] using hr)
  · by_cases hl : l ≤ plusOne w prev.max
    · have hadd : addFreeSet w s l h = init ++ { prev with max := h } :: upperBound s l := by
        simp [addFreeSet, hb, hu, hl]
      rw [hadd]
      exact .left init prev hb hl (by simp [hu])
    · have hadd : addFreeSet w s l h = UniqueID.insert s ⟨l, h⟩ := by
        simp [addFreeSet, hb, hu, hl]
      rw [hadd]
      exact .neither (by simpa [hb] using hl) (by simp [hu])
  · by_cases hr : it.min ≤ plusOne w h <;> by_cases hl : l ≤ plusOne w prev.max
    · have hadd : addFreeSet w s l h = init ++ { prev with max := it.max } :: rest := by
        simp [addFreeSet, hb, hu, hr, hl]
      rw [hadd]
      exact .both init prev it rest hb hl hu hr
    · have hadd : addFreeSet w s l h = before s l ++ { it with min := l } :: rest := by
        simp [addFreeSet, hb, hu, hr, hl]
      rw [hadd]
      exact .right it rest (by simpa [hb] using hl) hu hr
    · have hadd : addFreeSet w s l h = init ++ { prev with max := h } :: upperBound s l := by
        simp [addFreeSet, hb, hu, hr, hl]
      rw [hadd]
      exact .left init prev hb hl (by simpa [hu] using hr)
    · have hadd : addFreeSet w s l h = UniqueID.insert s ⟨l, h⟩ := by
        simp [addFreeSet, hb, hu, hr, hl]
      rw [hadd]
      exact .neither (by simpa [hb] using hl) (by simpa [hu] using hr)

/-- Inserting below `upper_bound` and above everything before it. -/
lemma insert_eq (hs : Separated FreeID.min FreeID.max s)
    (hlt : ∀ f ∈ before s l, f.min < l) :
    UniqueID.insert s ⟨l, h⟩ = before s l ++ ⟨l, h⟩ :: upperBound s l := by
  have hgt : ∀ f ∈ upperBound s l, l < f.min := fun f hf => hs.lt_of_mem_dropWhile hf
  have hany : (s.any fun f => f.min == l) = false := by
    simp only [List.any_eq_false, beq_iff_eq]
    intro f hf heq
    rcases mem_before_or_upperBound hf l with hf | hf
    · exact absurd (hlt f hf) (by omega)
    · exact absurd (hgt f hf) (by omega)
  have hpre : ∀ f ∈ before s l, decide (f.min < l) = true := by
    intro f hf
    simpa using hlt f hf
  have hpost : ∀ f ∈ upperBound s l, decide (f.min < l) = false := by
    intro f hf
    have := hgt f hf
    simp only [decide_eq_false_iff_not]
    omega
  have htake : (upperBound s l).takeWhile (fun f => decide (f.min < l)) = [] := by
    cases hu : upperBound s l with
    | nil => rfl
    | cons f t => exact List.takeWhile_cons_of_neg (by simp [hpost f (hu ▸ List.mem_cons_self)])
  have hdrop : (upperBound s l).dropWhile (fun f => decide (f.min < l)) = upperBound s l := by
    cases hu : upperBound s l with
    | nil => rfl
    | cons f t => exact List.dropWhile_cons_of_neg (by simp [hpost f (hu ▸ List.mem_cons_self)])
  rw [UniqueID.insert, if_neg (by simp [hany])]
  conv_lhs => rw [← before_append_upperBound s l]
  rw [List.takeWhile_append_of_pos hpre, List.dropWhile_append_of_pos hpre, htake, hdrop,
    List.append_nil]

/-- Inserting a key that is there already changes nothing. -/
lemma insert_of_mem {f : FreeID} (hf : f ∈ s) (hmin : f.min = l) :
    UniqueID.insert s ⟨l, h⟩ = s := by
  rw [UniqueID.insert, if_pos]
  simp only [List.any_eq_true, beq_iff_eq]
  exact ⟨f, hf, hmin⟩

/-- The free set extended by an interval: the list is separated and covers both. -/
def Extends (s t : List FreeID) (l h : ℕ) : Prop :=
  Separated FreeID.min FreeID.max t ∧
    ∀ x, x ∈ cover FreeID.min FreeID.max t ↔
      x ∈ cover FreeID.min FreeID.max s ∨ (l ≤ x ∧ x ≤ h)

/-- Neither neighbour touches the interval: it goes in between. -/
lemma extends_insert {pre post : List FreeID} (hs : Separated FreeID.min FreeID.max (pre ++ post))
    (hlh : l ≤ h) (hpre : ∀ f ∈ pre, f.max + 1 < l) (hpost : ∀ f ∈ post, h + 1 < f.min) :
    Extends (pre ++ post) (pre ++ ⟨l, h⟩ :: post) l h := by
  obtain ⟨h1, h2, h3⟩ := separated_append.mp hs
  refine ⟨separated_append_cons.mpr ⟨h1, h2, hlh, hpre, hpost, h3⟩, ?_⟩
  intro x
  simp only [mem_cover_append, mem_cover_cons]
  rw [or_assoc]
  exact or_congr_right or_comm

/-- The right neighbour touches the interval and reaches its end: it takes over the lower end. -/
lemma extends_right {pre rest : List FreeID} {it : FreeID}
    (hs : Separated FreeID.min FreeID.max (pre ++ it :: rest)) (hlh : l ≤ h)
    (hpre : ∀ f ∈ pre, f.max + 1 < l) (hl : l ≤ it.min) (hit : it.min ≤ h + 1) (hle : h ≤ it.max) :
    Extends (pre ++ it :: rest) (pre ++ { it with min := l } :: rest) l h := by
  obtain ⟨h1, h2, -, -, h5, h6⟩ := separated_append_cons.mp hs
  refine ⟨separated_append_cons.mpr ⟨h1, h2, hlh.trans hle, hpre, h5, h6⟩, ?_⟩
  intro x
  simp only [mem_cover_append, mem_cover_cons]
  have : (l ≤ x ∧ x ≤ it.max) ↔ (it.min ≤ x ∧ x ≤ it.max) ∨ (l ≤ x ∧ x ≤ h) := by omega
  rw [this]
  exact (or_congr_right or_right_comm).trans or_assoc.symm

/-- The left neighbour touches the interval and does not reach past it: it takes over the upper
end. -/
lemma extends_left {init post : List FreeID} {prev : FreeID}
    (hs : Separated FreeID.min FreeID.max (init ++ prev :: post)) (hlh : l ≤ h)
    (hpost : ∀ f ∈ post, h + 1 < f.min) (hl : prev.min ≤ l) (hprev : l ≤ prev.max + 1)
    (hle : prev.max ≤ h) :
    Extends (init ++ prev :: post) (init ++ { prev with max := h } :: post) l h := by
  obtain ⟨h1, h2, -, h4, -, h6⟩ := separated_append_cons.mp hs
  refine ⟨separated_append_cons.mpr ⟨h1, h2, hl.trans hlh, h4, hpost, h6⟩, ?_⟩
  intro x
  simp only [mem_cover_append, mem_cover_cons]
  have : (prev.min ≤ x ∧ x ≤ h) ↔ (prev.min ≤ x ∧ x ≤ prev.max) ∨ (l ≤ x ∧ x ≤ h) := by omega
  rw [this]
  exact (or_congr_right or_right_comm).trans or_assoc.symm

/-- Both neighbours touch the interval and the right one reaches its end: the left one takes over
the end of the right one. -/
lemma extends_both {init rest : List FreeID} {prev it : FreeID}
    (hs : Separated FreeID.min FreeID.max (init ++ prev :: it :: rest))
    (hl : prev.min ≤ l) (hprev : l ≤ prev.max + 1) (hit : it.min ≤ h + 1) (hle : h ≤ it.max) :
    Extends (init ++ prev :: it :: rest) (init ++ { prev with max := it.max } :: rest) l h := by
  obtain ⟨h1, h2, hne, h4, hpost, h6⟩ := separated_append_cons.mp hs
  obtain ⟨hit', h7, h8⟩ := separated_cons.mp h2
  have hgap := hpost it List.mem_cons_self
  refine ⟨separated_append_cons.mpr ⟨h1, h8, ?_, h4, h7,
    fun j hj k hk => h6 j hj k (List.mem_cons_of_mem _ hk)⟩, fun x => ?_⟩
  · show prev.min ≤ it.max
    omega
  · simp only [mem_cover_append, mem_cover_cons]
    have : (prev.min ≤ x ∧ x ≤ it.max) ↔
        (prev.min ≤ x ∧ x ≤ prev.max) ∨ (it.min ≤ x ∧ x ≤ it.max) ∨ (l ≤ x ∧ x ≤ h) := by omega
    rw [this]
    simp only [or_assoc]
    rw [or_comm (a := l ≤ x ∧ x ≤ h)]

/-- The set cut around the last interval before `upper_bound`. -/
lemma eq_append_of_before {init : List FreeID} {prev : FreeID} (hb : before s l = init ++ [prev]) :
    s = init ++ prev :: upperBound s l := by
  conv_lhs => rw [← before_append_upperBound s l, hb, List.append_assoc]
  rfl

/-- The set cut around the interval at `upper_bound`. -/
lemma eq_append_of_upperBound {it : FreeID} {rest : List FreeID}
    (hu : upperBound s l = it :: rest) : s = before s l ++ it :: rest := by
  rw [← hu, before_append_upperBound]

/-- The last interval before `upper_bound` ends above all the others before it. -/
lemma eq_or_max_lt_of_mem_before (hs : Separated FreeID.min FreeID.max s) {init : List FreeID}
    {prev f : FreeID} (hb : before s l = init ++ [prev]) (hf : f ∈ before s l) :
    f = prev ∨ f.max + 1 < prev.min := by
  rw [hb] at hf
  rcases List.mem_append.mp hf with hf | hf
  · have hs' := eq_append_of_before hb ▸ hs
    obtain ⟨-, -, -, hgap, -, -⟩ := separated_append_cons.mp hs'
    exact .inr (hgap f hf)
  · exact .inl (List.mem_singleton.mp hf)

/-- The interval at `upper_bound` ends below all the others from there on. -/
lemma eq_or_max_lt_of_mem_upperBound (hs : Separated FreeID.min FreeID.max s) {it f : FreeID}
    {rest : List FreeID} (hu : upperBound s l = it :: rest) (hf : f ∈ upperBound s l) :
    f = it ∨ it.max + 1 < f.min := by
  rw [hu] at hf
  rcases List.mem_cons.mp hf with rfl | hf
  · exact .inl rfl
  · have hs' := eq_append_of_upperBound hu ▸ hs
    obtain ⟨-, -, -, -, hgap, -⟩ := separated_append_cons.mp hs'
    exact .inr (hgap f hf)

/-- A gap to the last interval before `upper_bound` is a gap to all of them. -/
lemma gap_before (hs : Separated FreeID.min FreeID.max s)
    (hlt : ∀ init prev, before s l = init ++ [prev] → prev.max + 1 < l) :
    ∀ f ∈ before s l, f.max + 1 < l := by
  intro f hf
  rcases List.eq_nil_or_concat' (before s l) with hb | ⟨init, prev, hb⟩
  · simp [hb] at hf
  · have hprev := hlt init prev hb
    have hmem : prev ∈ s := mem_of_mem_before (l := l) (by simp [hb])
    have := hs.le prev hmem
    rcases eq_or_max_lt_of_mem_before hs hb hf with rfl | hf
    · exact hprev
    · omega

/-- A gap to the interval at `upper_bound` is a gap to all from there on. -/
lemma gap_upperBound (hs : Separated FreeID.min FreeID.max s)
    (hlt : ∀ it rest, upperBound s l = it :: rest → h + 1 < it.min) :
    ∀ f ∈ upperBound s l, h + 1 < f.min := by
  intro f hf
  rcases hu : upperBound s l with _ | ⟨it, rest⟩
  · simp [hu] at hf
  · have hit := hlt it rest hu
    have hmem : it ∈ s := mem_of_mem_upperBound (l := l) (by simp [hu])
    have := hs.le it hmem
    rcases eq_or_max_lt_of_mem_upperBound hs hu hf with rfl | hf
    · exact hit
    · omega

/-- The free intervals an `addFree(l, h)` can take up: none lies strictly inside `l .. h`, and none
that starts at or below `l` reaches past `h`. The one exception starts at `l` and ends at the largest
value of a type as wide as `int`: `_max + 1` wraps, and the set refuses a second interval at `l`. -/
def Mergeable (w : ℕ) (s : List FreeID) (l h : ℕ) : Prop :=
  ∀ f ∈ s, ¬(l < f.min ∧ f.max < h) ∧
    (f.min ≤ l → h < f.max → f.min = l ∧ 0 < l ∧ f.max + 1 = 2 ^ w ∧ 32 ≤ w)

/-- A last interval before `upper_bound` that the code takes for not touching: there is a gap, or
it ends at the largest value. -/
lemma gap_or_wrap {f : FreeID} (hf : f.max < 2 ^ w) (hlt : plusOne w f.max < l) :
    f.max + 1 < l ∨ f.max + 1 = 2 ^ w ∧ 32 ≤ w ∧ 0 < l := by
  rw [plusOne_eq hf] at hlt
  split_ifs at hlt with hwrap
  · exact .inr ⟨hwrap.1, hwrap.2, hlt⟩
  · exact .inl hlt

/-- The value of `x + 1` is at most this number, also when it wraps. -/
lemma plusOne_le (w x : ℕ) : plusOne w x ≤ x + 1 := by
  unfold plusOne
  split_ifs
  · exact le_rfl
  · exact Nat.mod_le _ _

/-- A separated free set of values of the type, and an interval that ends below the largest value
wherever it can meet the set. -/
structure Freeable (w : ℕ) (s : List FreeID) (l h : ℕ) : Prop where
  separated : Separated FreeID.min FreeID.max s
  le : l ≤ h
  lt : l < 2 ^ w
  max_lt : ∀ f ∈ s, f.max < 2 ^ w
  below : ∀ f ∈ s, l ≤ f.max → h + 1 < 2 ^ w

namespace Freeable

variable {t init rest : List FreeID} {prev it : FreeID}

/-- The last interval before `upper_bound`. -/
lemma prev_spec (hb : before s l = init ++ [prev]) : prev ∈ s ∧ prev.min ≤ l := by
  have hmem : prev ∈ before s l := by simp [hb]
  exact ⟨mem_of_mem_before hmem, min_le_of_mem_before hmem⟩

/-- The interval at `upper_bound`; where there is one, `hId + 1` does not wrap. -/
lemma it_spec (hf : Freeable w s l h) (hu : upperBound s l = it :: rest) :
    it ∈ s ∧ l < it.min ∧ plusOne w h = h + 1 := by
  have hmem : it ∈ upperBound s l := by simp [hu]
  have hit := mem_of_mem_upperBound hmem
  have hlt : l < it.min := hf.separated.lt_of_mem_dropWhile hmem
  have := hf.separated.le it hit
  exact ⟨hit, hlt, plusOne_of_lt (hf.below it hit (by omega))⟩

/-- The right neighbour does not touch: there is a gap to everything from `upper_bound` on. -/
lemma gap_right (hf : Freeable w s l h)
    (hr : ∀ it rest, upperBound s l = it :: rest → plusOne w h < it.min) :
    ∀ f ∈ upperBound s l, h + 1 < f.min := by
  refine gap_upperBound hf.separated fun it rest hu => ?_
  rw [← (hf.it_spec hu).2.2]
  exact hr it rest hu

/-- Neither neighbour touches. -/
lemma extends_neither (hf : Freeable w s l h) (hm : Mergeable w s l h)
    (hl : ∀ init prev, before s l = init ++ [prev] → plusOne w prev.max < l)
    (hr : ∀ it rest, upperBound s l = it :: rest → plusOne w h < it.min) :
    Extends s (UniqueID.insert s ⟨l, h⟩) l h := by
  by_cases hgap : ∀ init prev, before s l = init ++ [prev] → prev.max + 1 < l
  · have hpre := gap_before hf.separated hgap
    have hlt : ∀ f ∈ before s l, f.min < l := by
      intro f hfb
      have := hpre f hfb
      have := hf.separated.le f (mem_of_mem_before hfb)
      omega
    have hs' := before_append_upperBound s l ▸ hf.separated
    have hext := extends_insert hs' hf.le hpre (hf.gap_right hr)
    rwa [before_append_upperBound, ← insert_eq hf.separated hlt] at hext
  · -- the set is left as it was: it covers the interval already
    push Not at hgap
    obtain ⟨init, prev, hb, hle⟩ := hgap
    obtain ⟨hprev, hmin⟩ := prev_spec hb
    have hlast : prev.max + 1 = 2 ^ w := by
      rcases gap_or_wrap (hf.max_lt prev hprev) (hl init prev hb) with hgap | ⟨hlast, -⟩
      · omega
      · exact hlast
    have hl' := hf.lt
    have hbelow := hf.below prev hprev (by omega)
    obtain ⟨heq, -⟩ := (hm prev hprev).2 hmin (by omega)
    rw [insert_of_mem hprev heq]
    refine ⟨hf.separated, fun x => ⟨.inl, ?_⟩⟩
    rintro (hx | hx)
    · exact hx
    · exact ⟨prev, hprev, by omega, by omega⟩

/-- Only the right neighbour touches. -/
lemma extends_right_only (hf : Freeable w s l h) (hm : Mergeable w s l h)
    (hl : ∀ init prev, before s l = init ++ [prev] → plusOne w prev.max < l)
    (hu : upperBound s l = it :: rest) (hr : it.min ≤ plusOne w h) :
    Extends s (before s l ++ { it with min := l } :: rest) l h := by
  obtain ⟨hit, hlt, hplus⟩ := hf.it_spec hu
  have hs' := eq_append_of_upperBound hu ▸ hf.separated
  obtain ⟨-, -, hle, hgap, -, -⟩ := separated_append_cons.mp hs'
  have hpre := gap_before hf.separated fun init prev hb => by
    obtain ⟨hprev, -⟩ := prev_spec hb
    rcases gap_or_wrap (hf.max_lt prev hprev) (hl init prev hb) with h' | ⟨hlast, -⟩
    · exact h'
    · have := hgap prev (by simp [hb])
      have := hf.max_lt it hit
      omega
  have hreach := (hm it hit).1
  have hext := extends_right hs' hf.le hpre hlt.le (by omega) (by omega)
  rwa [← eq_append_of_upperBound hu] at hext

/-- Only the left neighbour touches. -/
lemma extends_left_only (hf : Freeable w s l h) (hm : Mergeable w s l h)
    (hb : before s l = init ++ [prev]) (hl : l ≤ plusOne w prev.max)
    (hr : ∀ it rest, upperBound s l = it :: rest → plusOne w h < it.min) :
    Extends s (init ++ { prev with max := h } :: upperBound s l) l h := by
  obtain ⟨hprev, hmin⟩ := prev_spec hb
  have hle : prev.max ≤ h := by
    by_contra hgt
    obtain ⟨-, hl0, hlast, hw⟩ := (hm prev hprev).2 hmin (by omega)
    rw [plusOne_eq (hf.max_lt prev hprev), if_pos ⟨hlast, hw⟩] at hl
    omega
  have hplus := plusOne_le w prev.max
  have hs' := eq_append_of_before hb
  have hext := extends_left (hs' ▸ hf.separated) hf.le (hf.gap_right hr) hmin (by omega) hle
  rwa [← hs'] at hext

/-- Both neighbours touch. -/
lemma extends_both_sides (hf : Freeable w s l h) (hm : Mergeable w s l h)
    (hb : before s l = init ++ [prev]) (hl : l ≤ plusOne w prev.max)
    (hu : upperBound s l = it :: rest) (hr : it.min ≤ plusOne w h) :
    Extends s (init ++ { prev with max := it.max } :: rest) l h := by
  obtain ⟨-, hmin⟩ := prev_spec hb
  obtain ⟨hit, hlt, hplus⟩ := hf.it_spec hu
  have hplus' := plusOne_le w prev.max
  have hreach := (hm it hit).1
  have hs' := eq_append_of_before hb
  rw [hu] at hs'
  have hext := extends_both (hs' ▸ hf.separated) hmin (by omega) (by omega) (h := h) (by omega)
  rwa [← hs'] at hext

end Freeable

/-- **`addFree` extends the free set** by an interval whose overlaps are all mergeable. -/
lemma addFreeSet_extends_of_mergeable (hf : Freeable w s l h) (hm : Mergeable w s l h) :
    Extends s (addFreeSet w s l h) l h := by
  have hadd := addFreeSet_added w s l h
  generalize addFreeSet w s l h = t at hadd ⊢
  cases hadd with
  | neither hl hr => exact hf.extends_neither hm hl hr
  | right it rest hl hu hr => exact hf.extends_right_only hm hl hu hr
  | left init prev hb hl hr => exact hf.extends_left_only hm hb hl hr
  | both init prev it rest hb hl hu hr => exact hf.extends_both_sides hm hb hl hu hr

/-- `addFree` extends the free set by an interval that is outside it. -/
lemma addFreeSet_extends (hs : Separated FreeID.min FreeID.max s) (hlh : l ≤ h)
    (hout : Outside s l h) (hl : l < 2 ^ w) (hmax : ∀ f ∈ s, f.max < 2 ^ w) :
    Extends s (addFreeSet w s l h) l h := by
  have hapart : ∀ f ∈ s, f.max < l ∨ h < f.min := by
    intro f hf
    by_contra hmeet
    have hle := hs.le f hf
    rcases le_total f.min l with hfl | hlf
    · exact hout l le_rfl hlh ⟨f, hf, hfl, by omega⟩
    · exact hout f.min hlf (by omega) ⟨f, hf, le_rfl, hle⟩
  refine addFreeSet_extends_of_mergeable ⟨hs, hlh, hl, hmax, ?_⟩ ?_
  · intro f hf hlf
    have := hapart f hf
    have := hs.le f hf
    have := hmax f hf
    omega
  · intro f hf
    have := hapart f hf
    have := hs.le f hf
    constructor <;> omega

end addFree

/-! ## The invariant along runs -/

/-- The invariant of an allocator: the free intervals are separated, lie in `1 .. _maxId` and
cover exactly the identifiers of that range that are not outstanding. -/
structure PoolInv (w : ℕ) (p : Pool) : Prop where
  separated : Separated FreeID.min FreeID.max p.ids.freeId
  range : ∀ f ∈ p.ids.freeId, 1 ≤ f.min ∧ f.max ≤ p.ids.maxId
  exact : ∀ x, x ∈ cover FreeID.min FreeID.max p.ids.freeId ↔
    1 ≤ x ∧ x ≤ p.ids.maxId ∧ x ∉ p.outstanding
  issued : ∀ x ∈ p.outstanding, 1 ≤ x ∧ x ≤ p.ids.maxId
  no_wrap : p.ids.maxId < 2 ^ w

/-- The range of the intervals follows from what they cover. -/
lemma range_of_exact {s : List FreeID} (hs : Separated FreeID.min FreeID.max s) {m : ℕ}
    (hcover : ∀ x ∈ cover FreeID.min FreeID.max s, 1 ≤ x ∧ x ≤ m) :
    ∀ f ∈ s, 1 ≤ f.min ∧ f.max ≤ m := fun _ hf =>
  ⟨(hcover _ (hs.lo_mem_cover hf)).1, (hcover _ (hs.hi_mem_cover hf)).2⟩

/-- The identifiers that were issued once and are not outstanding. -/
def Pool.free (p : Pool) : Set ℕ := {x | 1 ≤ x ∧ x ≤ p.ids.maxId ∧ x ∉ p.outstanding}

/-- The intervals that `next` leaves: separated, and without the identifier that is issued. -/
lemma UniqueID.next_freeId {w : ℕ} {u : UniqueID} {it : FreeID} {rest : List FreeID}
    (hf : u.freeId = it :: rest) (hsep : Separated FreeID.min FreeID.max (it :: rest))
    (hmax : it.max < 2 ^ w) :
    Separated FreeID.min FreeID.max (u.next w).2.freeId ∧
      ∀ x, x ∈ cover FreeID.min FreeID.max (u.next w).2.freeId ↔
        x ∈ cover FreeID.min FreeID.max (it :: rest) ∧ x ≠ it.min := by
  obtain ⟨hle, hgap, hrest⟩ := separated_cons.mp hsep
  have hnotrest : it.min ∉ cover FreeID.min FreeID.max rest := by
    rintro ⟨j, hj, hx⟩
    have := hgap j hj
    omega
  by_cases heq : it.min = it.max
  · have hnext : (u.next w).2.freeId = rest := by simp [UniqueID.next, hf, heq]
    rw [hnext]
    refine ⟨hrest, ?_⟩
    intro x
    rw [mem_cover_cons]
    constructor
    · intro hx
      exact ⟨.inr hx, fun hxe => hnotrest (hxe ▸ hx)⟩
    · rintro ⟨hx | hx, hne⟩
      · omega
      · exact hx
  · have hi : UniqueID.incr w it.min = it.min + 1 := Nat.mod_eq_of_lt (by omega)
    have hnext : (u.next w).2.freeId = { it with min := it.min + 1 } :: rest := by
      simp [UniqueID.next, hf, heq, hi]
    rw [hnext]
    refine ⟨separated_cons.mpr ⟨?_, hgap, hrest⟩, ?_⟩
    · show it.min + 1 ≤ it.max
      omega
    · intro x
      simp only [mem_cover_cons]
      constructor
      · rintro (hx | hx)
        · exact ⟨.inl (by omega), by omega⟩
        · exact ⟨.inr hx, fun hxe => hnotrest (hxe ▸ hx)⟩
      · rintro ⟨hx | hx, hne⟩
        · exact .inl (by omega)
        · exact .inr hx

/-- What `next` returns, and the intervals it leaves, when there is a free identifier. -/
lemma PoolInv.next_of_cons {w : ℕ} {p : Pool} (hp : PoolInv w p) {it : FreeID}
    {rest : List FreeID} (hf : p.ids.freeId = it :: rest) :
    IsLeast p.free (p.ids.next w).1 ∧
      PoolInv w ⟨(p.ids.next w).2, Insert.insert (p.ids.next w).1 p.outstanding⟩ := by
  have hsep := hf ▸ hp.separated
  have hcov : ∀ x, x ∈ cover FreeID.min FreeID.max (it :: rest) ↔
      1 ≤ x ∧ x ≤ p.ids.maxId ∧ x ∉ p.outstanding := hf ▸ hp.exact
  have hfree : p.free = cover FreeID.min FreeID.max (it :: rest) := Set.ext fun x => (hcov x).symm
  have hit := (hcov it.min).mp (hsep.lo_mem_cover List.mem_cons_self)
  have hmax := (hcov it.max).mp (hsep.hi_mem_cover List.mem_cons_self)
  have hleft := UniqueID.next_freeId hf hsep (hmax.2.1.trans_lt hp.no_wrap)
  have hid : (p.ids.next w).1 = it.min := by simp [UniqueID.next, hf]
  have hmaxId : (p.ids.next w).2.maxId = p.ids.maxId := by simp [UniqueID.next, hf]
  rw [hid, hfree]
  have hexact : ∀ x, x ∈ cover FreeID.min FreeID.max (p.ids.next w).2.freeId ↔
      1 ≤ x ∧ x ≤ p.ids.maxId ∧ x ∉ Insert.insert it.min p.outstanding := by
    intro x
    rw [hleft.2, hcov, Finset.mem_insert, not_or, and_assoc, and_assoc, and_comm (b := x ≠ it.min)]
  refine ⟨hsep.isLeast_cover_cons, hleft.1, ?_, ?_, ?_, ?_⟩
  · rw [hmaxId]
    exact range_of_exact hleft.1 fun x hx => ⟨((hexact x).mp hx).1, ((hexact x).mp hx).2.1⟩
  · rw [hmaxId]
    exact hexact
  · rw [hmaxId]
    intro x hx
    rcases Finset.mem_insert.mp hx with rfl | hx
    · exact ⟨hit.1, hit.2.1⟩
    · exact hp.issued x hx
  · rw [hmaxId]
    exact hp.no_wrap

/-- What `next` returns, and the state it leaves, when nothing is free. -/
lemma PoolInv.next_of_nil {w : ℕ} {p : Pool} (hp : PoolInv w p) (hf : p.ids.freeId = [])
    (hw : p.ids.maxId + 1 < 2 ^ w) :
    p.free = ∅ ∧ (p.ids.next w).1 = p.ids.maxId + 1 ∧
      PoolInv w ⟨(p.ids.next w).2, Insert.insert (p.ids.next w).1 p.outstanding⟩ := by
  have hincr : UniqueID.incr w p.ids.maxId = p.ids.maxId + 1 := Nat.mod_eq_of_lt hw
  have hnext : p.ids.next w = (p.ids.maxId + 1, ⟨p.ids.maxId + 1, []⟩) := by
    simp [UniqueID.next, hf, hincr]
  have hnone : ∀ x, ¬ (1 ≤ x ∧ x ≤ p.ids.maxId ∧ x ∉ p.outstanding) := by
    intro x hx
    have := (hp.exact x).mpr hx
    rw [hf, cover_nil] at this
    exact this
  rw [hnext]
  refine ⟨Set.eq_empty_iff_forall_notMem.mpr hnone, rfl, separated_nil, by simp, ?_, ?_,
    hw⟩
  · intro x
    simp only [cover_nil, Set.mem_empty_iff_false, false_iff, Finset.mem_insert, not_or]
    rintro ⟨h1, h2, hne, hout⟩
    exact hnone x ⟨h1, by omega, hout⟩
  · intro x hx
    show 1 ≤ x ∧ x ≤ p.ids.maxId + 1
    rcases Finset.mem_insert.mp hx with rfl | hx
    · omega
    · have := hp.issued x hx
      omega

/-- `addFree` of outstanding identifiers keeps the invariant. -/
lemma PoolInv.addFree {w : ℕ} {p : Pool} (hp : PoolInv w p) {l h : ℕ} (hlh : l ≤ h)
    (hsub : Finset.Icc l h ⊆ p.outstanding) :
    PoolInv w ⟨p.ids.addFree w l h, p.outstanding \ Finset.Icc l h⟩ := by
  have hout : Outside p.ids.freeId l h := by
    intro x hl hh hx
    exact ((hp.exact x).mp hx).2.2 (hsub (Finset.mem_Icc.mpr ⟨hl, hh⟩))
  have hiss : ∀ x, l ≤ x → x ≤ h → 1 ≤ x ∧ x ≤ p.ids.maxId := fun x hl hh =>
    hp.issued x (hsub (Finset.mem_Icc.mpr ⟨hl, hh⟩))
  have hl := hiss l le_rfl hlh
  have hno := hp.no_wrap
  obtain ⟨hsep, hcov⟩ := addFreeSet_extends (w := w) hp.separated hlh hout (by omega)
    (fun f hf => by have := hp.range f hf; omega)
  have hexact : ∀ x, x ∈ cover FreeID.min FreeID.max (UniqueID.addFreeSet w p.ids.freeId l h) ↔
      1 ≤ x ∧ x ≤ p.ids.maxId ∧ x ∉ p.outstanding \ Finset.Icc l h := by
    intro x
    rw [hcov, hp.exact, Finset.mem_sdiff, Finset.mem_Icc]
    constructor
    · rintro (⟨h1, h2, h3⟩ | hx)
      · exact ⟨h1, h2, fun hx => h3 hx.1⟩
      · exact ⟨(hiss x hx.1 hx.2).1, (hiss x hx.1 hx.2).2, fun hx' => hx'.2 hx⟩
    · rintro ⟨h1, h2, h3⟩
      by_cases hx : l ≤ x ∧ x ≤ h
      · exact .inr hx
      · exact .inl ⟨h1, h2, fun hxo => h3 ⟨hxo, hx⟩⟩
  exact ⟨hsep,
    range_of_exact hsep fun x hx => ⟨((hexact x).mp hx).1, ((hexact x).mp hx).2.1⟩, hexact,
    fun x hx => hp.issued x (Finset.mem_sdiff.mp hx).1, hno⟩

/-- **Step lemma**: every call keeps the invariant. -/
lemma PoolInv.step {w : ℕ} {p q : Pool} {c : Call} (hp : PoolInv w p)
    (hst : p.step w c = some q) : PoolInv w q := by
  cases c with
  | next =>
      simp only [Pool.step, Option.ite_none_left_eq_some, Option.some.injEq, not_and, not_le] at hst
      obtain ⟨hw, rfl⟩ := hst
      cases hf : p.ids.freeId with
      | nil => exact (hp.next_of_nil hf (hw hf)).2.2
      | cons it rest => exact (hp.next_of_cons hf).2
  | addFree l h =>
      simp only [Pool.step, Option.ite_none_right_eq_some, Option.some.injEq] at hst
      obtain ⟨⟨hlh, hsub⟩, rfl⟩ := hst
      exact hp.addFree hlh hsub

/-- **Run lemma**: the invariant holds in every reachable state. -/
lemma poolInv_of_run {w : ℕ} {cs : List Call} {p : Pool} (h : (allocator w).run cs = some p) :
    PoolInv w p := by
  refine (allocator w).run_invariant ?_ (fun p c q hp hst => hp.step hst) h
  refine ⟨separated_nil, by simp [allocator, UniqueID.empty], fun x => ?_, by simp [allocator],
    Nat.two_pow_pos w⟩
  simp only [allocator, UniqueID.empty, cover_nil, Set.mem_empty_iff_false, false_iff]
  omega

/-- **Allocation safety over whole runs.** In every reachable state the free intervals are
non-empty, sorted, disjoint and not adjacent, lie in `1 .. _maxId` and cover exactly the
identifiers of that range that are not outstanding; and `next`, wherever it does not wrap
`_maxId`, returns an identifier that is not outstanding: the least free one if there is one, and
`_maxId + 1` otherwise. -/
theorem allocator_allocation (w : ℕ) (cs : List Call) (p : Pool)
    (h : (allocator w).run cs = some p) :
    (∀ f ∈ p.ids.freeId, 1 ≤ f.min ∧ f.min ≤ f.max ∧ f.max ≤ p.ids.maxId) ∧
    (p.ids.freeId.Pairwise fun f g => f.max + 1 < g.min) ∧
    (∀ x, (∃ f ∈ p.ids.freeId, f.min ≤ x ∧ x ≤ f.max) ↔
      1 ≤ x ∧ x ≤ p.ids.maxId ∧ x ∉ p.outstanding) ∧
    (∀ q, p.step w .next = some q →
      (p.ids.next w).1 ∉ p.outstanding ∧
      ((∃ x, x ∈ p.free) → IsLeast p.free (p.ids.next w).1) ∧
      ((¬ ∃ x, x ∈ p.free) → (p.ids.next w).1 = p.ids.maxId + 1)) := by
  have hp := poolInv_of_run h
  refine ⟨fun f hf => ⟨(hp.range f hf).1, hp.separated.le f hf, (hp.range f hf).2⟩,
    hp.separated.gap, hp.exact, fun q hst => ?_⟩
  simp only [Pool.step, Option.ite_none_left_eq_some, Option.some.injEq, not_and, not_le] at hst
  cases hf : p.ids.freeId with
  | nil =>
      obtain ⟨hfree, hid, -⟩ := hp.next_of_nil hf (hst.1 hf)
      refine ⟨?_, fun ⟨x, hx⟩ => ?_, fun _ => hid⟩
      · intro hmem
        have := (hp.issued _ hmem).2
        omega
      · rw [hfree] at hx
        exact absurd hx id
  | cons it rest =>
      obtain ⟨hleast, -⟩ := hp.next_of_cons hf
      exact ⟨hleast.1.2.2, fun _ => hleast, fun hno => absurd ⟨_, hleast.1⟩ hno⟩

/-- Three identifiers issued, the outer two freed: the middle one keeps them apart, and `next`
returns 1. -/
theorem allocator_allocation_three :
    ∃ p, (allocator 32).run [.next, .next, .next, .addFree 3 3, .addFree 1 1] = some p ∧
      p.ids.freeId = [⟨1, 1⟩, ⟨3, 3⟩] ∧ (p.ids.next 32).1 = 1 ∧
      (p.ids.next 32).1 ∉ p.outstanding :=
  ⟨_, rfl, rfl, rfl, ((allocator_allocation 32
    [.next, .next, .next, .addFree 3 3, .addFree 1 1] _ rfl).2.2.2 _ rfl).1⟩

end CocInside.System
