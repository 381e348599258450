import CocInside.System.UniqueID

/-!
# `UniqueID::addFree` as a union

`addFree` compares with `>=`, so that it also takes intervals that overlap the free set, but each of
its branches writes one end of an interval over the other without comparing the two.

* `IsUnion s t l h`: the set `t` holds what `s` holds and `l .. h`, in sorted disjoint intervals.
* `addFree_union_iff`: the result of `addFree(l, h)` is a union exactly when no free interval lies
  strictly inside `l .. h` and none that starts at or below `l` reaches past `h`.

Source: `System/UniqueID.h`, `UniqueID::addFree`.
-/

namespace CocInside.System

open CocInside.Lib UniqueID

variable {w : ℕ} {s : List FreeID} {l h : ℕ}

/-- The free set `t` is `s` together with `l .. h`, in sorted and disjoint intervals. -/
def IsUnion (s t : List FreeID) (l h : ℕ) : Prop :=
  (∀ x, x ∈ cover FreeID.min FreeID.max t ↔
    x ∈ cover FreeID.min FreeID.max s ∨ (l ≤ x ∧ x ≤ h)) ∧ Apart FreeID.min FreeID.max t

/-- A point between two parts of a list of intervals is not covered. -/
lemma notMem_cover_of_between {pre rest : List FreeID} {m : FreeID} {x : ℕ}
    (hpre : ∀ f ∈ pre, f.max < x) (hm : m.max < x) (hrest : ∀ f ∈ rest, x < f.min) :
    x ∉ cover FreeID.min FreeID.max (pre ++ m :: rest) := by
  rw [mem_cover_append, mem_cover_cons]
  rintro (⟨f, hf, -, hx⟩ | ⟨-, hx⟩ | ⟨f, hf, hx, -⟩)
  · have := hpre f hf
    omega
  · omega
  · have := hrest f hf
    omega

namespace Freeable

variable {init rest : List FreeID} {prev it f : FreeID}

/-- With a gap on the right, nothing lies inside the interval. -/
lemma not_inside_of_gap (hf : Freeable w s l h)
    (hr : ∀ it rest, upperBound s l = it :: rest → plusOne w h < it.min) (hmem : f ∈ s) :
    ¬(l < f.min ∧ f.max < h) := by
  rintro ⟨hlf, hfh⟩
  have hle := hf.separated.le f hmem
  rcases mem_before_or_upperBound hmem l with hb | hu
  · have := min_le_of_mem_before hb
    omega
  · have := hf.gap_right hr f hu
    omega

/-- What starts at or below `l` and reaches past `h` is the left neighbour. -/
lemma eq_prev_of_past (hf : Freeable w s l h) (hmem : f ∈ s) (hmin : f.min ≤ l) (hpast : h < f.max) :
    ∃ init, before s l = init ++ [f] := by
  have hlh := hf.le
  have hfb : f ∈ before s l := by
    rcases mem_before_or_upperBound hmem l with hb | hu
    · exact hb
    · have : l < f.min := hf.separated.lt_of_mem_dropWhile hu
      omega
  rcases List.eq_nil_or_concat' (before s l) with hb | ⟨init, prev, hb⟩
  · simp [hb] at hfb
  · obtain ⟨-, hprev⟩ := prev_spec hb
    rcases eq_or_max_lt_of_mem_before hf.separated hb hfb with rfl | hlt
    · exact ⟨init, hb⟩
    · omega

/-- When the right neighbour touches the interval, its new form has to reach the end `h`, and
nothing on the left reaches past it. -/
lemma mergeable_of_right (hf : Freeable w s l h) {pre : List FreeID} {m : FreeID}
    (hu : upperBound s l = it :: rest) (hr : it.min ≤ plusOne w h)
    (hpre : ∀ f ∈ pre, f ∈ before s l) (hm : m.max = it.max)
    (hunion : IsUnion s (pre ++ m :: rest) l h) : Mergeable w s l h := by
  obtain ⟨hit, hlt, hplus⟩ := hf.it_spec hu
  have hs' := eq_append_of_upperBound hu ▸ hf.separated
  obtain ⟨-, -, hle, hleft, hright, -⟩ := separated_append_cons.mp hs'
  intro f hmem
  constructor
  · rintro ⟨hlf, hfh⟩
    have hmax : it.max ≤ f.max := by
      have hle' := hf.separated.le f hmem
      rcases mem_before_or_upperBound hmem l with hb | hu'
      · have := min_le_of_mem_before hb
        omega
      · rcases eq_or_max_lt_of_mem_upperBound hf.separated hu hu' with rfl | hlt'
        · exact le_rfl
        · omega
    -- the point right after `it` is in the interval and is not covered
    have hcov := (hunion.1 (it.max + 1)).mpr (.inr ⟨by omega, by omega⟩)
    refine notMem_cover_of_between ?_ (by omega) hright hcov
    intro g hg
    have := hleft g (hpre g hg)
    omega
  · intro hmin hpast
    obtain ⟨init, hb⟩ := hf.eq_prev_of_past hmem hmin hpast
    have := hleft f (by simp [hb])
    omega

/-- When only the left neighbour touches the interval, it must not reach past `h`. -/
lemma mergeable_of_left (hf : Freeable w s l h) (hb : before s l = init ++ [prev])
    (hr : ∀ it rest, upperBound s l = it :: rest → plusOne w h < it.min)
    (hunion : IsUnion s (init ++ { prev with max := h } :: upperBound s l) l h) :
    Mergeable w s l h := by
  intro f hmem
  refine ⟨hf.not_inside_of_gap hr hmem, ?_⟩
  intro hmin hpast
  obtain ⟨init', hb'⟩ := hf.eq_prev_of_past hmem hmin hpast
  obtain ⟨rfl, heq⟩ := List.append_inj' (hb.symm.trans hb') rfl
  obtain rfl := List.singleton_inj.mp heq
  have hs' := eq_append_of_before hb ▸ hf.separated
  obtain ⟨-, -, hle, hleft, hright, -⟩ := separated_append_cons.mp hs'
  -- the old end of the left neighbour was free and is lost
  have hcov := (hunion.1 prev.max).mpr (.inl (hf.separated.hi_mem_cover hmem))
  refine absurd hcov (notMem_cover_of_between ?_ hpast ?_)
  · intro g hg
    have := hleft g hg
    omega
  · intro g hg
    have := hright g hg
    omega

/-- When neither neighbour is taken for touching and one reaches past `h`, it ends at the largest
value, and the set holds it twice unless it starts at `l`. -/
lemma mergeable_of_neither (hf : Freeable w s l h)
    (hl : ∀ init prev, before s l = init ++ [prev] → plusOne w prev.max < l)
    (hr : ∀ it rest, upperBound s l = it :: rest → plusOne w h < it.min)
    (hunion : IsUnion s (UniqueID.insert s ⟨l, h⟩) l h) : Mergeable w s l h := by
  intro f hmem
  refine ⟨hf.not_inside_of_gap hr hmem, ?_⟩
  intro hmin hpast
  have hlh := hf.le
  obtain ⟨init, hb⟩ := hf.eq_prev_of_past hmem hmin hpast
  rcases gap_or_wrap (hf.max_lt f hmem) (hl init f hb) with hgap | ⟨hlast, hw, hl0⟩
  · omega
  · refine ⟨?_, hl0, hlast, hw⟩
    by_contra hne
    have hlt : ∀ g ∈ before s l, g.min < l := by
      intro g hg
      have := hf.separated.le g (mem_of_mem_before hg)
      rcases eq_or_max_lt_of_mem_before hf.separated hb hg with rfl | hg
      · omega
      · omega
    rw [insert_eq hf.separated hlt] at hunion
    have hfmem : f ∈ before s l ++ ⟨l, h⟩ :: upperBound s l := by simp [hb]
    have hnew : (⟨l, h⟩ : FreeID) ∈ before s l ++ ⟨l, h⟩ :: upperBound s l := by simp
    rcases hunion.2.eq_or_lt hfmem hnew with rfl | hsep
    · exact hne rfl
    · simp only at hsep
      omega

end Freeable

/-- **`addFree` computes a union exactly on mergeable intervals.** -/
theorem addFree_union_iff {u : UniqueID} (hs : Separated FreeID.min FreeID.max u.freeId)
    (hmax : ∀ f ∈ u.freeId, f.max < 2 ^ w) (hlh : l ≤ h) (hh : h + 1 < 2 ^ w) :
    IsUnion u.freeId (u.addFree w l h).freeId l h ↔ Mergeable w u.freeId l h := by
  have hf : Freeable w u.freeId l h := ⟨hs, hlh, by omega, hmax, fun _ _ _ => hh⟩
  constructor
  · intro hunion
    have hadd := addFreeSet_added w u.freeId l h
    unfold UniqueID.addFree at hunion
    simp only at hunion
    generalize addFreeSet w u.freeId l h = t at hadd hunion
    cases hadd with
    | neither hl hr => exact hf.mergeable_of_neither hl hr hunion
    | right it rest hl hu hr =>
        exact hf.mergeable_of_right (m := { it with min := l }) hu hr (fun _ hg => hg) rfl hunion
    | left init prev hb hl hr => exact hf.mergeable_of_left hb hr hunion
    | both init prev it rest hb hl hu hr =>
        have hinit : ∀ g ∈ init, g ∈ before u.freeId l := fun g hg => by simp [hb, hg]
        exact hf.mergeable_of_right (m := { prev with max := it.max }) hu hr hinit rfl hunion
  · intro hm
    obtain ⟨hsep, hcov⟩ := addFreeSet_extends_of_mergeable hf hm
    exact ⟨hcov, hsep.apart⟩

/-- Two intervals on both sides and one that overlaps both: a union. -/
theorem addFree_union_overlap :
    IsUnion [⟨1, 5⟩, ⟨8, 12⟩] (UniqueID.addFree 32 ⟨12, [⟨1, 5⟩, ⟨8, 12⟩]⟩ 4 9).freeId 4 9 := by
  refine (addFree_union_iff (u := ⟨12, [⟨1, 5⟩, ⟨8, 12⟩]⟩) ?_ ?_ (by decide) (by decide)).mpr ?_
  · exact ⟨by decide, by decide⟩
  · decide
  · unfold Mergeable
    decide

/-- Freeing `6 .. 7` where `5 .. 9` is free takes `8` and `9` out of the free set. -/
theorem addFree_inside_loses :
    (UniqueID.empty.addFree 32 5 9).freeId = [⟨5, 9⟩] ∧
      ¬IsUnion (UniqueID.empty.addFree 32 5 9).freeId
        ((UniqueID.empty.addFree 32 5 9).addFree 32 6 7).freeId 6 7 := by
  have h1 : (UniqueID.empty.addFree 32 5 9).freeId = [⟨5, 9⟩] := by decide
  have h2 : ((UniqueID.empty.addFree 32 5 9).addFree 32 6 7).freeId = [⟨5, 7⟩] := by decide
  refine ⟨h1, ?_⟩
  rw [h1, h2]
  rintro ⟨hcov, -⟩
  have h9 := (hcov 9).mpr (.inl ⟨⟨5, 9⟩, List.mem_singleton_self _, by decide, by decide⟩)
  obtain ⟨f, hf, -, hle⟩ := h9
  rw [List.mem_singleton.mp hf] at hle
  exact absurd hle (by decide)

end CocInside.System
