import CocInside.Lib.HeapIndex
import Mathlib.Data.Finset.Basic
import Mathlib.Data.Finset.Dedup

/-!
# The timer heap

The heap of pending timeouts: an array of events, each of which records the cell it stands in, so that
it can be taken out from anywhere.

* `MinHeap.push`, `MinHeap.pop`, `MinHeap.erase`: the operations; an access outside the array has no
  result.
* `MinHeap.WellFormed`: the invariant, and one theorem for each operation that says which events are
  in the heap after it.
* `MinHeap.run_refines`: over any calls the heap is a set of events, of which a least one is at the
  top, as long as no event is pushed that is in it.

The numbers `n` and `a` of the source are `unsigned`; here they have no bound, and the sizes of arrays
are not cut.

Source: `event/minheap-internal.h`.
-/

namespace CocInside.LibEvent

open CocInside.Lib

variable {ε κ : Type} [DecidableEq ε] [LinearOrder κ]

/-- The array, the number of events in it, and the record `min_heap_idx` of every event; the field `a`
is the length of the array. Source: `min_heap_t`. -/
structure MinHeap (ε : Type) where
  p : List ε
  n : ℕ
  minHeapIdx : ε → Option ℕ

namespace MinHeap

/-! ## The operations -/

/-- `(s->p[hole_index] = e)->ev_timeout_pos.min_heap_idx = hole_index`. Source:
`min_heap_shift_up_`, `min_heap_shift_down_`. -/
def place (s : MinHeap ε) (holeIndex : ℕ) (e : ε) : Option (MinHeap ε) :=
  if holeIndex < s.p.length then
    some { s with
      p := s.p.set holeIndex e
      minHeapIdx := Function.update s.minHeapIdx e (some holeIndex) }
  else none

variable (key : ε → κ)

/-- Source: `min_heap_elem_greater`. -/
def elemGreater (a b : ε) : Bool := key b < key a

/-- Source: `min_heap_shift_up_`. -/
def shiftUp (s : MinHeap ε) (holeIndex : ℕ) (e : ε) : Option (MinHeap ε) :=
  if h : holeIndex ≠ 0 then do
    let q ← s.p[(holeIndex - 1) / 2]?
    if elemGreater key q e then
      let s ← s.place holeIndex q
      shiftUp s ((holeIndex - 1) / 2) e
    else s.place holeIndex e
  else s.place holeIndex e
termination_by holeIndex
decreasing_by omega

/-- The child to go on with: `min_child -= min_child == n || greater(p[min_child], p[min_child - 1])`.
Source: `min_heap_shift_down_`. -/
def minChild (s : MinHeap ε) (holeIndex : ℕ) : Option ℕ :=
  let child := 2 * (holeIndex + 1)
  if child = s.n then some (child - 1)
  else do
    let a ← s.p[child]?
    let b ← s.p[child - 1]?
    if elemGreater key a b then some (child - 1) else some child

/-- For `fuel` turns of the loop. Source: `min_heap_shift_down_`. -/
def shiftDownWithin (key : ε → κ) : ℕ → MinHeap ε → ℕ → ε → Option (MinHeap ε)
  | 0, _, _, _ => none
  | fuel + 1, s, holeIndex, e =>
      if 2 * (holeIndex + 1) ≤ s.n then do
        let child ← s.minChild key holeIndex
        let q ← s.p[child]?
        if elemGreater key e q then
          let s ← s.place holeIndex q
          shiftDownWithin key fuel s child e
        else s.place holeIndex e
      else s.place holeIndex e

/-- Source: `min_heap_shift_down_`. -/
def shiftDown (s : MinHeap ε) (holeIndex : ℕ) (e : ε) : Option (MinHeap ε) :=
  shiftDownWithin key (s.n + 1) s holeIndex e

/-- Source: `min_heap_top`. -/
def top (s : MinHeap ε) : Option ε := if s.n ≠ 0 then s.p[0]? else none

/-- `mm_realloc` for an array: it may fail, and gives new cells of any content. Source:
`min_heap_reserve`, `mm_realloc`. -/
structure Realloc (ε : Type) where
  realloc : List ε → ℕ → Option (List ε)
  length_eq : ∀ {p a p'}, realloc p a = some p' → p'.length = a
  take_eq : ∀ {p a p'}, realloc p a = some p' → p.length ≤ a → p'.take p.length = p

/-- Memory that does not run out, with `z` in the new cells. -/
def Realloc.filled (z : ε) : Realloc ε where
  realloc p a := some (p.take a ++ List.replicate (a - p.length) z)
  length_eq := by
    rintro p a _ ⟨⟩
    rw [List.length_append, List.length_take, List.length_replicate]
    omega
  take_eq := by
    rintro p a _ ⟨⟩ hle
    rw [List.take_of_length_le hle, List.take_left]

/-- A place for `n` events, if there is memory. Source: `min_heap_reserve`. -/
def reserve (mem : Realloc ε) (s : MinHeap ε) (n : ℕ) : Option (MinHeap ε) :=
  if s.p.length < n then
    let a := if s.p.length ≠ 0 then s.p.length * 2 else 8
    let a := if a < n then n else a
    (mem.realloc s.p a).map fun p => { s with p := p }
  else some s

/-- `-1` if there is no memory. Source: `min_heap_push`. -/
def push (mem : Realloc ε) (s : MinHeap ε) (e : ε) : Option (ℤ × MinHeap ε) :=
  match reserve mem s (s.n + 1) with
  | none => some (-1, s)
  | some s => (shiftUp key { s with n := s.n + 1 } s.n e).map fun s => (0, s)

/-- Source: `min_heap_pop`. -/
def pop (s : MinHeap ε) : Option (Option ε × MinHeap ε) :=
  if s.n ≠ 0 then do
    let e ← s.p[0]?
    let last ← s.p[s.n - 1]?
    let s ← shiftDown key { s with n := s.n - 1 } 0 last
    some (some e, { s with minHeapIdx := Function.update s.minHeapIdx e none })
  else some (none, s)

/-- `e->ev_timeout_pos.min_heap_idx > 0 && min_heap_elem_greater(s->p[parent], last)`. Source:
`min_heap_erase`. -/
def goesUp (s : MinHeap ε) (i : ℕ) (last : ε) : Option Bool :=
  if 0 < i then (s.p[(i - 1) / 2]?).map fun q => elemGreater key q last else some false

/-- The two branches for the last event. Source: `min_heap_erase`. -/
def shift (up : Bool) (s : MinHeap ε) (i : ℕ) (last : ε) : Option (MinHeap ε) :=
  if up then shiftUp key s i last else shiftDown key s i last

/-- Source: `min_heap_erase`. -/
def erase (s : MinHeap ε) (e : ε) : Option (ℤ × MinHeap ε) :=
  match s.minHeapIdx e with
  | some i => do
      let last ← s.p[s.n - 1]?
      let s := { s with n := s.n - 1 }
      let up ← s.goesUp key i last
      let s ← shift key up s i last
      some (0, { s with minHeapIdx := Function.update s.minHeapIdx e none })
  | none => some (-1, s)

/-- A new heap, and every event initialised. Source: `min_heap_ctor`, `min_heap_elem_init`. -/
def ctor : MinHeap ε where
  p := []
  n := 0
  minHeapIdx _ := none

/-! ## Moving the hole -/

/-- The events in the heap. -/
def live (s : MinHeap ε) : List ε := s.p.take s.n

/-- The invariant: the array holds a heap, and the events in it, and no others, record their cells. -/
structure WellFormed (s : MinHeap ε) : Prop where
  n_le : s.n ≤ s.p.length
  isHeap : IsHeap key s.live
  indexed : IndexedOn (fun _ => True) s.minHeapIdx s.live

/-- What a shift leaves of the heap `s` with the events `v`. -/
structure Shifted (P : ε → Prop) (s : MinHeap ε) (v : List ε) (s' : MinHeap ε) : Prop where
  n_eq : s'.n = s.n
  length_eq : s'.p.length = s.p.length
  isHeap : IsHeap key s'.live
  perm : s'.live.Perm v
  indexed : IndexedOn P s'.minHeapIdx s'.live

variable {key} {P : ε → Prop} {s : MinHeap ε}

omit [DecidableEq ε] in
/-- The slots in use are `n`. -/
lemma length_live (h : s.n ≤ s.p.length) : s.live.length = s.n := List.length_take_of_le h

omit [DecidableEq ε] in
/-- A slot in use, in the array. -/
lemma getElem?_live {i : ℕ} (h : i < s.n) : s.live[i]? = s.p[i]? := List.getElem?_take_of_lt h

omit [DecidableEq ε] in
/-- The last event apart. -/
lemma live_eq_concat {last : ε} (hpos : 0 < s.n) (hlast : s.p[s.n - 1]? = some last) :
    s.live = ({ s with n := s.n - 1 } : MinHeap ε).live ++ [last] := by
  have hn : s.n = s.n - 1 + 1 := (Nat.sub_add_cancel hpos).symm
  show s.p.take s.n = s.p.take (s.n - 1) ++ [last]
  conv_lhs => rw [hn]
  rw [List.take_add_one, hlast, Option.toList_some]

/-- Writing a slot inside the array. -/
lemma place_eq {i : ℕ} (h : i < s.p.length) (e : ε) :
    s.place i e = some { s with
      p := s.p.set i e
      minHeapIdx := Function.update s.minHeapIdx e (some i) } :=
  if_pos h

/-- What a shift is given: the events are those of the heap but for the hole, where `e` is to be. -/
structure Shiftable (P : ε → Prop) (s : MinHeap ε) (hole : ℕ) (e : ε) : Prop where
  n_le : s.n ≤ s.p.length
  hole_lt : hole < s.n
  nodup : (s.live.set hole e).Nodup
  indexed : IndexedOn (fun x => x ≠ e ∧ P x) s.minHeapIdx (s.live.set hole e)

namespace Shiftable

variable {hole : ℕ} {e : ε}

omit [DecidableEq ε] in
/-- The event that is being placed is only where the hole is. -/
lemma hole_eq (h : Shiftable P s hole e) (i : ℕ) :
    (s.live.set hole e)[i]? = some e ↔ i = hole := by
  apply getElem?_iff_of_nodup h.nodup
  rw [List.getElem?_set_self]
  rw [length_live h.n_le]
  exact h.hole_lt

/-- The event arrives in the hole. -/
lemma place (h : Shiftable P s hole e) (hheap : IsHeap key (s.live.set hole e)) :
    ∃ s', s.place hole e = some s' ∧
      Shifted key (fun x => x = e ∨ P x) s (s.live.set hole e) s' := by
  refine ⟨_, place_eq (lt_of_lt_of_le h.hole_lt h.n_le) e, rfl, List.length_set, ?_, ?_, ?_⟩
  · rwa [live, List.take_set]
  · rw [live, List.take_set, live]
  · rw [live, List.take_set]
    exact h.indexed.place h.hole_eq

/-- Another event goes into the hole, and the hole moves to its place. -/
lemma move (h : Shiftable P s hole e) {j : ℕ} {q : ε} (hj : s.live[j]? = some q) (hne : j ≠ hole) :
    ∃ s', s.place hole q = some s' ∧ s'.n = s.n ∧ s'.p.length = s.p.length ∧
      s'.live.set j e = swap (s.live.set hole e) j hole ∧ Shiftable P s' j e := by
  have hlen := length_live h.n_le
  have hlive : (s.p.set hole q).take s.n = s.live.set hole q := List.take_set
  have hswap := swap_set (e := e) (by rw [hlen]; exact h.hole_lt) hj hne
  have hjq : (s.live.set hole e)[j]? = some q := by rw [List.getElem?_set_ne hne.symm, hj]
  have hqe : q ≠ e := by
    rintro rfl
    exact hne ((h.hole_eq j).mp hjq)
  obtain ⟨hidx, -⟩ := h.indexed.swap h.hole_eq (getElem?_iff_of_nodup h.nodup hjq) hqe
  have hjn : j < s.n := by
    rw [← hlen]
    exact (List.getElem?_eq_some_iff.mp hj).1
  refine ⟨_, place_eq (lt_of_lt_of_le h.hole_lt h.n_le) q, rfl, List.length_set, ?_, ?_, hjn, ?_, ?_⟩
  · rw [live, hlive, hswap]
  · rw [List.length_set]
    exact h.n_le
  · rw [live, hlive, ← hswap]
    exact (swap_perm _ _ _).nodup_iff.mpr h.nodup
  · rw [live, hlive, ← hswap]
    exact hidx

/-- **Shifting up** ends in a heap of the same events. -/
theorem shiftUp_spec (h : Shiftable P s hole e) (hheap : UpHeap key (s.live.set hole e) hole) :
    ∃ s', shiftUp key s hole e = some s' ∧
      Shifted key (fun x => x = e ∨ P x) s (s.live.set hole e) s' := by
  induction hole using Nat.strongRecOn generalizing s with
  | _ hole ih =>
      have hlen := length_live h.n_le
      have hself : (s.live.set hole e)[hole]? = some e := (h.hole_eq hole).mpr rfl
      rw [shiftUp]
      by_cases h0 : hole = 0
      · rw [dif_neg (not_not.mpr h0)]
        apply h.place
        apply hheap.isHeap
        rw [h0]
        exact InOrder.refl key _ 0
      · have hparent : (hole - 1) / 2 < hole := by omega
        have hlt : (hole - 1) / 2 < s.live.length := by
          rw [hlen]
          exact lt_trans hparent h.hole_lt
        have hq := List.getElem?_eq_getElem hlt
        generalize s.live[(hole - 1) / 2] = q at hq
        have hset : (s.live.set hole e)[(hole - 1) / 2]? = some q := by
          rw [List.getElem?_set_ne hparent.ne', hq]
        rw [dif_pos h0, ← getElem?_live (lt_trans hparent h.hole_lt), hq]
        simp only [Option.bind_eq_bind, Option.bind_some]
        by_cases hgreater : key e < key q
        · obtain ⟨s', hplace, hn', hp', hv', h'⟩ := h.move hq hparent.ne
          rw [if_pos (by rw [elemGreater, decide_eq_true hgreater]), hplace, Option.bind_some]
          obtain ⟨t, hshift, hshifted⟩ := ih _ hparent h' (by
            rw [hv']
            exact hheap.move hset hself hgreater)
          refine ⟨t, hshift, hshifted.n_eq.trans hn', hshifted.length_eq.trans hp', hshifted.isHeap,
            ?_, hshifted.indexed⟩
          rw [hv'] at hshifted
          exact hshifted.perm.trans (swap_perm _ _ _)
        · rw [if_neg (by rw [elemGreater, decide_eq_false hgreater]; exact Bool.false_ne_true)]
          apply h.place
          apply hheap.isHeap
          intro x y hx hy
          rw [hset] at hx
          rw [hself] at hy
          cases hx
          cases hy
          exact not_lt.mp hgreater

omit [DecidableEq ε] in
/-- The child to go on with comes before the other one, if that is there. -/
lemma minChild_spec (key : ε → κ) (h : Shiftable P s hole e) (hchild : 2 * (hole + 1) ≤ s.n) :
    ∃ c, s.minChild key hole = some c ∧ (c = 2 * hole + 1 ∨ c = 2 * hole + 2) ∧ c < s.n ∧
      ∀ d, 0 < d → (d - 1) / 2 = hole → InOrder key (s.live.set hole e) c d := by
  have hlen : (s.live.set hole e).length = s.n := by rw [List.length_set, length_live h.n_le]
  have hcase : ∀ {d}, 0 < d → (d - 1) / 2 = hole → d = 2 * hole + 1 ∨ d = 2 * hole + 2 := by
    omega
  rw [minChild]
  by_cases hlast : 2 * (hole + 1) = s.n
  · refine ⟨2 * hole + 1, ?_, .inl rfl, by omega, ?_⟩
    · rw [if_pos hlast]
      rfl
    · intro d hd hdi
      rcases hcase hd hdi with rfl | rfl
      · exact InOrder.refl key _ _
      · intro x y _ hy
        rw [List.getElem?_eq_none (by omega)] at hy
        cases hy
  · have hget : ∀ i, i < s.n → i ≠ hole → ∃ x, s.p[i]? = some x ∧
        (s.live.set hole e)[i]? = some x := by
      intro i hi hne
      have hx := List.getElem?_eq_getElem (l := s.live.set hole e) (i := i) (by omega)
      refine ⟨_, ?_, hx⟩
      rw [List.getElem?_set_ne hne.symm, getElem?_live hi] at hx
      exact hx
    obtain ⟨a, hap, ha⟩ := hget (2 * (hole + 1)) (by omega) (by omega)
    obtain ⟨b, hbp, hb⟩ := hget (2 * (hole + 1) - 1) (by omega) (by omega)
    have hright : 2 * (hole + 1) = 2 * hole + 2 := rfl
    have hleft : 2 * (hole + 1) - 1 = 2 * hole + 1 := rfl
    rw [if_neg hlast, hap, hbp]
    simp only [Option.bind_eq_bind, Option.bind_some]
    by_cases hgreater : key b < key a
    · refine ⟨2 * hole + 1, ?_, .inl rfl, by omega, ?_⟩
      · rw [if_pos (by rw [elemGreater, decide_eq_true hgreater])]
        rfl
      · intro d hd hdi
        rcases hcase hd hdi with rfl | rfl
        · exact InOrder.refl key _ _
        · intro x y hx hy
          rw [← hleft, hb] at hx
          rw [← hright, ha] at hy
          cases hx
          cases hy
          exact hgreater.le
    · refine ⟨2 * hole + 2, ?_, .inr rfl, by omega, ?_⟩
      · rw [if_neg (by rw [elemGreater, decide_eq_false hgreater]; exact Bool.false_ne_true)]
        rfl
      · intro d hd hdi
        rcases hcase hd hdi with rfl | rfl
        · intro x y hx hy
          rw [← hright, ha] at hx
          rw [← hleft, hb] at hy
          cases hx
          cases hy
          exact not_lt.mp hgreater
        · exact InOrder.refl key _ _

/-- **Shifting down** ends, in a heap of the same events. -/
theorem shiftDownWithin_spec (fuel : ℕ) (hfuel : s.n < hole + fuel) (h : Shiftable P s hole e)
    (hheap : DownHeap key (s.live.set hole e) hole) :
    ∃ s', shiftDownWithin key fuel s hole e = some s' ∧
      Shifted key (fun x => x = e ∨ P x) s (s.live.set hole e) s' := by
  induction fuel generalizing s hole with
  | zero => exact absurd h.hole_lt (by omega)
  | succ fuel ih =>
      have hlen : (s.live.set hole e).length = s.n := by rw [List.length_set, length_live h.n_le]
      have hself : (s.live.set hole e)[hole]? = some e := (h.hole_eq hole).mpr rfl
      rw [shiftDownWithin]
      by_cases hchild : 2 * (hole + 1) ≤ s.n
      · obtain ⟨c, hmin, hcase, hcn, horder⟩ := h.minChild_spec key hchild
        have hne : c ≠ hole := by omega
        obtain ⟨q, hq⟩ : ∃ q, s.live[c]? = some q := by
          refine ⟨_, List.getElem?_eq_getElem ?_⟩
          rw [length_live h.n_le]
          exact hcn
        have hset : (s.live.set hole e)[c]? = some q := by
          rw [List.getElem?_set_ne hne.symm, hq]
        have hcell : s.p[c]? = some q := by rw [← getElem?_live hcn, hq]
        simp only [if_pos hchild, hmin, Option.bind_eq_bind, Option.bind_some, hcell]
        by_cases hgreater : key q < key e
        · obtain ⟨s', hplace, hn', hp', hv', h'⟩ := h.move hq hne
          rw [if_pos (by rw [elemGreater, decide_eq_true hgreater]), hplace, Option.bind_some]
          have hmove := hheap.moveTo hcase horder hself hset hgreater
          have hswap : swap (s.live.set hole e) hole c = s'.live.set c e := by
            rw [hv', swap_comm]
          rw [hswap] at hmove
          obtain ⟨t, hshift, hshifted⟩ := ih (by rw [hn']; omega) h' hmove
          refine ⟨t, hshift, hshifted.n_eq.trans hn', hshifted.length_eq.trans hp', hshifted.isHeap,
            ?_, hshifted.indexed⟩
          rw [hv'] at hshifted
          exact hshifted.perm.trans (swap_perm _ _ _)
        · rw [if_neg (by rw [elemGreater, decide_eq_false hgreater]; exact Bool.false_ne_true)]
          apply h.place
          apply hheap.isHeap
          intro x y hx hy
          rw [hself] at hx
          cases hx
          have hfirst := firstChild_eq key (s.live.set hole e) hole
          exact (not_lt.mp hgreater).trans
            (horder _ (by omega) (by omega) _ _ hset hy)
      · rw [if_neg hchild]
        apply h.place
        apply hheap.isHeap
        intro x y _ hy
        have hfirst := firstChild_eq key (s.live.set hole e) hole
        rw [List.getElem?_eq_none (by omega)] at hy
        cases hy

end Shiftable

/-! ## The operations on a well-formed heap -/

namespace WellFormed

variable {e : ε}

omit [DecidableEq ε] in
/-- An event is in the heap exactly when it has an index. -/
lemma mem_live_iff (h : WellFormed key s) : e ∈ s.live ↔ ∃ i, s.minHeapIdx e = some i := by
  rw [List.mem_iff_getElem?]
  exact exists_congr fun i => (h.indexed e trivial i).symm

omit [DecidableEq ε] in
/-- An event is outside the heap exactly when its index is `-1`. -/
lemma not_mem_live_iff (h : WellFormed key s) : e ∉ s.live ↔ s.minHeapIdx e = none := by
  rw [h.mem_live_iff, Option.eq_none_iff_forall_ne_some, not_exists]

omit [DecidableEq ε] in
/-- A constructed heap is well formed. -/
lemma ctor : WellFormed key (MinHeap.ctor : MinHeap ε) := by
  refine ⟨le_rfl, isHeap_nil key, ?_⟩
  intro x _ i
  constructor
  · intro h
    cases h
  · intro h
    cases h

omit [DecidableEq ε] in
/-- Only the timeouts of the events in the heap matter. -/
lemma congr {key' : ε → κ} (h : WellFormed key s) (hk : ∀ x ∈ s.live, key' x = key x) :
    WellFormed key' s :=
  ⟨h.n_le, h.isHeap.congr hk, h.indexed⟩

omit [DecidableEq ε] in
/-- **The top** comes before no other event. -/
theorem top_spec (h : WellFormed key s) :
    (s.top = none ∧ s.live = []) ∨
      ∃ e l, s.top = some e ∧ s.live = e :: l ∧ ∀ x ∈ s.live, key e ≤ key x := by
  have hlen := length_live h.n_le
  rw [top]
  cases hlive : s.live with
  | nil =>
      left
      have h0 : s.n = 0 := by
        rw [← hlen, hlive]
        rfl
      rw [if_neg (not_not.mpr h0)]
      exact ⟨rfl, rfl⟩
  | cons e l =>
      right
      have hpos : 0 < s.n := by
        rw [← hlen, hlive]
        exact Nat.succ_pos _
      have hcell : s.p[0]? = some e := by
        rw [← getElem?_live hpos, hlive]
        rfl
      have hheap := h.isHeap
      rw [hlive] at hheap
      rw [if_pos hpos.ne', hcell]
      exact ⟨e, l, rfl, rfl, hheap.front_le⟩

omit [DecidableEq ε] in
/-- A place for one more event. -/
lemma reserve_spec (mem : Realloc ε) (s : MinHeap ε) (n : ℕ) {s' : MinHeap ε}
    (h : reserve mem s n = some s') :
    s'.n = s.n ∧ s'.minHeapIdx = s.minHeapIdx ∧ n ≤ s'.p.length ∧ s'.p.take s.p.length = s.p := by
  rw [reserve] at h
  split at h
  · obtain ⟨p, hp, rfl⟩ := Option.map_eq_some_iff.mp h
    have hlen := mem.length_eq hp
    have htake := mem.take_eq hp (by split_ifs <;> omega)
    refine ⟨rfl, rfl, ?_, htake⟩
    show n ≤ p.length
    rw [hlen]
    split_ifs <;> omega
  · cases h
    exact ⟨rfl, rfl, by omega, List.take_length⟩

omit [DecidableEq ε] in
/-- More cells change nothing in the heap. -/
lemma of_reserve (h : WellFormed key s) {mem : Realloc ε} {n : ℕ} {s' : MinHeap ε}
    (hreserve : reserve mem s n = some s') :
    WellFormed key s' ∧ s'.live = s.live ∧ s'.n = s.n ∧ n ≤ s'.p.length := by
  obtain ⟨hn, hidx, hle, htake⟩ := reserve_spec mem s n hreserve
  have hlive : s'.live = s.live := by
    rw [live, hn, live, ← htake, List.take_take, Nat.min_eq_left h.n_le]
  have hlen := congrArg List.length hlive
  rw [length_live h.n_le, live, List.length_take, hn] at hlen
  refine ⟨⟨?_, ?_, ?_⟩, hlive, hn, hle⟩
  · rw [hn]
    omega
  · rw [hlive]
    exact h.isHeap
  · rw [hlive, hidx]
    exact h.indexed

omit [DecidableEq ε] in
/-- Reserving fails only when `realloc` does. -/
lemma reserve_eq_none {mem : Realloc ε} {s : MinHeap ε} {n : ℕ} (h : reserve mem s n = none) :
    ∃ p a, mem.realloc p a = none := by
  rw [reserve] at h
  split at h
  · exact ⟨_, _, Option.map_eq_none_iff.mp h⟩
  · cases h

omit [DecidableEq ε] in
/-- A place that is there already. -/
lemma reserve_of_le (mem : Realloc ε) {s : MinHeap ε} {n : ℕ} (h : n ≤ s.p.length) :
    reserve mem s n = some s := by
  rw [reserve, if_neg (not_lt.mpr h)]

/-- **Adding an event** that is not in the heap. -/
theorem push_spec (h : WellFormed key s) (mem : Realloc ε) (he : s.minHeapIdx e = none) :
    (reserve mem s (s.n + 1) = none ∧ s.push key mem e = some (-1, s)) ∨
      ∃ s', s.push key mem e = some (0, s') ∧ WellFormed key s' ∧ s'.live.Perm (e :: s.live) := by
  rw [push]
  cases hreserve : reserve mem s (s.n + 1) with
  | none => exact .inl ⟨rfl, rfl⟩
  | some s₁ =>
      right
      obtain ⟨h₁, hlive, hn, hle⟩ := h.of_reserve hreserve
      have hlen := length_live h.n_le
      rw [live, hn] at hlive
      have hset : ({ s₁ with n := s₁.n + 1 } : MinHeap ε).live.set s₁.n e = s.live ++ [e] := by
        obtain ⟨z, hz⟩ : ∃ z, s₁.p[s.n]? = some z := ⟨_, List.getElem?_eq_getElem hle⟩
        rw [live, hn, List.take_add_one, hz, Option.toList_some, hlive,
          List.set_append_right _ _ hlen.le, hlen, Nat.sub_self]
        rfl
      have hmem : e ∉ s.live := h.not_mem_live_iff.mpr he
      have hshift : Shiftable (fun _ => True) ({ s₁ with n := s₁.n + 1 } : MinHeap ε) s₁.n e := by
        refine ⟨by show s₁.n + 1 ≤ s₁.p.length; omega, Nat.lt_succ_self _, ?_, ?_⟩
        · rw [hset, List.nodup_append_comm]
          exact List.nodup_cons.mpr ⟨hmem, h.indexed.nodup⟩
        · rw [hset]
          intro x hx i
          rw [getElem?_concat_iff hx.1, ← hlive, ← hn]
          exact h₁.indexed x trivial i
      have hup : UpHeap key (({ s₁ with n := s₁.n + 1 } : MinHeap ε).live.set s₁.n e) s₁.n := by
        rw [hset, hn, ← hlen]
        exact upHeap_append h.isHeap e
      obtain ⟨s', hs', hshifted⟩ := hshift.shiftUp_spec hup
      refine ⟨s', ?_, ⟨?_, hshifted.isHeap, hshifted.indexed.mono fun _ _ => .inr trivial⟩, ?_⟩
      · show (shiftUp key { s₁ with n := s₁.n + 1 } s₁.n e).map (fun s => ((0 : ℤ), s)) = _
        rw [hs']
        rfl
      · rw [hshifted.n_eq, hshifted.length_eq]
        show s₁.n + 1 ≤ s₁.p.length
        omega
      · have hperm := hshifted.perm
        rw [hset] at hperm
        exact hperm.trans (List.perm_append_singleton e s.live)

/-- The last event in the place of `e`: the other events are still there. -/
lemma shiftable_erase (h : WellFormed key s) {i : ℕ} {last : ε} (hi : s.live[i]? = some e)
    (hlast : s.p[s.n - 1]? = some last) (hne : i ≠ s.n - 1) :
    Shiftable (fun x => x ≠ e) { s with n := s.n - 1 } i last ∧
      s.live.Perm (e :: ({ s with n := s.n - 1 } : MinHeap ε).live.set i last) := by
  have hlen := length_live h.n_le
  obtain ⟨hil, -⟩ := List.getElem?_eq_some_iff.mp hi
  have hpos : 0 < s.n := by omega
  have hsplit := live_eq_concat hpos hlast
  generalize hrest : ({ s with n := s.n - 1 } : MinHeap ε).live = l at hsplit ⊢
  have hl : l.length = s.n - 1 := by
    rw [hsplit, List.length_append, List.length_singleton] at hlen
    omega
  have hend : s.live[s.n - 1]? = some last := by
    rw [getElem?_live (Nat.sub_lt hpos Nat.one_pos), hlast]
  have hswap : swap s.live (s.n - 1) i = l.set i last ++ [e] := by
    have hset : s.live.set (s.n - 1) last = s.live := by
      rw [hsplit, List.set_append_right _ _ hl.le, hl, Nat.sub_self]
      rfl
    have hmove := swap_set (l := s.live) (h := s.n - 1) (e := last) (by omega) hi hne
    rw [hset, swap_comm] at hmove
    rw [hmove, hsplit, List.set_append_right _ _ hl.le, hl, Nat.sub_self,
      List.set_append_left _ _ (by omega)]
    rfl
  have hperm : (l.set i last ++ [e]).Perm s.live := hswap ▸ swap_perm _ _ _
  have hnodup : (l.set i last ++ [e]).Nodup := hperm.nodup_iff.mpr h.indexed.nodup
  have hle : last ≠ e := by
    rintro rfl
    exact hne ((getElem?_iff_of_nodup h.indexed.nodup hend i).mp hi)
  refine ⟨⟨le_trans (Nat.sub_le _ _) h.n_le, ?_, ?_, ?_⟩, ?_⟩
  · show i < s.n - 1
    omega
  · rw [hrest]
    exact (List.nodup_append.mp hnodup).1
  · rw [hrest]
    intro x hx k
    obtain ⟨hidx, -⟩ := (h.indexed.mono (Q := fun x => x ≠ e ∧ True) fun _ _ => trivial).swap
      (getElem?_iff_of_nodup h.indexed.nodup hi) (getElem?_iff_of_nodup h.indexed.nodup hend) hle
    have hk := hidx x ⟨hx.2, trivial⟩ k
    rw [Function.update_of_ne hx.1, hswap, getElem?_concat_iff hx.2] at hk
    exact hk
  · exact hperm.symm.trans (List.perm_append_singleton e _)

/-- The direction in which the last event is to move from the place of `e`, and the move. -/
lemma shift_erase (h : WellFormed key s) {i : ℕ} {last : ε} (hi : s.live[i]? = some e)
    (hlast : s.p[s.n - 1]? = some last) (hne : i ≠ s.n - 1) :
    ∃ up s', goesUp key { s with n := s.n - 1 } i last = some up ∧
      shift key up { s with n := s.n - 1 } i last = some s' ∧
      Shifted key (fun x => x = last ∨ x ≠ e) { s with n := s.n - 1 }
        (({ s with n := s.n - 1 } : MinHeap ε).live.set i last) s' := by
  obtain ⟨hshift, -⟩ := h.shiftable_erase hi hlast hne
  have hlen := length_live h.n_le
  obtain ⟨hil, -⟩ := List.getElem?_eq_some_iff.mp hi
  have hpos : 0 < s.n := by omega
  have hsplit := live_eq_concat hpos hlast
  have hheap : IsHeap key ({ s with n := s.n - 1 } : MinHeap ε).live :=
    IsHeap.of_append (hsplit ▸ h.isHeap)
  have hl := length_live (s := { s with n := s.n - 1 }) (le_trans (Nat.sub_le _ _) h.n_le)
  have hil' : i < ({ s with n := s.n - 1 } : MinHeap ε).live.length := by
    rw [hl]
    exact hshift.hole_lt
  obtain ⟨q, hq⟩ : ∃ q, s.p[(i - 1) / 2]? = some q := by
    refine ⟨_, List.getElem?_eq_getElem ?_⟩
    have := h.n_le
    omega
  have hq' : ({ s with n := s.n - 1 } : MinHeap ε).live[(i - 1) / 2]? = some q := by
    rw [getElem?_live (show (i - 1) / 2 < s.n - 1 by omega)]
    exact hq
  by_cases hup : 0 < i ∧ key last < key q
  · obtain ⟨s', hs', hshifted⟩ := hshift.shiftUp_spec (upHeap_set hheap hil' hq' hup.2.le)
    refine ⟨true, s', ?_, ?_, hshifted⟩
    · rw [goesUp, if_pos hup.1, hq, Option.map_some, elemGreater, decide_eq_true hup.2]
    · rw [shift, if_pos rfl, hs']
  · have hdown : 0 < i → ∀ q', ({ s with n := s.n - 1 } : MinHeap ε).live[(i - 1) / 2]? = some q' →
        key q' ≤ key last := by
      intro hi0 q' hq''
      rw [hq'] at hq''
      cases hq''
      exact not_lt.mp fun hlt => hup ⟨hi0, hlt⟩
    obtain ⟨s', hs', hshifted⟩ := hshift.shiftDownWithin_spec (s.n - 1 + 1) (by
      show s.n - 1 < _
      omega) (downHeap_set hheap hil' hdown)
    refine ⟨false, s', ?_, ?_, hshifted⟩
    · rw [goesUp]
      split_ifs with hi0
      · rw [hq, Option.map_some, elemGreater, decide_eq_false fun hlt => hup ⟨hi0, hlt⟩]
      · rfl
    · rw [shift, if_neg Bool.false_ne_true, shiftDown, hs']

/-- The last event taken out stays in its cell, behind the others. -/
lemma shift_erase_last (h : WellFormed key s) (hpos : 0 < s.n) (hlast : s.p[s.n - 1]? = some e) :
    ∃ s', goesUp key { s with n := s.n - 1 } (s.n - 1) e = some false ∧
      shift key false { s with n := s.n - 1 } (s.n - 1) e = some s' ∧ s'.n = s.n - 1 ∧
      s'.p.length = s.p.length ∧ s'.live = ({ s with n := s.n - 1 } : MinHeap ε).live ∧
      s'.minHeapIdx = Function.update s.minHeapIdx e (some (s.n - 1)) := by
  have hle := h.n_le
  have hcell : s.n - 1 < s.p.length := by omega
  have hset : s.p.set (s.n - 1) e = s.p := by
    obtain ⟨_, rfl⟩ := List.getElem?_eq_some_iff.mp hlast
    exact List.set_getElem_self hcell
  refine ⟨{ s with
    p := s.p.set (s.n - 1) e
    n := s.n - 1
    minHeapIdx := Function.update s.minHeapIdx e (some (s.n - 1)) }, ?_, ?_, rfl, List.length_set, ?_,
    rfl⟩
  · rw [goesUp]
    split_ifs with hn
    · obtain ⟨q, hq⟩ : ∃ q, s.p[(s.n - 1 - 1) / 2]? = some q :=
        ⟨_, List.getElem?_eq_getElem (by omega)⟩
      have horder : key q ≤ key e := h.isHeap (s.n - 1) q e
        (by rw [getElem?_live (by omega), hq]) (by rw [getElem?_live (by omega), hlast])
      rw [hq, Option.map_some, elemGreater, decide_eq_false (not_lt.mpr horder)]
    · rfl
  · have hstop : ¬ 2 * (s.n - 1 + 1) ≤ s.n - 1 := by omega
    rw [shift, if_neg Bool.false_ne_true, shiftDown, shiftDownWithin, if_neg hstop]
    exact place_eq (s := { s with n := s.n - 1 }) hcell e
  · rw [live, live, hset]

/-- **Taking an event out**, wherever it stands. -/
theorem erase_spec (h : WellFormed key s) :
    (s.minHeapIdx e = none ∧ s.erase key e = some (-1, s)) ∨
      ∃ s', s.erase key e = some (0, s') ∧ WellFormed key s' ∧ s.live.Perm (e :: s'.live) ∧
        s'.n + 1 ≤ s'.p.length := by
  rw [erase]
  cases hidx : s.minHeapIdx e with
  | none => exact .inl ⟨rfl, rfl⟩
  | some i =>
      right
      have hi : s.live[i]? = some e := (h.indexed e trivial i).mp hidx
      have hlen := length_live h.n_le
      have hle := h.n_le
      obtain ⟨hil, -⟩ := List.getElem?_eq_some_iff.mp hi
      have hpos : 0 < s.n := by omega
      obtain ⟨last, hlast⟩ : ∃ last, s.p[s.n - 1]? = some last :=
        ⟨_, List.getElem?_eq_getElem (by omega)⟩
      simp only [hlast, Option.bind_eq_bind, Option.bind_some]
      by_cases hne : i = s.n - 1
      · subst hne
        obtain rfl : last = e := by
          rw [getElem?_live (Nat.sub_lt hpos Nat.one_pos), hlast] at hi
          exact Option.some.inj hi
        obtain ⟨t, hup, ht, htn, htp, htlive, htidx⟩ := h.shift_erase_last hpos hlast
        have hsplit := live_eq_concat hpos hlast
        rw [hup, Option.bind_some, ht, Option.bind_some]
        have hnodup := h.indexed.nodup
        rw [hsplit] at hnodup
        refine ⟨_, rfl, ⟨?_, ?_, ?_⟩, ?_, ?_⟩
        · show t.n ≤ t.p.length
          omega
        · show IsHeap key t.live
          rw [htlive]
          exact IsHeap.of_append (hsplit ▸ h.isHeap)
        · show IndexedOn _ (Function.update t.minHeapIdx last none) t.live
          rw [htidx, Function.update_idem, htlive]
          refine (IndexedOn.remove (P := fun _ => True) ?_ ?_).mono fun _ _ => .inr trivial
          · intro x hx k
            rw [h.indexed x trivial, hsplit, getElem?_concat_iff hx.1]
          · intro hmem
            exact (List.nodup_append.mp hnodup).2.2 _ hmem _ (List.mem_singleton_self _) rfl
        · show s.live.Perm (last :: t.live)
          rw [htlive, hsplit]
          exact List.perm_append_singleton _ _
        · show t.n + 1 ≤ t.p.length
          omega
      · obtain ⟨hshift, hperm⟩ := h.shiftable_erase hi hlast hne
        obtain ⟨up, t, hup, ht, hshifted⟩ := h.shift_erase hi hlast hne
        rw [hup, Option.bind_some, ht, Option.bind_some]
        have hnodup := (hperm.nodup_iff.mp h.indexed.nodup)
        have hrest := hshifted.perm
        have htn : t.n = s.n - 1 := hshifted.n_eq
        have htp : t.p.length = s.p.length := hshifted.length_eq
        refine ⟨_, rfl, ⟨?_, hshifted.isHeap, ?_⟩, ?_, ?_⟩
        · show t.n ≤ t.p.length
          omega
        · show IndexedOn _ (Function.update t.minHeapIdx e none) t.live
          refine (IndexedOn.remove (P := fun _ => True) ?_ ?_).mono fun _ _ => .inr trivial
          · exact hshifted.indexed.mono fun x hx => .inr hx.1
          · rw [hrest.mem_iff]
            exact (List.nodup_cons.mp hnodup).1
        · exact hperm.trans (hrest.symm.cons e)
        · show t.n + 1 ≤ t.p.length
          omega

/-- **Taking the top out.** -/
theorem pop_spec (h : WellFormed key s) :
    (s.live = [] ∧ s.pop key = some (none, s)) ∨
      ∃ e s', s.pop key = some (some e, s') ∧ WellFormed key s' ∧ s.live.Perm (e :: s'.live) ∧
        ∀ x ∈ s.live, key e ≤ key x := by
  rcases h.top_spec with ⟨htop, hnil⟩ | ⟨e, l, htop, hlive, hleast⟩
  · left
    have h0 : s.n = 0 := by
      rw [← length_live h.n_le, hnil]
      rfl
    rw [pop, if_neg (not_not.mpr h0)]
    exact ⟨hnil, rfl⟩
  · right
    have hidx : s.minHeapIdx e = some 0 := by
      rw [h.indexed e trivial, hlive]
      rfl
    have hpop : s.pop key = (s.erase key e).map fun r => (some e, r.2) := by
      have hpos : s.n ≠ 0 := by
        rintro h0
        have hlen := length_live h.n_le
        rw [hlive, h0] at hlen
        cases hlen
      have hcell : s.p[0]? = some e := by
        rw [← htop, top, if_pos hpos]
      rw [pop, erase, if_pos hpos, hidx, hcell]
      cases hlast : s.p[s.n - 1]? with
      | none => rfl
      | some last =>
          simp only [Option.bind_eq_bind, Option.bind_some, goesUp, shift, lt_irrefl, if_false,
            Bool.false_eq_true, Option.map_bind]
          rfl
    obtain ⟨hnone, -⟩ | ⟨s', hs', hw, hperm, -⟩ := h.erase_spec (e := e)
    · rw [hidx] at hnone
      cases hnone
    · rw [hpop, hs']
      exact ⟨e, s', rfl, hw, hperm, hleast⟩

end WellFormed

/-! ## Runs -/

/-- The calls of the heap. -/
inductive Call (ε : Type) where
  | reserve (mem : Realloc ε) (n : ℕ)
  | push (mem : Realloc ε) (e : ε)
  | erase (e : ε)
  | pop
  | top

/-- What a call answers. -/
inductive Answer (ε : Type) where
  | code (res : ℤ)
  | event (e : Option ε)

/-- One call: its answer and the heap after it. -/
def call (key : ε → κ) (s : MinHeap ε) : Call ε → Option (Answer ε × MinHeap ε)
  | .reserve mem n =>
      match reserve mem s n with
      | none => some (.code (-1), s)
      | some s' => some (.code 0, s')
  | .push mem e => (s.push key mem e).map fun r => (.code r.1, r.2)
  | .erase e => (s.erase key e).map fun r => (.code r.1, r.2)
  | .pop => (s.pop key).map fun r => (.event r.1, r.2)
  | .top => some (.event s.top, s)

/-- The calls one after the other. -/
def run (key : ε → κ) (s : MinHeap ε) : List (Call ε) → Option (List (Answer ε) × MinHeap ε)
  | [] => some ([], s)
  | c :: cs => do
      let r ← call key s c
      let t ← run key r.2 cs
      some (r.1 :: t.1, t.2)

/-- What a set of events answers, and what it is then. -/
inductive SetStep (key : ε → κ) (m : Finset ε) : Call ε → Answer ε → Finset ε → Prop where
  | noRoom {mem n p a} : mem.realloc p a = none → SetStep key m (.reserve mem n) (.code (-1)) m
  | room {mem n} : SetStep key m (.reserve mem n) (.code 0) m
  | noMemory {mem e p a} : mem.realloc p a = none → SetStep key m (.push mem e) (.code (-1)) m
  | push {mem e} : SetStep key m (.push mem e) (.code 0) (insert e m)
  | absent {e} : e ∉ m → SetStep key m (.erase e) (.code (-1)) m
  | erase {e} : e ∈ m → SetStep key m (.erase e) (.code 0) (m.erase e)
  | popNone : m = ∅ → SetStep key m .pop (.event none) m
  | pop {e} : e ∈ m → (∀ x ∈ m, key e ≤ key x) → SetStep key m .pop (.event (some e)) (m.erase e)
  | topNone : m = ∅ → SetStep key m .top (.event none) m
  | top {e} : e ∈ m → (∀ x ∈ m, key e ≤ key x) → SetStep key m .top (.event (some e)) m

/-- The answers of a set over calls. -/
inductive SetRun (key : ε → κ) : Finset ε → List (Call ε) → List (Answer ε) → Finset ε → Prop where
  | nil {m} : SetRun key m [] [] m
  | cons {m m' m'' c a cs as} : SetStep key m c a m' → SetRun key m' cs as m'' →
      SetRun key m (c :: cs) (a :: as) m''

/-- The events in the heap, as a set. -/
def events (s : MinHeap ε) : Finset ε := s.live.toFinset

/-- A pushed event is not in the heap: `min_heap_push` does not look, and would put it there twice. -/
def Call.New (s : MinHeap ε) : Call ε → Prop
  | .push _ e => e ∉ s.events
  | _ => True

/-- Every event is new to the heap as it is at its push. -/
def PushesNew (key : ε → κ) (s : MinHeap ε) : List (Call ε) → Prop
  | [] => True
  | c :: cs => c.New s ∧ ∀ r ∈ call key s c, PushesNew key r.2 cs

instance (s : MinHeap ε) : DecidablePred (Call.New s)
  | .push _ e => inferInstanceAs (Decidable (e ∉ s.events))
  | .reserve _ _ | .erase _ | .pop | .top => .isTrue trivial

instance decidablePushesNew (key : ε → κ) :
    (s : MinHeap ε) → (cs : List (Call ε)) → Decidable (PushesNew key s cs)
  | _, [] => .isTrue trivial
  | s, c :: cs =>
      have : DecidablePred fun r : Answer ε × MinHeap ε => PushesNew key r.2 cs :=
        fun r => decidablePushesNew key r.2 cs
      inferInstanceAs (Decidable (c.New s ∧ ∀ r ∈ call key s c, PushesNew key r.2 cs))

/-- The set of a heap has the events of its slots. -/
lemma mem_events {e : ε} : e ∈ s.events ↔ e ∈ s.live := List.mem_toFinset

/-- When the slots lose one event, so does the set. -/
lemma events_of_perm_cons {t : MinHeap ε} {e : ε} (h : WellFormed key s)
    (hperm : s.live.Perm (e :: t.live)) : t.events = s.events.erase e ∧ e ∈ s.events := by
  have hnodup := hperm.nodup_iff.mp h.indexed.nodup
  constructor
  · ext x
    rw [Finset.mem_erase, mem_events, mem_events, hperm.mem_iff, List.mem_cons]
    constructor
    · intro hx
      refine ⟨?_, .inr hx⟩
      rintro rfl
      exact (List.nodup_cons.mp hnodup).1 hx
    · rintro ⟨hne, hx⟩
      exact hx.resolve_left hne
  · rw [mem_events, hperm.mem_iff]
    exact List.mem_cons_self

/-- One call, on the heap and on the set. -/
lemma call_refines (h : WellFormed key s) {c : Call ε} (hnew : c.New s) :
    ∃ a s', call key s c = some (a, s') ∧ WellFormed key s' ∧ SetStep key s.events c a s'.events := by
  cases c with
  | reserve mem n =>
      rw [call]
      cases hreserve : reserve mem s n with
      | none =>
          obtain ⟨p, a, hnone⟩ := WellFormed.reserve_eq_none hreserve
          exact ⟨_, _, rfl, h, .noRoom hnone⟩
      | some s' =>
          obtain ⟨hw, hlive, -, -⟩ := h.of_reserve hreserve
          refine ⟨_, _, rfl, hw, ?_⟩
          rw [events, events, hlive]
          exact .room
  | push mem e =>
      have he : s.minHeapIdx e = none := h.not_mem_live_iff.mp fun hmem => hnew (mem_events.mpr hmem)
      obtain ⟨hreserve, hpush⟩ | ⟨s', hpush, hw, hperm⟩ := h.push_spec mem he
      · obtain ⟨p, a, hnone⟩ := WellFormed.reserve_eq_none hreserve
        rw [call, hpush]
        exact ⟨_, _, rfl, h, .noMemory hnone⟩
      · have hins : s'.events = insert e s.events := by
          ext x
          rw [Finset.mem_insert, mem_events, mem_events, hperm.mem_iff, List.mem_cons]
        rw [call, hpush]
        refine ⟨_, _, rfl, hw, ?_⟩
        show SetStep key s.events _ _ s'.events
        rw [hins]
        exact .push
  | erase e =>
      obtain ⟨hidx, herase⟩ | ⟨s', herase, hw, hperm, -⟩ := h.erase_spec (e := e)
      · rw [call, herase]
        refine ⟨_, _, rfl, h, .absent ?_⟩
        rw [mem_events]
        exact h.not_mem_live_iff.mpr hidx
      · obtain ⟨hset, hmem⟩ := events_of_perm_cons h hperm
        rw [call, herase]
        refine ⟨_, _, rfl, hw, ?_⟩
        show SetStep key s.events _ _ s'.events
        rw [hset]
        exact .erase hmem
  | pop =>
      obtain ⟨hnil, hpop⟩ | ⟨e, s', hpop, hw, hperm, hleast⟩ := h.pop_spec
      · rw [call, hpop]
        refine ⟨_, _, rfl, h, .popNone ?_⟩
        rw [events, hnil]
        rfl
      · obtain ⟨hset, hmem⟩ := events_of_perm_cons h hperm
        rw [call, hpop]
        refine ⟨_, _, rfl, hw, ?_⟩
        show SetStep key s.events _ _ s'.events
        rw [hset]
        exact .pop hmem fun x hx => hleast x (mem_events.mp hx)
  | top =>
      obtain ⟨htop, hnil⟩ | ⟨e, l, htop, hlive, hleast⟩ := h.top_spec
      · rw [call, htop]
        refine ⟨_, _, rfl, h, .topNone ?_⟩
        rw [events, hnil]
        rfl
      · rw [call, htop]
        refine ⟨_, _, rfl, h, .top ?_ fun x hx => hleast x (mem_events.mp hx)⟩
        rw [mem_events, hlive]
        exact List.mem_cons_self

/-- **Runs.** Over any calls that push events new to the heap, with any memory, no cell outside the
array is looked at, and the heap answers like a set of events that gives a least one. -/
theorem run_refines (key : ε → κ) (cs : List (Call ε)) (hnew : PushesNew key ctor cs) :
    ∃ as s, run key ctor cs = some (as, s) ∧ SetRun key ∅ cs as s.events ∧ WellFormed key s := by
  have hrun : ∀ s : MinHeap ε, WellFormed key s → PushesNew key s cs →
      ∃ as s', run key s cs = some (as, s') ∧ SetRun key s.events cs as s'.events ∧
        WellFormed key s' := by
    clear hnew
    induction cs with
    | nil => exact fun s h _ => ⟨[], s, rfl, .nil, h⟩
    | cons c cs ih =>
        intro s h hnew
        obtain ⟨a, s₁, hcall, h₁, hstep⟩ := call_refines h hnew.1
        obtain ⟨as, s₂, hrest, hset, h₂⟩ := ih s₁ h₁ (hnew.2 _ hcall)
        refine ⟨a :: as, s₂, ?_, .cons hstep hset, h₂⟩
        simp only [run, hcall, Option.bind_eq_bind, Option.bind_some, hrest]
  exact hrun ctor WellFormed.ctor hnew

/-- The event 3 is pushed again after it was at the top and taken out. -/
def pushedAgain : List (Call ℕ) :=
  [.reserve (.filled 0) 2, .push (.filled 0) 5, .push (.filled 0) 3, .pop, .push (.filled 0) 3,
    .erase 5, .top]

/-- An event is pushed, popped and pushed again. -/
theorem run_refines_pushedAgain :
    ∃ as s, run id ctor pushedAgain = some (as, s) ∧ SetRun id ∅ pushedAgain as s.events ∧
      WellFormed id s :=
  run_refines id pushedAgain (by decide +kernel)

end MinHeap

end CocInside.LibEvent
