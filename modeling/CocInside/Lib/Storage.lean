import Mathlib.Data.List.Basic
import Mathlib.Tactic.Common

/-!
# An object with arrays on the heap

The memory of an object that has one array in itself and gets others by `new[]`. A cell that was never
written has no value. An access outside an array, or to an array that `delete[]` has released, has no
result; neither has a `delete[]` of the array in the object or of one that is released already.

* `Place`, `Storage`: where an array stands, all arrays and the log of `delete[]`.
* `Storage.cells`, `read`, `write`, `alloc`, `memcpy`, `delete`: the accesses.
* `cells_write`, `cells_alloc_self`, `cells_memcpy`, …: what they leave in the arrays.
-/

namespace CocInside.Lib

/-- Where an array stands: in the object, or where the `b`th `new[]` put it. -/
inductive Place where
  | own
  | heap (b : ℕ)
deriving DecidableEq

/-- The array of the object, all arrays that `new[]` made, and what `delete[]` was called with. -/
structure Storage (T : Type*) where
  own : List (Option T)
  blocks : List (List (Option T))
  released : List Place
deriving DecidableEq

namespace Storage

variable {T : Type*}

/-! ## Accesses -/

/-- The array at a place, if it may be accessed. -/
def cells (m : Storage T) : Place → Option (List (Option T))
  | .own => some m.own
  | .heap b => if .heap b ∈ m.released then none else m.blocks[b]?

/-- Another content for the array at a place. -/
def setCells (m : Storage T) (cs : List (Option T)) : Place → Storage T
  | .own => { m with own := cs }
  | .heap b => { m with blocks := m.blocks.set b cs }

/-- `p[i]`. -/
def read (m : Storage T) (p : Place) (i : ℕ) : Option (Option T) := (m.cells p).bind fun cs => cs[i]?

/-- `p[i] = v`. -/
def write (m : Storage T) (p : Place) (i : ℕ) (v : Option T) : Option (Storage T) :=
  (m.cells p).bind fun cs => if i < cs.length then some (m.setCells (cs.set i v) p) else none

/-- `new T[n]`, when there is room. -/
def alloc (m : Storage T) (n : ℕ) : Place × Storage T :=
  (.heap m.blocks.length, { m with blocks := m.blocks ++ [List.replicate n none] })

/-- `memcpy` of `n` cells. -/
def memcpy (m : Storage T) (dst src : Place) (n : ℕ) : Option (Storage T) :=
  (m.cells src).bind fun cs => (m.cells dst).bind fun ds =>
    if n ≤ cs.length ∧ n ≤ ds.length then some (m.setCells (cs.take n ++ ds.drop n) dst) else none

/-- `delete[] p`. -/
def delete (m : Storage T) : Place → Option (Storage T)
  | .own => none
  | .heap b => (m.cells (.heap b)).map fun _ => { m with released := m.released ++ [.heap b] }

/-! ## What they leave -/

variable {m m' : Storage T} {p q : Place} {cs ds : List (Option T)}

/-- Setting an array releases nothing. -/
@[simp]
lemma released_setCells (m : Storage T) (cs : List (Option T)) (p : Place) :
    (m.setCells cs p).released = m.released := by
  cases p <;> rfl

/-- And makes none. -/
@[simp]
lemma length_blocks_setCells (m : Storage T) (cs : List (Option T)) (p : Place) :
    (m.setCells cs p).blocks.length = m.blocks.length := by
  cases p <;> simp [setCells]

/-- The array in the object keeps its length if what is set is as long as before. -/
lemma length_own_setCells (h : m.cells p = some ds) (hlen : cs.length = ds.length) :
    (m.setCells cs p).own.length = m.own.length := by
  cases p with
  | own =>
      obtain rfl : m.own = ds := by simpa [cells] using h
      exact hlen
  | heap b => rfl

/-- The array that is set. -/
lemma cells_setCells_self (h : m.cells p = some ds) (cs : List (Option T)) :
    (m.setCells cs p).cells p = some cs := by
  cases p with
  | own => rfl
  | heap b =>
      rw [cells] at h
      split at h
      · exact absurd h (by simp)
      · next hlive =>
          obtain ⟨hb, -⟩ := List.getElem?_eq_some_iff.mp h
          rw [cells, released_setCells, if_neg hlive]
          exact List.getElem?_set_self hb

/-- The others. -/
lemma cells_setCells_of_ne (m : Storage T) (cs : List (Option T)) (h : q ≠ p) :
    (m.setCells cs p).cells q = m.cells q := by
  cases p with
  | own =>
      cases q with
      | own => exact absurd rfl h
      | heap b => rfl
  | heap b =>
      cases q with
      | own => rfl
      | heap c =>
          have hne : b ≠ c := fun hbc => h (hbc ▸ rfl)
          rw [cells, cells, released_setCells]
          exact if_congr Iff.rfl rfl (List.getElem?_set_ne hne)

/-- A write inside an array is done. -/
lemma write_eq (h : m.cells p = some cs) {i : ℕ} (hi : i < cs.length) (v : Option T) :
    m.write p i v = some (m.setCells (cs.set i v) p) := by
  rw [write, h, Option.bind_some, if_pos hi]

/-- A copy inside two arrays is done. -/
lemma memcpy_eq (hsrc : m.cells q = some cs) (hdst : m.cells p = some ds) {n : ℕ}
    (hc : n ≤ cs.length) (hd : n ≤ ds.length) :
    m.memcpy p q n = some (m.setCells (cs.take n ++ ds.drop n) p) := by
  rw [memcpy, hsrc, Option.bind_some, hdst, Option.bind_some, if_pos ⟨hc, hd⟩]

/-- A new array, if its place is new. -/
lemma cells_alloc_self (h : .heap m.blocks.length ∉ m.released) (n : ℕ) :
    (m.alloc n).2.cells (m.alloc n).1 = some (List.replicate n none) := by
  rw [alloc, cells, if_neg h]
  simp

/-- The arrays before it. -/
lemma cells_alloc_of_eq_some (h : m.cells p = some cs) (n : ℕ) :
    (m.alloc n).2.cells p = some cs ∧ p ≠ (m.alloc n).1 := by
  cases p with
  | own => exact ⟨h, by simp [alloc]⟩
  | heap b =>
      rw [cells] at h
      split at h
      · exact absurd h (by simp)
      · next hlive =>
          obtain ⟨hb, -⟩ := List.getElem?_eq_some_iff.mp h
          refine ⟨?_, ?_⟩
          · rw [alloc, cells, if_neg hlive, List.getElem?_append_left hb]
            exact h
          · intro heq
            rw [alloc, Place.heap.injEq] at heq
            exact absurd heq (Nat.ne_of_lt hb)

/-- An array on the heap that may be accessed can be released. -/
lemma delete_eq (h : m.cells p = some cs) (hp : p ≠ .own) :
    m.delete p = some { m with released := m.released ++ [p] } := by
  cases p with
  | own => exact absurd rfl hp
  | heap b => rw [delete, h, Option.map_some]

/-- The other arrays after that. -/
lemma cells_released_of_ne (m : Storage T) (h : q ≠ p) :
    Storage.cells { m with released := m.released ++ [p] } q = m.cells q := by
  cases q with
  | own => rfl
  | heap c =>
      have hmem : Place.heap c ∈ m.released ++ [p] ↔ Place.heap c ∈ m.released := by
        simp [h]
      rw [cells, cells]
      exact if_congr hmem rfl rfl

/-- A released array may not be accessed. -/
lemma cells_of_mem_released (h : p ∈ m.released) (hp : p ≠ .own) : m.cells p = none := by
  cases p with
  | own => exact absurd rfl hp
  | heap b => rw [cells, if_pos h]

end Storage

end CocInside.Lib
