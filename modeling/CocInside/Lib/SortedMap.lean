import Mathlib.Order.Lattice
import Mathlib.Data.List.Basic
import Mathlib.Tactic.Common

/-!
# Sorted maps

Maps as ordered containers keep them: a list of entries in strictly increasing order of their keys.
Keys are compared by their `rank` in a linear order, so that keys of one rank name one entry, whose
own key is the one it was made with.

* `SortedMap`: the entries, with the order as a field.
* `find?`, `assign`, `ensure`, `modify`, `erase`: lookup, `m[k] = v`, the same where nothing is there,
  a change of the value found, and removal.
* `find?_assign`, `find?_ensure`, `find?_modify`, `find?_erase`: what each does to every lookup.
* `mem_assign`, `mem_modify`, `mem_erase`: the entries they leave; with `All`, what they keep true of
  every entry.
* `assign_last`, `ensure_last`, `modify_last`: the same at the end of the map, where entries that come
  in order go.
-/

namespace CocInside.Lib

variable {κ ρ α : Type*} [LinearOrder ρ]

/-- A map whose keys are compared by their rank. -/
@[ext] structure SortedMap (rank : κ → ρ) (α : Type*) where
  entries : List (κ × α)
  sorted : entries.Pairwise fun a b => rank a.1 < rank b.1

namespace SortedMap

variable {rank : κ → ρ}

/-- The map without entries. -/
def empty : SortedMap rank α := ⟨[], .nil⟩

/-- The value of the entry that `k` names. -/
def find? (m : SortedMap rank α) (k : κ) : Option α :=
  (m.entries.find? fun e => rank e.1 = rank k).map Prod.snd

/-! ## Assignment -/

/-- Put `v` at `k`; an entry that is there keeps its key. -/
def assignEntries (rank : κ → ρ) (k : κ) (v : α) : List (κ × α) → List (κ × α)
  | [] => [(k, v)]
  | e :: es =>
      if rank k < rank e.1 then (k, v) :: e :: es
      else if rank k = rank e.1 then (e.1, v) :: es
      else e :: assignEntries rank k v es

/-- The ranks in the list are those before, and that of `k`. -/
lemma rank_mem_assignEntries {k : κ} {v : α} {es : List (κ × α)} {e : κ × α}
    (h : e ∈ assignEntries rank k v es) : rank e.1 = rank k ∨ ∃ e' ∈ es, rank e.1 = rank e'.1 := by
  induction es with
  | nil =>
      rw [assignEntries, List.mem_singleton] at h
      exact .inl (by rw [h])
  | cons x es ih =>
      rw [assignEntries] at h
      split at h
      · rcases List.mem_cons.mp h with rfl | h
        · exact .inl rfl
        · exact .inr ⟨e, h, rfl⟩
      · split at h
        · rcases List.mem_cons.mp h with rfl | h
          · exact .inr ⟨x, List.mem_cons_self, rfl⟩
          · exact .inr ⟨e, List.mem_cons_of_mem x h, rfl⟩
        · rcases List.mem_cons.mp h with rfl | h
          · exact .inr ⟨e, List.mem_cons_self, rfl⟩
          · rcases ih h with hk | ⟨e', he', hr⟩
            · exact .inl hk
            · exact .inr ⟨e', List.mem_cons_of_mem x he', hr⟩

/-- An assignment keeps the order of the ranks. -/
lemma sorted_assignEntries {k : κ} {v : α} {es : List (κ × α)}
    (h : es.Pairwise fun a b => rank a.1 < rank b.1) :
    (assignEntries rank k v es).Pairwise fun a b => rank a.1 < rank b.1 := by
  induction es with
  | nil => exact List.pairwise_singleton _ _
  | cons x es ih =>
      obtain ⟨hx, hes⟩ := List.pairwise_cons.mp h
      rw [assignEntries]
      split
      · next hlt =>
          refine List.pairwise_cons.mpr ⟨?_, h⟩
          intro e he
          rcases List.mem_cons.mp he with rfl | he
          · exact hlt
          · exact hlt.trans (hx e he)
      · next hlt =>
          split
          · exact List.pairwise_cons.mpr ⟨hx, hes⟩
          · next hne =>
              refine List.pairwise_cons.mpr ⟨?_, ih hes⟩
              intro e he
              rcases rank_mem_assignEntries he with hr | ⟨e', he', hr⟩
              · rw [hr]
                exact lt_of_le_of_ne (not_lt.mp hlt) (Ne.symm hne)
              · rw [hr]
                exact hx e' he'

/-- `m[k] = v`. -/
def assign (m : SortedMap rank α) (k : κ) (v : α) : SortedMap rank α :=
  ⟨assignEntries rank k v m.entries, sorted_assignEntries m.sorted⟩

/-! ## Changes and removals -/

/-- Change the value that `k` names, in place. -/
def modify (m : SortedMap rank α) (k : κ) (g : α → α) : SortedMap rank α where
  entries := m.entries.map fun e => if rank e.1 = rank k then (e.1, g e.2) else e
  sorted := by
    refine List.pairwise_map.mpr (m.sorted.imp ?_)
    intro a b hab
    split <;> split <;> exact hab

/-- Remove the entry that `k` names. -/
def erase (m : SortedMap rank α) (k : κ) : SortedMap rank α where
  entries := m.entries.filter fun e => rank e.1 ≠ rank k
  sorted := m.sorted.filter _

/-- Make sure that `k` names an entry: `v`, if none is there. -/
def ensure (m : SortedMap rank α) (k : κ) (v : α) : SortedMap rank α :=
  match m.find? k with
  | none => m.assign k v
  | some _ => m

/-! ## Lookups -/

/-- Keys of one rank name one entry. -/
lemma find?_congr (m : SortedMap rank α) {k k' : κ} (h : rank k = rank k') :
    m.find? k = m.find? k' := by
  rw [find?, find?, h]

/-- What is found is the value of an entry. -/
lemma exists_mem_of_find? {m : SortedMap rank α} {k : κ} {v : α} (h : m.find? k = some v) :
    ∃ k', (k', v) ∈ m.entries ∧ rank k' = rank k := by
  obtain ⟨e, he, rfl⟩ := Option.map_eq_some_iff.mp h
  exact ⟨e.1, List.mem_of_find?_eq_some he, by simpa using List.find?_some he⟩

/-- Every entry is found, as no other has its rank. -/
lemma find?_of_mem {m : SortedMap rank α} {k k' : κ} {v : α} (h : (k', v) ∈ m.entries)
    (hk : rank k' = rank k) : m.find? k = some v := by
  obtain ⟨entries, sorted⟩ := m
  show (entries.find? _).map _ = _
  induction entries with
  | nil => cases h
  | cons e es ih =>
      obtain ⟨he, hes⟩ := List.pairwise_cons.mp sorted
      rcases List.mem_cons.mp h with rfl | h
      · rw [List.find?_cons_of_pos (by simpa using hk)]
        rfl
      · have hne : rank e.1 ≠ rank k := by
          rw [← hk]
          exact (he _ h).ne
        rw [List.find?_cons_of_neg (by simpa using hne)]
        exact ih hes h

/-- A key is not found exactly when no entry has its rank. -/
lemma find?_eq_none_iff {m : SortedMap rank α} {k : κ} :
    m.find? k = none ↔ ∀ e ∈ m.entries, rank e.1 ≠ rank k := by
  simp [find?]

/-- An assignment changes the lookups of its key. -/
lemma find?_assign (m : SortedMap rank α) (k k' : κ) (v : α) :
    (m.assign k v).find? k' = if rank k' = rank k then some v else m.find? k' := by
  show ((assignEntries rank k v m.entries).find? _).map _
    = if _ then _ else (m.entries.find? _).map _
  generalize m.entries = entries
  induction entries with
  | nil =>
      by_cases h : rank k' = rank k
      · simp [assignEntries, h]
      · simp [assignEntries, h, Ne.symm h]
  | cons e es ih =>
      rw [assignEntries]
      by_cases hk : rank k' = rank k
      · rw [if_pos hk] at ih ⊢
        split
        · simp [hk]
        · split
          · next heq => simp [hk, heq]
          · next heq => rwa [List.find?_cons_of_neg (by simpa [hk] using Ne.symm heq)]
      · rw [if_neg hk] at ih ⊢
        split
        · rw [List.find?_cons_of_neg (by simpa using Ne.symm hk)]
        · split
          · next heq =>
              rw [List.find?_cons_of_neg (by simpa [← heq] using Ne.symm hk),
                List.find?_cons_of_neg (by simpa [← heq] using Ne.symm hk)]
          · by_cases he : rank e.1 = rank k'
            · rw [List.find?_cons_of_pos (by simpa using he),
                List.find?_cons_of_pos (by simpa using he)]
            · rw [List.find?_cons_of_neg (by simpa using he),
                List.find?_cons_of_neg (by simpa using he)]
              exact ih

/-- A change in place changes the lookups of its key. -/
lemma find?_modify (m : SortedMap rank α) (k k' : κ) (g : α → α) :
    (m.modify k g).find? k' = if rank k' = rank k then (m.find? k').map g else m.find? k' := by
  have hcomp : ((fun e : κ × α => decide (rank e.1 = rank k')) ∘
      fun e => if rank e.1 = rank k then (e.1, g e.2) else e)
      = fun e => decide (rank e.1 = rank k') := by
    funext e
    simp only [Function.comp_apply]
    split <;> rfl
  rw [find?, find?, modify, List.find?_map, hcomp, Option.map_map]
  cases hfind : m.entries.find? fun e => rank e.1 = rank k' with
  | none =>
      split <;> rfl
  | some e =>
      have he : rank e.1 = rank k' := by simpa using List.find?_some hfind
      by_cases hk : rank k' = rank k
      · simp [he, hk]
      · simp [he, hk]

/-- An erasure leaves the entries of other ranks. -/
lemma mem_erase {m : SortedMap rank α} {k : κ} {e : κ × α} :
    e ∈ (m.erase k).entries ↔ e ∈ m.entries ∧ rank e.1 ≠ rank k := by
  simp [erase]

/-- A removal makes the lookups of its key fail. -/
lemma find?_erase (m : SortedMap rank α) (k k' : κ) :
    (m.erase k).find? k' = if rank k' = rank k then none else m.find? k' := by
  by_cases hk : rank k' = rank k
  · rw [if_pos hk, find?_eq_none_iff]
    intro e he
    rw [hk]
    exact (mem_erase.mp he).2
  · rw [if_neg hk]
    apply Option.ext
    intro v
    constructor
    · intro h
      obtain ⟨l, hl, hr⟩ := exists_mem_of_find? h
      exact find?_of_mem (mem_erase.mp hl).1 hr
    · intro h
      obtain ⟨l, hl, hr⟩ := exists_mem_of_find? h
      refine find?_of_mem (mem_erase.mpr ⟨hl, ?_⟩) hr
      rwa [hr]

/-- Ensuring a key gives it the value only when it had none. -/
lemma find?_ensure (m : SortedMap rank α) (k k' : κ) (v : α) :
    (m.ensure k v).find? k' =
      if rank k' = rank k then some ((m.find? k).getD v) else m.find? k' := by
  unfold ensure
  split
  · next h => rw [find?_assign, h, Option.getD_none]
  · next w h =>
      split
      · next hk => rw [m.find?_congr hk, h, Option.getD_some]
      · rfl

/-! ## Entries -/

/-- An entry after a modification was there, or is the modified one. -/
lemma mem_modify {m : SortedMap rank α} {k : κ} {g : α → α} {e : κ × α}
    (h : e ∈ (m.modify k g).entries) :
    e ∈ m.entries ∨ ∃ v, (e.1, v) ∈ m.entries ∧ rank e.1 = rank k ∧ e.2 = g v := by
  obtain ⟨x, hx, rfl⟩ := List.mem_map.mp h
  by_cases hk : rank x.1 = rank k
  · rw [if_pos hk]
    exact .inr ⟨x.2, hx, hk, rfl⟩
  · rw [if_neg hk]
    exact .inl hx

/-- An assignment to a key that is not there adds an entry. -/
lemma mem_assign {m : SortedMap rank α} {k : κ} {v : α} {e : κ × α} (hk : m.find? k = none)
    (h : e ∈ (m.assign k v).entries) : e = (k, v) ∨ e ∈ m.entries := by
  rw [find?_eq_none_iff] at hk
  change e ∈ assignEntries rank k v m.entries at h
  generalize m.entries = entries at hk h ⊢
  induction entries with
  | nil => exact .inl (List.mem_singleton.mp h)
  | cons x es ih =>
      rw [assignEntries] at h
      split at h
      · exact List.mem_cons.mp h
      · rw [if_neg (Ne.symm (hk x List.mem_cons_self))] at h
        rcases List.mem_cons.mp h with rfl | h
        · exact .inr List.mem_cons_self
        · rcases ih (fun e he => hk e (List.mem_cons_of_mem x he)) h with he | he
          · exact .inl he
          · exact .inr (List.mem_cons_of_mem x he)

/-- A removal without an entry to remove. -/
lemma erase_of_find?_eq_none {m : SortedMap rank α} {k : κ} (h : m.find? k = none) :
    m.erase k = m := by
  ext1
  refine List.filter_eq_self.mpr ?_
  intro e he
  simpa using find?_eq_none_iff.mp h e he

/-- A change that leaves the value as it is. -/
lemma modify_eq_self {m : SortedMap rank α} {k : κ} {g : α → α}
    (h : ∀ v, m.find? k = some v → g v = v) : m.modify k g = m := by
  ext1
  refine (List.map_congr_left ?_).trans (List.map_id m.entries)
  intro e he
  split
  · next hk =>
      rw [h e.2 (find?_of_mem he hk)]
      rfl
  · rfl

/-- Putting back the value that is there. -/
lemma modify_const {m : SortedMap rank α} {k : κ} {v : α} (h : m.find? k = some v) :
    m.modify k (fun _ => v) = m := by
  refine modify_eq_self fun w hw => ?_
  rw [h] at hw
  exact Option.some.inj hw

/-- Keys of one rank name one change. -/
lemma modify_congr (m : SortedMap rank α) {k k' : κ} (h : rank k = rank k') (g : α → α) :
    m.modify k g = m.modify k' g := by
  rw [modify.eq_def, modify.eq_def]
  simp only [h]

/-- Nothing is made where an entry is. -/
lemma ensure_of_find?_eq_some {m : SortedMap rank α} {k : κ} {v : α} (h : m.find? k = some v)
    (w : α) : m.ensure k w = m := by
  rw [ensure, h]

/-! ## What holds of every entry -/

/-- Every entry has `P`. -/
def All (P : κ → α → Prop) (m : SortedMap rank α) : Prop := ∀ e ∈ m.entries, P e.1 e.2

/-- Everything is true of all entries of the empty map. -/
lemma all_empty (P : κ → α → Prop) : (empty : SortedMap rank α).All P := nofun

/-- What is found has it, at a key of the same rank. -/
lemma All.of_find? {P : κ → α → Prop} {m : SortedMap rank α} {k : κ} {v : α} (h : m.All P)
    (hv : m.find? k = some v) : ∃ k', rank k' = rank k ∧ P k' v := by
  obtain ⟨k', hmem, hk⟩ := exists_mem_of_find? hv
  exact ⟨k', hk, h (k', v) hmem⟩

/-- A new entry with the property keeps the property of all. -/
lemma All.assign {P : κ → α → Prop} {m : SortedMap rank α} {k : κ} {v : α} (h : m.All P)
    (hk : m.find? k = none) (hv : P k v) : (m.assign k v).All P := by
  intro e he
  rcases mem_assign hk he with rfl | he
  · exact hv
  · exact h e he

/-- So does an ensured one. -/
lemma All.ensure {P : κ → α → Prop} {m : SortedMap rank α} {k : κ} {v : α} (h : m.All P)
    (hv : P k v) : (m.ensure k v).All P := by
  unfold SortedMap.ensure
  split
  · next hk => exact h.assign hk hv
  · exact h

/-- So does an erasure. -/
lemma All.erase {P : κ → α → Prop} {m : SortedMap rank α} (h : m.All P) (k : κ) :
    (m.erase k).All P := by
  intro e he
  exact h e (mem_erase.mp he).1

/-- So does a modification that keeps the property. -/
lemma All.modify {P : κ → α → Prop} {m : SortedMap rank α} {k : κ} {g : α → α} (h : m.All P)
    (hg : ∀ k' v, m.find? k = some v → P k' v → P k' (g v)) : (m.modify k g).All P := by
  intro e he
  rcases mem_modify he with he | ⟨v, hv, hk, heq⟩
  · exact h e he
  · rw [heq]
    exact hg e.1 v (find?_of_mem hv hk) (h (e.1, v) hv)

/-! ## At the end of the map -/

/-- Behind all entries, an assignment appends one. -/
lemma assign_last {m : SortedMap rank α} {k : κ} {v : α}
    (h : ∀ e ∈ m.entries, rank e.1 < rank k) :
    (m.assign k v).entries = m.entries ++ [(k, v)] := by
  show assignEntries rank k v m.entries = m.entries ++ [(k, v)]
  generalize m.entries = entries at h ⊢
  induction entries with
  | nil => rfl
  | cons e es ih =>
      have he := h e List.mem_cons_self
      rw [assignEntries, if_neg he.not_gt, if_neg he.ne',
        ih fun e' he' => h e' (List.mem_cons_of_mem e he')]
      rfl

/-- A key above all others is put at the end. -/
lemma ensure_last {m : SortedMap rank α} {k : κ} {v : α}
    (h : ∀ e ∈ m.entries, rank e.1 < rank k) :
    (m.ensure k v).entries = m.entries ++ [(k, v)] := by
  have hnone : m.find? k = none := find?_eq_none_iff.mpr fun e he => (h e he).ne
  rw [ensure, hnone]
  exact assign_last h

/-- A change of the last entry leaves the others. -/
lemma modify_last {m : SortedMap rank α} {es : List (κ × α)} {k : κ} {v : α} (g : α → α)
    (h : m.entries = es ++ [(k, v)]) : (m.modify k g).entries = es ++ [(k, g v)] := by
  have hlt : ∀ e ∈ es, rank e.1 < rank k := by
    have hsorted := m.sorted
    rw [h, List.pairwise_append] at hsorted
    intro e he
    exact hsorted.2.2 e he (k, v) List.mem_cons_self
  show m.entries.map _ = _
  rw [h, List.map_append]
  congr 1
  · refine (List.map_congr_left ?_).trans (List.map_id es)
    intro e he
    rw [if_neg (hlt e he).ne]
    rfl
  · rw [List.map_singleton, if_pos rfl]

end SortedMap

end CocInside.Lib
