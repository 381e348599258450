import Mathlib.Data.List.Basic
import Mathlib.Data.List.Induction
import Mathlib.Data.Nat.Basic
import Mathlib.Tactic.Common

/-!
# Hashing by blocks

A message is cut into blocks of `n` symbols, and a compression function is folded over them.

* `blocks`: a message of whole blocks, cut.
* `feed`: one symbol more for an engine that keeps the last, incomplete block.
* `foldl_feed_blocks`: the engine computes the fold over the blocks.
* `eq_or_collide_of_getLast`: two messages with one result are the same, or the compression function
  collides on the way.
-/

namespace CocInside.Lib

variable {σ α : Type*}

/-! ## Blocks -/

/-- The whole blocks of `n` symbols at the front of a message. -/
def blocks (n : ℕ) (l : List α) : List (List α) :=
  (List.range (l.length / n)).map fun i => (l.drop (i * n)).take n

/-- There are as many blocks as fit. -/
@[simp] lemma length_blocks (n : ℕ) (l : List α) : (blocks n l).length = l.length / n := by
  simp [blocks]

/-- Every block is full. -/
lemma length_of_mem_blocks {n : ℕ} {l b : List α} (hb : b ∈ blocks n l) : b.length = n := by
  obtain ⟨i, hi, rfl⟩ := List.mem_map.mp hb
  rw [List.mem_range] at hi
  have hle : (i + 1) * n ≤ l.length :=
    le_trans (Nat.mul_le_mul_right n hi) (Nat.div_mul_le_self l.length n)
  rw [List.length_take, List.length_drop]
  rw [Nat.succ_mul] at hle
  omega

/-- A block in front. -/
lemma blocks_append {n : ℕ} (hn : 0 < n) {b : List α} (hb : b.length = n) (l : List α) :
    blocks n (b ++ l) = b :: blocks n l := by
  have hcount : (b ++ l).length / n = l.length / n + 1 := by
    rw [List.length_append, hb, Nat.add_div_left _ hn]
  rw [blocks, hcount, List.range_succ_eq_map, List.map_cons, List.map_map]
  congr 1
  · rw [Nat.zero_mul, List.drop_zero, ← hb, List.take_left]
  · apply List.map_congr_left
    intro i _
    rw [Function.comp_apply, Nat.succ_mul, Nat.add_comm, ← List.drop_drop, ← hb, List.drop_left]

/-- Fewer symbols than a block. -/
lemma blocks_of_lt {n : ℕ} {l : List α} (h : l.length < n) : blocks n l = [] := by
  rw [blocks, Nat.div_eq_of_lt h]
  rfl

/-- Messages of whole blocks are known from their blocks. -/
lemma flatten_blocks {n : ℕ} (hn : 0 < n) {l : List α} (h : l.length % n = 0) :
    (blocks n l).flatten = l := by
  induction hk : l.length / n generalizing l with
  | zero =>
      obtain rfl : l = [] := by
        have hlen := Nat.div_add_mod l.length n
        rw [hk, h] at hlen
        exact List.length_eq_zero_iff.mp hlen.symm
      rw [blocks_of_lt (by simpa using hn)]
      rfl
  | succ k ih =>
      have hle : n ≤ l.length := by
        by_contra hlt
        rw [Nat.div_eq_of_lt (not_le.mp hlt)] at hk
        exact Nat.succ_ne_zero k hk.symm
      have htake : (l.take n).length = n := List.length_take_of_le hle
      have hdiv : (l.drop n).length / n = k := by
        have hadd := Nat.add_div_right (l.length - n) hn
        rw [Nat.sub_add_cancel hle, hk] at hadd
        rw [List.length_drop]
        exact (Nat.succ.inj hadd).symm
      have hmod : (l.drop n).length % n = 0 := by
        rw [List.length_drop, ← Nat.mod_eq_sub_mod hle, h]
      have hsplit := blocks_append hn htake (l.drop n)
      rw [List.take_append_drop] at hsplit
      rw [hsplit, List.flatten_cons, ih hmod hdiv, List.take_append_drop]

/-! ## Engines -/

section engine

variable (compress : σ → List α → σ) (n : ℕ)

/-- One symbol more: a block that is full is compressed. -/
def feed (st : σ × List α) (c : α) : σ × List α :=
  if (st.2 ++ [c]).length = n then (compress st.1 (st.2 ++ [c]), []) else (st.1, st.2 ++ [c])

variable {compress n}

/-- Symbols that do not fill the block. -/
lemma foldl_feed_of_lt {s : σ} {t xs : List α} (h : t.length + xs.length < n) :
    xs.foldl (feed compress n) (s, t) = (s, t ++ xs) := by
  induction xs generalizing t with
  | nil => simp
  | cons c xs ih =>
      rw [List.length_cons] at h
      have hne : ¬ (t ++ [c]).length = n := by
        rw [List.length_append, List.length_singleton]
        omega
      have hlt : (t ++ [c]).length + xs.length < n := by
        rw [List.length_append, List.length_singleton]
        omega
      rw [List.foldl_cons, feed, if_neg hne, ih hlt, List.append_assoc, List.singleton_append]

/-- Symbols that fill it. -/
lemma foldl_feed_of_eq {s : σ} {t xs : List α} (ht : t.length < n)
    (h : t.length + xs.length = n) :
    xs.foldl (feed compress n) (s, t) = (compress s (t ++ xs), []) := by
  rcases List.eq_nil_or_concat' xs with rfl | ⟨ys, c, rfl⟩
  · simp at h
    omega
  · rw [List.length_append, List.length_singleton] at h
    have hfull : (t ++ ys ++ [c]).length = n := by
      simp only [List.length_append, List.length_singleton]
      omega
    have hlt : t.length + ys.length < n := by omega
    rw [List.foldl_append, foldl_feed_of_lt hlt, List.foldl_cons, List.foldl_nil, feed,
      if_pos hfull, List.append_assoc]

/-- **The engine.** On a message of whole blocks it computes the fold over the blocks. -/
lemma foldl_feed_blocks (hn : 0 < n) {l : List α} (h : l.length % n = 0) (s : σ) :
    l.foldl (feed compress n) (s, []) = ((blocks n l).foldl compress s, []) := by
  have hfold : ∀ (bs : List (List α)), (∀ b ∈ bs, b.length = n) → ∀ s : σ,
      bs.flatten.foldl (feed compress n) (s, []) = (bs.foldl compress s, []) := by
    intro bs
    induction bs with
    | nil => exact fun _ _ => rfl
    | cons b bs ih =>
        intro hbs s
        have hb : ([] : List α).length + b.length = n := by
          simpa using hbs b List.mem_cons_self
        rw [List.flatten_cons, List.foldl_append, foldl_feed_of_eq (by simpa using hn) hb,
          ih (fun c hc => hbs c (List.mem_cons_of_mem b hc)), List.foldl_cons, List.nil_append]
  conv_lhs => rw [← flatten_blocks hn h]
  exact hfold _ (fun b hb => length_of_mem_blocks hb) s

/-! ## Collisions -/

/-- Two different inputs with one result that the fold over `bs` and the fold over `cs` meet. -/
def Collide (compress : σ → List α → σ) (s : σ) (bs cs : List (List α)) : Prop :=
  ∃ p b r p' b' r', bs = p ++ b :: r ∧ cs = p' ++ b' :: r' ∧
    (p.foldl compress s, b) ≠ (p'.foldl compress s, b') ∧
    compress (p.foldl compress s) b = compress (p'.foldl compress s) b'

/-- As many blocks with one result. -/
lemma eq_or_collide {bs cs : List (List α)} {s : σ} (hlen : bs.length = cs.length)
    (h : bs.foldl compress s = cs.foldl compress s) : bs = cs ∨ Collide compress s bs cs := by
  induction bs using List.reverseRecOn generalizing cs with
  | nil =>
      left
      exact (List.length_eq_zero_iff.mp hlen.symm).symm
  | append_singleton bs b ih =>
      rcases List.eq_nil_or_concat' cs with rfl | ⟨cs, c, rfl⟩
      · simp at hlen
      · simp only [List.length_append, List.length_singleton, Nat.add_right_cancel_iff] at hlen
        rw [List.foldl_append, List.foldl_append, List.foldl_cons, List.foldl_cons, List.foldl_nil,
          List.foldl_nil] at h
        by_cases heq : (bs.foldl compress s, b) = (cs.foldl compress s, c)
        · obtain ⟨hstate, rfl⟩ := Prod.mk.inj heq
          rcases ih hlen hstate with rfl | ⟨p, d, r, p', d', r', rfl, rfl, hne, hcol⟩
          · exact .inl rfl
          · refine .inr ⟨p, d, r ++ [b], p', d', r' ++ [b], ?_, ?_, hne, hcol⟩
            · simp
            · simp
        · exact .inr ⟨bs, b, [], cs, c, [], rfl, rfl, heq, h⟩

/-- **Collisions.** Two messages with one result are the same, if their last blocks tell how many
there are, or a collision is met on the way. -/
theorem eq_or_collide_of_getLast {bs cs : List (List α)} {s : σ} (hbs : bs ≠ []) (hcs : cs ≠ [])
    (hlast : bs.getLast hbs = cs.getLast hcs → bs.length = cs.length)
    (h : bs.foldl compress s = cs.foldl compress s) : bs = cs ∨ Collide compress s bs cs := by
  by_cases heq : bs.getLast hbs = cs.getLast hcs
  · exact eq_or_collide (hlast heq) h
  · right
    have hsplit := List.dropLast_append_getLast hbs
    have hsplit' := List.dropLast_append_getLast hcs
    rw [← hsplit, ← hsplit', List.foldl_append, List.foldl_append] at h
    exact ⟨_, _, [], _, _, [], hsplit.symm, hsplit'.symm, fun hpair => heq (Prod.mk.inj hpair).2, h⟩

end engine

end CocInside.Lib
