import Mathlib.Data.List.Basic
import Mathlib.Data.Nat.Basic
import Mathlib.Tactic.Common

/-!
# Characters of several units

A decoder takes one character off the front of a sequence of units; a loop takes characters off until
nothing is left, and does something with each. A decoder that wants units behind the end has no
result, and a loop that does not end has none.

* `Progress`: from any units a decoder gets a character, and fewer units are left.
* `charactersWithin_eq`: then the loop ends within as many turns as there are units.
* `loop_eq_foldl`: what the loop does with each character, it does with `characters`.
* `Spells`: units that are decoded to the same characters whatever stands behind them. Closed under
  joining (`Spells.flatMap`).
-/

namespace CocInside.Lib

variable {α γ σ : Type*}

/-! ## The loop -/

/-- A decoder always gets a character, and gets on. -/
def Progress (decode : List α → Option (γ × List α)) : Prop :=
  ∀ a l, ∃ c rest, decode (a :: l) = some (c, rest) ∧ rest.length ≤ l.length

/-- So many turns of the loop. -/
def turns (decode : List α → Option (γ × List α)) (f : σ → γ → σ) : ℕ → σ → List α → Option σ
  | _, s, [] => some s
  | 0, _, _ :: _ => none
  | n + 1, s, a :: l => (decode (a :: l)).bind fun r => turns decode f n (f s r.1) r.2

/-- The loop `while (begin < end)`. -/
def loop (decode : List α → Option (γ × List α)) (f : σ → γ → σ) (s : σ) (l : List α) : Option σ :=
  turns decode f l.length s l

/-- The characters got in so many turns. -/
def charactersWithin (decode : List α → Option (γ × List α)) : ℕ → List α → Option (List γ)
  | _, [] => some []
  | 0, _ :: _ => none
  | n + 1, a :: l => (decode (a :: l)).bind fun r => (charactersWithin decode n r.2).map (r.1 :: ·)

/-- The characters. -/
def characters (decode : List α → Option (γ × List α)) (l : List α) : Option (List γ) :=
  charactersWithin decode l.length l

variable {decode : List α → Option (γ × List α)}

/-- Each turn is about one of the characters. -/
lemma turns_eq_foldl (f : σ → γ → σ) (n : ℕ) (s : σ) (l : List α) :
    turns decode f n s l = (charactersWithin decode n l).map fun cs => cs.foldl f s := by
  induction n generalizing s l with
  | zero =>
      cases l with
      | nil => rfl
      | cons a l => rfl
  | succ n ih =>
      cases l with
      | nil => rfl
      | cons a l =>
          cases hdecode : decode (a :: l) with
          | none => simp [turns, charactersWithin, hdecode]
          | some r =>
              simp only [turns, charactersWithin, hdecode, Option.bind_some, ih, Option.map_map]
              rfl

/-- **The loop goes over the characters.** -/
theorem loop_eq_foldl (f : σ → γ → σ) (s : σ) (l : List α) :
    loop decode f s l = (characters decode l).map fun cs => cs.foldl f s :=
  turns_eq_foldl f l.length s l

/-- A loop that writes something for each character. -/
lemma loop_append {β : Type*} (f : γ → List β) (l : List α) :
    loop decode (fun output c => output ++ f c) [] l =
      (characters decode l).map fun cs => cs.flatMap f := by
  rw [loop_eq_foldl]
  congr 1
  funext cs
  exact List.flatMap_eq_foldl.symm

/-- A loop that counts. -/
lemma loop_count (l : List α) :
    loop decode (fun length _ => length + 1) 0 l = (characters decode l).map List.length := by
  have hcount : ∀ (cs : List γ) (n : ℕ),
      cs.foldl (fun length _ => length + 1) n = n + cs.length := by
    intro cs
    induction cs with
    | nil => exact fun _ => rfl
    | cons c cs ih =>
        intro n
        rw [List.foldl_cons, ih, List.length_cons]
        omega
  rw [loop_eq_foldl]
  congr 1
  funext cs
  rw [hcount, Nat.zero_add]

/-- **The loop ends**, within as many turns as there are units. -/
theorem charactersWithin_eq (h : Progress decode) {n : ℕ} {l : List α} (hn : l.length ≤ n) :
    charactersWithin decode n l = characters decode l ∧
      ∃ cs, characters decode l = some cs ∧ cs.length ≤ l.length := by
  induction hl : l.length using Nat.strongRecOn generalizing n l with
  | _ m ih =>
      cases l with
      | nil => exact ⟨by cases n <;> rfl, [], rfl, Nat.zero_le _⟩
      | cons a l =>
          obtain ⟨c, rest, hdecode, hlen⟩ := h a l
          obtain ⟨n, rfl⟩ := Nat.exists_eq_succ_of_ne_zero (Nat.ne_of_gt (Nat.zero_lt_of_lt hn))
          rw [List.length_cons] at hn hl
          obtain ⟨hwithin, cs, hcs, hle⟩ :=
            ih rest.length (by omega) (n := n) (l := rest) (by omega) rfl
          obtain ⟨hself, -⟩ := ih rest.length (by omega) (n := l.length) (l := rest) hlen rfl
          have hone : ∀ k, charactersWithin decode (k + 1) (a :: l) =
              (charactersWithin decode k rest).map (c :: ·) := by
            intro k
            simp [charactersWithin, hdecode]
          have hchars : characters decode (a :: l) = some (c :: cs) := by
            rw [characters, List.length_cons, hone, hself, hcs]
            rfl
          refine ⟨?_, c :: cs, hchars, ?_⟩
          · rw [hchars, hone, hwithin, hcs]
            rfl
          · rw [List.length_cons]
            omega

/-- The empty list has no characters. -/
lemma characters_nil : characters decode [] = some [] := rfl

/-- One character in front. -/
lemma characters_of_decode (h : Progress decode) {l rest : List α} {c : γ} (hl : l ≠ [])
    (hdecode : decode l = some (c, rest)) :
    characters decode l = (characters decode rest).map (c :: ·) := by
  cases l with
  | nil => exact absurd rfl hl
  | cons a l =>
      obtain ⟨c', rest', hdecode', hlen⟩ := h a l
      obtain ⟨rfl, rfl⟩ := Prod.mk.inj (Option.some.inj (hdecode'.symm.trans hdecode))
      have hwithin := (charactersWithin_eq h hlen).1
      rw [characters, List.length_cons, charactersWithin, hdecode, Option.bind_some, hwithin]

/-! ## What is decoded whatever stands behind it -/

/-- The units `l` are the characters `cs`, whatever stands behind them. -/
def Spells (decode : List α → Option (γ × List α)) (l : List α) (cs : List γ) : Prop :=
  ∀ rest, characters decode (l ++ rest) = (characters decode rest).map (cs ++ ·)

/-- The empty list spells the empty text. -/
lemma Spells.nil : Spells decode [] [] := by
  intro rest
  simp

/-- Units one after the other are the characters one after the other. -/
lemma Spells.append {l l' : List α} {cs cs' : List γ} (h : Spells decode l cs)
    (h' : Spells decode l' cs') : Spells decode (l ++ l') (cs ++ cs') := by
  intro rest
  rw [List.append_assoc, h, h', Option.map_map]
  congr 1
  funext ds
  exact (List.append_assoc cs cs' ds).symm

/-- One character. -/
lemma Spells.of_decode (h : Progress decode) {l : List α} {c : γ} (hl : l ≠ [])
    (hdecode : ∀ rest, decode (l ++ rest) = some (c, rest)) : Spells decode l [c] := by
  intro rest
  rw [characters_of_decode h (List.append_ne_nil_of_left_ne_nil hl rest) (hdecode rest)]
  rfl

/-- **What is encoded is decoded**, character by character. -/
theorem Spells.flatMap {δ : Type*} {encode : δ → List α} {g : δ → List γ} (ds : List δ)
    (h : ∀ d ∈ ds, Spells decode (encode d) (g d)) :
    Spells decode (ds.flatMap encode) (ds.flatMap g) := by
  induction ds with
  | nil => exact Spells.nil
  | cons d ds ih =>
      rw [List.flatMap_cons, List.flatMap_cons]
      exact (h d List.mem_cons_self).append (ih fun e he => h e (List.mem_cons_of_mem d he))

/-- With nothing behind them, the units are the characters. -/
lemma Spells.characters_eq {l : List α} {cs : List γ} (h : Spells decode l cs) :
    characters decode l = some cs := by
  have hnil := h []
  rwa [List.append_nil, characters_nil, Option.map_some, List.append_nil] at hnil

end CocInside.Lib
