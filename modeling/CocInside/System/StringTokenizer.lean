import CocInside.Lib.Split

/-!
# `StringTokenizer`

The constructor splits a string at the characters of another one. Its loop walks over the string once:
a turn takes the characters up to the next separator, and the turn that meets the end is the last.

* `StringTokenizer.loop`, `StringTokenizer.tokenize`: the code, with a bound on the turns.
* `loop_eq`: the loop returns, with what `List.splitOnP` splits the rest of the string into.
* `interleave`, `tokenize_lossless`: what the tokens are of a string that is not empty.

Source: `System/StringTokenizer.h`, `System/StringTokenizer.cpp`.
-/

namespace CocInside.System

open CocInside.Lib

namespace StringTokenizer

/-! ## The code -/

/-- `tok.find(c) != npos`. -/
def isSeparator (tok : List Char) (c : Char) : Bool := tok.contains c

/-- `_sepStrings` after a turn that read `token`.
Source: `StringTokenizer.cpp`, `StringTokenizer::StringTokenizer`. -/
def push (ignoreEmpty : Bool) (sepStrings : List (List Char)) (token : List Char) :
    List (List Char) :=
  if ignoreEmpty then
    if token ≠ [] then sepStrings ++ [token] else sepStrings
  else sepStrings ++ [token]

/-- The loop, from what stands between `it1` and `end`; `none` if that many turns are not enough.
Source: `StringTokenizer.cpp`, `StringTokenizer::StringTokenizer`. -/
def loop (tok : List Char) (ignoreEmpty : Bool) :
    ℕ → List Char → List (List Char) → Option (List (List Char))
  | 0, _, _ => none
  | turns + 1, it1, sepStrings =>
      let token := it1.takeWhile (!isSeparator tok ·)
      let sepStrings := push ignoreEmpty sepStrings token
      match it1.dropWhile (!isSeparator tok ·) with
      | [] => some sepStrings
      | _ :: it1 => loop tok ignoreEmpty turns it1 sepStrings

/-- The constructor: `_sepStrings` when it returns.
Source: `StringTokenizer.cpp`, `StringTokenizer::StringTokenizer`. -/
def tokenize (turns : ℕ) (str tok : List Char) (ignoreEmpty : Bool) : Option (List (List Char)) :=
  if str = [] then some [] else loop tok ignoreEmpty turns str []

/-! ## What a turn does -/

/-- Without `ignore_empty` every token is kept. -/
@[simp]
lemma push_false (sepStrings : List (List Char)) (token : List Char) :
    push false sepStrings token = sepStrings ++ [token] := rfl

/-- With `ignore_empty`, only the ones with a character. -/
lemma push_true (sepStrings : List (List Char)) (token : List Char) :
    push true sepStrings token = sepStrings ++ [token].filter (· ≠ []) := by
  by_cases h : token = [] <;> simp [push, h]

/-- The tokens that are kept of those that are read. -/
def kept (ignoreEmpty : Bool) (tokens : List (List Char)) : List (List Char) :=
  if ignoreEmpty then tokens.filter (· ≠ []) else tokens

/-- A turn keeps what `kept` keeps. -/
lemma push_append_kept (ignoreEmpty : Bool) (sepStrings : List (List Char)) (token : List Char)
    (tokens : List (List Char)) :
    push ignoreEmpty sepStrings token ++ kept ignoreEmpty tokens =
      sepStrings ++ kept ignoreEmpty (token :: tokens) := by
  cases ignoreEmpty with
  | false => simp [kept]
  | true =>
      rw [push_true, List.append_assoc, kept, if_pos rfl, kept, if_pos rfl, ← List.filter_append]
      rfl

/-! ## What the loop returns -/

/-- **The loop returns.** A turn more than there are characters is enough for it, and it adds the
tokens of the rest of the string, in their order. -/
theorem loop_eq (tok : List Char) (ignoreEmpty : Bool) {turns : ℕ} {it1 : List Char}
    (h : it1.length < turns) (sepStrings : List (List Char)) :
    loop tok ignoreEmpty turns it1 sepStrings =
      some (sepStrings ++ kept ignoreEmpty (it1.splitOnP (isSeparator tok))) := by
  induction turns generalizing it1 sepStrings with
  | zero => exact absurd h (Nat.not_lt_zero _)
  | succ turns ih =>
      unfold loop
      rcases hrest : it1.dropWhile (!isSeparator tok ·) with - | ⟨c, rest⟩
      · rw [splitOnP_of_dropWhile_nil hrest, ← push_append_kept]
        simp [kept]
      · have hlen : rest.length < turns := by
          have hle := (List.dropWhile_suffix (!isSeparator tok ·) (l := it1)).length_le
          rw [hrest, List.length_cons] at hle
          exact Nat.lt_of_succ_le (hle.trans (Nat.le_of_lt_succ h))
        rw [splitOnP_of_dropWhile_cons hrest, ← push_append_kept]
        exact ih hlen _

/-! ## The tokens -/

/-- The tokens, each but the last with its separator behind it. -/
def interleave (tokens : List (List Char)) (separators : List Char) : List Char :=
  (List.zipWith (· ++ ·) tokens (separators.map (fun c => [c]) ++ [[]])).flatten

/-- **Nothing is lost.** The constructor returns for every string that is not empty and all separators.
Without `ignore_empty` the tokens and the separators make up the string, there is a token more than
there are separators, and none has a separator in it; with `ignore_empty`, the empty ones are left
out. -/
theorem tokenize_lossless (str tok : List Char) (hne : str ≠ []) :
    ∃ tokens : List (List Char),
      (∀ turns, str.length < turns → tokenize turns str tok false = some tokens) ∧
      interleave tokens (str.filter (· ∈ tok)) = str ∧
      tokens.length = (str.filter (· ∈ tok)).length + 1 ∧
      (∀ token ∈ tokens, ∀ c ∈ token, c ∉ tok) ∧
      ∀ turns, str.length < turns →
        tokenize turns str tok true = some (tokens.filter (· ≠ [])) := by
  have hsep : isSeparator tok = fun c => decide (c ∈ tok) := by
    funext c
    simp [isSeparator]
  refine ⟨str.splitOnP (isSeparator tok), ?_, ?_, ?_, ?_, ?_⟩
  · intro turns hturns
    rw [tokenize, if_neg hne, loop_eq tok false hturns]
    rfl
  · rw [hsep]
    exact List.splitOnP_spec str
  · rw [hsep]
    exact length_splitOnP _ str
  · intro token htoken c hc
    have hfalse := eq_false_of_mem_splitOnP htoken c hc
    simpa [hsep] using hfalse
  · intro turns hturns
    rw [tokenize, if_neg hne, loop_eq tok true hturns]
    rfl

/-- `",a,,b"` at the commas: an empty token at the beginning and one in the middle. -/
theorem tokenize_lossless_commas :
    ([',', 'a', ',', ',', 'b'] : List Char) ≠ [] ∧
      ∃ tokens : List (List Char),
        (∀ turns, 5 < turns → tokenize turns [',', 'a', ',', ',', 'b'] [','] false = some tokens) ∧
        tokens = [[], ['a'], [], ['b']] := by
  obtain ⟨tokens, hrun, -⟩ := tokenize_lossless [',', 'a', ',', ',', 'b'] [','] (by simp)
  refine ⟨by simp, tokens, hrun, ?_⟩
  have hsix := hrun 6 (by simp)
  rw [show tokenize 6 [',', 'a', ',', ',', 'b'] [','] false =
    some [[], ['a'], [], ['b']] from by decide] at hsix
  exact (Option.some.inj hsix).symm

end StringTokenizer

end CocInside.System
