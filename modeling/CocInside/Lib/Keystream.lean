import Mathlib.Logic.Function.Iterate

/-!
# Ciphers that XOR a key stream

The key stream comes from a state that is advanced before each byte.

* `streamXor`: the text XORed with the stream.
* `streamXor_streamXor`, `streamXor_append`: the cipher undoes itself, and a text can be given in
  pieces.
* `getElem?_streamXor`: which byte of the stream meets which byte of the text.
* `iterate_invariant`: what one step of the state keeps, the whole stream has.
-/

namespace CocInside.Lib

section keystream

variable {S : Type} (next : S → S) (out : S → UInt8)

/-- The text XORed with the key stream that follows the state. -/
def streamXor : S → List UInt8 → List UInt8
  | _, [] => []
  | s, b :: buf => (b ^^^ out (next s)) :: streamXor (next s) buf

/-- The length does not change. -/
@[simp] lemma length_streamXor (s : S) (buf : List UInt8) :
    (streamXor next out s buf).length = buf.length := by
  induction buf generalizing s with
  | nil => rfl
  | cons b buf ih => rw [streamXor, List.length_cons, ih, List.length_cons]

/-- The cipher is its own inverse. -/
lemma streamXor_streamXor (s : S) (buf : List UInt8) :
    streamXor next out s (streamXor next out s buf) = buf := by
  induction buf generalizing s with
  | nil => rfl
  | cons b buf ih => rw [streamXor, streamXor, ih, UInt8.xor_assoc, UInt8.xor_self, UInt8.xor_zero]

/-- A text given in two pieces: the second meets the state that the first leaves. -/
lemma streamXor_append (s : S) (p q : List UInt8) :
    streamXor next out s (p ++ q)
      = streamXor next out s p ++ streamXor next out (next^[p.length] s) q := by
  induction p generalizing s with
  | nil => rfl
  | cons b p ih => rw [List.cons_append, streamXor, ih, streamXor, List.cons_append,
      List.length_cons, Function.iterate_succ_apply]

/-- The first piece does not depend on what follows it. -/
lemma take_streamXor_append (s : S) (p q : List UInt8) :
    (streamXor next out s (p ++ q)).take p.length = streamXor next out s p := by
  rw [streamXor_append, List.take_left' (length_streamXor next out s p)]

/-- Byte `i` of the text meets byte `i` of the stream. -/
lemma getElem?_streamXor (s : S) (buf : List UInt8) (i : ℕ) :
    (streamXor next out s buf)[i]? = buf[i]?.map (· ^^^ out (next^[i + 1] s)) := by
  induction buf generalizing s i with
  | nil => rfl
  | cons b buf ih =>
      cases i with
      | zero => rfl
      | succ i =>
          rw [streamXor, List.getElem?_cons_succ, ih, List.getElem?_cons_succ,
            ← Function.iterate_succ_apply]

/-- A property that a step keeps is a property of every later state. -/
lemma iterate_invariant {p : S → Prop} (hstep : ∀ s, p s → p (next s)) {s : S} (h : p s) (i : ℕ) :
    p (next^[i] s) := by
  induction i generalizing s with
  | zero => exact h
  | succ i ih => exact ih (hstep s h)

end keystream

end CocInside.Lib
