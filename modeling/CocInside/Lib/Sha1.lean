import CocInside.Lib.BlockHash
import CocInside.Lib.Bytes

/-!
# SHA-1

The message digest of FIPS 180-1, over whole messages.

* `compress`: one block of 64 bytes into the five words of the digest.
* `pad`, `hash`: the padded message and its digest.
* `eq_or_collide`: messages with one digest are the same, or `compress` collides on them.
-/

namespace CocInside.Lib.Sha1

/-! ## The compression function -/

/-- The five words of the digest. -/
@[ext] structure Words where
  a : UInt32
  b : UInt32
  c : UInt32
  d : UInt32
  e : UInt32
  deriving DecidableEq, Repr

/-- The five words in their order. -/
def Words.toList (w : Words) : List UInt32 := [w.a, w.b, w.c, w.d, w.e]

/-- The bytes of the digest: each word's most significant byte first. -/
def Words.toBytes (w : Words) : List UInt8 := w.toList.flatMap fun x => (leBytes 4 x.toNat).reverse

/-- Rotation to the left. -/
def rotl (n : ℕ) (x : UInt32) : UInt32 := x <<< UInt32.ofNat n ||| x >>> UInt32.ofNat (32 - n)

/-- The function of round `t`. -/
def f (t : ℕ) (x y z : UInt32) : UInt32 :=
  if t < 20 then (x &&& y) ||| (~~~x &&& z)
  else if t < 40 then x ^^^ y ^^^ z
  else if t < 60 then (x &&& y) ||| (x &&& z) ||| (y &&& z)
  else x ^^^ y ^^^ z

/-- The constant of round `t`. -/
def k (t : ℕ) : UInt32 :=
  if t < 20 then 0x5A827999
  else if t < 40 then 0x6ED9EBA1
  else if t < 60 then 0x8F1BBCDC
  else 0xCA62C1D6

/-- The word at place `t` of a block, most significant byte first. -/
def word (block : List UInt8) (t : ℕ) : UInt32 :=
  UInt32.ofNat (leNat ((block.drop (4 * t)).take 4).reverse)

/-- The message schedule. -/
def schedule (m : ℕ → UInt32) (t : ℕ) : UInt32 :=
  if t < 16 then m t
  else rotl 1 (schedule m (t - 3) ^^^ schedule m (t - 8) ^^^ schedule m (t - 14)
    ^^^ schedule m (t - 16))

/-- Round `t` with the word `w` of the schedule. -/
def round (t : ℕ) (w : UInt32) (s : Words) : Words :=
  ⟨rotl 5 s.a + f t s.b s.c s.d + s.e + w + k t, s.a, rotl 30 s.b, s.c, s.d⟩

/-- The eighty rounds over the words of a block, added to the digest so far. -/
def compressWords (h : Words) (m : ℕ → UInt32) : Words :=
  let s := (List.range 80).foldl (fun s t => round t (schedule m t) s) h
  ⟨h.a + s.a, h.b + s.b, h.c + s.c, h.d + s.d, h.e + s.e⟩

/-- One block. -/
def compress (h : Words) (block : List UInt8) : Words := compressWords h (word block)

/-- The first sixteen words of the schedule are those of the block. -/
lemma schedule_of_lt {m : ℕ → UInt32} {t : ℕ} (h : t < 16) : schedule m t = m t := by
  rw [schedule, if_pos h]

/-- The recurrence of the schedule. -/
lemma schedule_of_le {m : ℕ → UInt32} {t : ℕ} (h : 16 ≤ t) :
    schedule m t = rotl 1 (schedule m (t - 3) ^^^ schedule m (t - 8) ^^^ schedule m (t - 14)
      ^^^ schedule m (t - 16)) := by
  rw [schedule, if_neg (not_lt.mpr h)]

/-- Only the sixteen words of the block matter. -/
lemma schedule_congr {m m' : ℕ → UInt32} (h : ∀ t < 16, m t = m' t) (t : ℕ) :
    schedule m t = schedule m' t := by
  induction t using Nat.strongRecOn with
  | _ t ih =>
      rcases lt_or_ge t 16 with ht | ht
      · rw [schedule_of_lt ht, schedule_of_lt ht, h t ht]
      · rw [schedule_of_le ht, schedule_of_le ht, ih (t - 3) (by omega), ih (t - 8) (by omega),
          ih (t - 14) (by omega), ih (t - 16) (by omega)]

/-- The compression reads sixteen words of the block. -/
lemma compressWords_congr (w : Words) {m m' : ℕ → UInt32} (h : ∀ t < 16, m t = m' t) :
    compressWords w m = compressWords w m' := by
  have hround : (fun s t => round t (schedule m t) s) = fun s t => round t (schedule m' t) s := by
    funext s t
    rw [schedule_congr h]
  rw [compressWords, compressWords, hround]

/-- A word within the front of a block. -/
lemma word_append_left {p : List UInt8} {t : ℕ} (h : 4 * t + 4 ≤ p.length) (q : List UInt8) :
    word (p ++ q) t = word p t := by
  have hdrop : 4 ≤ (p.drop (4 * t)).length := by
    rw [List.length_drop]
    omega
  rw [word, word, List.drop_append_of_le_length (by omega), List.take_append_of_le_length hdrop]

/-- A word behind it. -/
lemma word_append_right {p : List UInt8} {m : ℕ} (h : p.length = 4 * m) (q : List UInt8) (t : ℕ) :
    word (p ++ q) (m + t) = word q t := by
  rw [word, word, Nat.mul_add, ← h, List.drop_length_add_append]

/-! ## Messages -/

/-- The initial hash value. -/
def initial : Words := ⟨0x67452301, 0xEFCDAB89, 0x98BADCFE, 0x10325476, 0xC3D2E1F0⟩

/-- The length in bits, as the last eight bytes of the message have it. -/
def lengthBytes (n : ℕ) : List UInt8 := (leBytes 8 (8 * n)).reverse

/-- One bit, zeros, and the length. -/
def padding (n : ℕ) : List UInt8 :=
  0x80 :: List.replicate ((119 - n % 64) % 64) 0 ++ lengthBytes n

/-- The message and its padding. -/
def pad (msg : List UInt8) : List UInt8 := msg ++ padding msg.length

/-- The digest of a message. -/
def hash (msg : List UInt8) : List UInt8 :=
  ((blocks 64 (pad msg)).foldl compress initial).toBytes

/-- The length of the message takes eight bytes. -/
@[simp] lemma length_lengthBytes (n : ℕ) : (lengthBytes n).length = 8 := by
  simp [lengthBytes]

/-- A padded message is whole blocks. -/
lemma length_pad_mod (msg : List UInt8) : (pad msg).length % 64 = 0 := by
  simp only [pad, padding, List.length_append, List.length_cons, List.length_replicate,
    length_lengthBytes]
  omega

/-- The two words of the length. -/
lemma word_lengthBytes (n : ℕ) :
    word (lengthBytes n) 0 = UInt32.ofNat (8 * n / 2 ^ 32) ∧
      word (lengthBytes n) 1 = UInt32.ofNat (8 * n) := by
  have hlow : leNat (leBytes 4 (8 * n)) = 8 * n % 2 ^ 32 := leNat_leBytes 4 (8 * n)
  have hhigh : leNat (leBytes 4 (8 * n / 2 ^ 32)) = 8 * n / 2 ^ 32 % 2 ^ 32 :=
    leNat_leBytes 4 (8 * n / 2 ^ 32)
  have hsplit : lengthBytes n =
      (leBytes 4 (8 * n / 2 ^ 32)).reverse ++ (leBytes 4 (8 * n)).reverse := by
    rw [lengthBytes, ← List.reverse_append]
    simp [leBytes, Nat.div_div_eq_div_mul]
  have hlen : ∀ x, ((leBytes 4 x).reverse).length = 4 := by simp
  constructor
  · rw [word, hsplit, Nat.mul_zero, List.drop_zero, List.take_left' (hlen _), List.reverse_reverse,
      hhigh, ← UInt32.toNat_inj]
    simp
  · rw [word, hsplit, Nat.mul_one, List.drop_left' (hlen _), List.take_of_length_le (hlen _).le,
      List.reverse_reverse, hlow, ← UInt32.toNat_inj]
    simp

/-! ## Messages with one digest -/

/-- A word is known by its four bytes. -/
lemma leBytes_injective {x y : UInt32} (h : leBytes 4 x.toNat = leBytes 4 y.toNat) : x = y := by
  have hx := leNat_leBytes_of_lt (k := 4) (UInt32.toNat_lt x)
  rw [h, leNat_leBytes_of_lt (k := 4) (UInt32.toNat_lt y)] at hx
  exact UInt32.toNat_inj.mp hx.symm

/-- The words of a digest are known from its bytes. -/
lemma Words.toBytes_injective : Function.Injective Words.toBytes := by
  intro w v h
  have hcons : ∀ {x y : UInt32} {l l' : List UInt8},
      (leBytes 4 x.toNat).reverse ++ l = (leBytes 4 y.toNat).reverse ++ l' → x = y ∧ l = l' := by
    intro x y l l' happ
    obtain ⟨hfront, hrest⟩ := List.append_inj happ (by simp)
    exact ⟨leBytes_injective (List.reverse_injective hfront), hrest⟩
  simp only [Words.toBytes, Words.toList, List.flatMap_cons] at h
  obtain ⟨ha, h⟩ := hcons h
  obtain ⟨hb, h⟩ := hcons h
  obtain ⟨hc, h⟩ := hcons h
  obtain ⟨hd, h⟩ := hcons h
  obtain ⟨he, -⟩ := hcons h
  exact Words.ext ha hb hc hd he

/-- A padded message has at least one block. -/
lemma blocks_pad_ne_nil (msg : List UInt8) : blocks 64 (pad msg) ≠ [] := by
  intro h
  have hflat := flatten_blocks (by decide) (length_pad_mod msg)
  rw [h, List.flatten_nil, pad, padding] at hflat
  simp at hflat

/-- The last block ends in the length. -/
lemma lengthBytes_suffix_getLast (msg : List UInt8) :
    lengthBytes msg.length <:+ (blocks 64 (pad msg)).getLast (blocks_pad_ne_nil msg) := by
  have hpad : lengthBytes msg.length <:+ pad msg :=
    ⟨msg ++ 0x80 :: List.replicate ((119 - msg.length % 64) % 64) 0, by simp [pad, padding]⟩
  have hlast : (blocks 64 (pad msg)).getLast (blocks_pad_ne_nil msg) <:+ pad msg := by
    refine ⟨(blocks 64 (pad msg)).dropLast.flatten, ?_⟩
    rw [← List.flatten_concat, List.dropLast_append_getLast,
      flatten_blocks (by decide) (length_pad_mod msg)]
  apply List.suffix_of_suffix_length_le hpad hlast
  rw [length_lengthBytes, length_of_mem_blocks (List.getLast_mem _)]
  decide

/-- Below the length that fits in the padding, the length is known from the last block. -/
lemma length_eq_of_getLast_eq {msg msg' : List UInt8} (hmsg : msg.length < 2 ^ 61)
    (hmsg' : msg'.length < 2 ^ 61)
    (h : (blocks 64 (pad msg)).getLast (blocks_pad_ne_nil msg) =
      (blocks 64 (pad msg')).getLast (blocks_pad_ne_nil msg')) : msg.length = msg'.length := by
  have hsuf := lengthBytes_suffix_getLast msg
  rw [h] at hsuf
  have heq : lengthBytes msg.length = lengthBytes msg'.length := by
    apply List.IsSuffix.eq_of_length
    · apply List.suffix_of_suffix_length_le hsuf (lengthBytes_suffix_getLast msg')
      simp
    · simp
  have hbytes := congrArg leNat (List.reverse_injective heq)
  rw [leNat_leBytes_of_lt (by omega), leNat_leBytes_of_lt (by omega)] at hbytes
  omega

/-- **Collisions.** Messages with one digest are the same, or the compression function collides on
them. -/
theorem eq_or_collide {msg msg' : List UInt8} (hmsg : msg.length < 2 ^ 61)
    (hmsg' : msg'.length < 2 ^ 61) (h : hash msg = hash msg') :
    msg = msg' ∨ Collide compress initial (blocks 64 (pad msg)) (blocks 64 (pad msg')) := by
  have hcount : (blocks 64 (pad msg)).getLast (blocks_pad_ne_nil msg) =
      (blocks 64 (pad msg')).getLast (blocks_pad_ne_nil msg') →
      (blocks 64 (pad msg)).length = (blocks 64 (pad msg')).length := by
    intro hlast
    simp only [length_blocks, pad, List.length_append, length_eq_of_getLast_eq hmsg hmsg' hlast]
  rcases eq_or_collide_of_getLast (blocks_pad_ne_nil msg) (blocks_pad_ne_nil msg') hcount
    (Words.toBytes_injective h) with heq | hcol
  · left
    have hlen : msg.length = msg'.length := by
      apply length_eq_of_getLast_eq hmsg hmsg'
      simp only [heq]
    have hflat := congrArg List.flatten heq
    rw [flatten_blocks (by decide) (length_pad_mod msg),
      flatten_blocks (by decide) (length_pad_mod msg')] at hflat
    exact (List.append_inj hflat hlen).1
  · exact .inr hcol

end CocInside.Lib.Sha1
