import CocInside.Lib.Sha1
import CocInside.Lib.Words
import Mathlib.Tactic.IntervalCases

/-!
# SHA1Engine

The message digest engine: bytes come in pieces and stand in a buffer of sixteen words until it is
full, then it is turned over and mixed into the digest.

* `SHA1Engine.updateImpl`, `SHA1Engine.digest`, `SHA1Engine.reset`: the engine.
* `SHA1Engine.run_digests`: whatever the pieces are, each digest is the one of FIPS 180-1 of the bytes
  since the last digest or reset.
* `SHA1Engine.eq_or_collide_of_digestToHex_eq`: two messages with one digest in hexadecimal.

Source: `System/SHA1Engine.h`, `System/SHA1Engine.cpp`, `System/DigestEngine.h`,
`System/DigestEngine.cpp`.
-/

namespace CocInside.System

open CocInside.Lib
open CocInside.Lib.Sha1 (Words)

namespace SHA1Engine

/-! ## The buffer

`data` is sixteen words that are written byte by byte; the machine has the least significant byte
first. -/

/-- Source: `System/SHA1Engine.h`, `BLOCK_SIZE`. -/
def BLOCK_SIZE : ℕ := 64

/-- Source: `System/SHA1Engine.h`, `DIGEST_SIZE`. -/
def DIGEST_SIZE : ℕ := 20

/-- `data[i]`. Source: `System/SHA1Engine.cpp`, `_context.data`. -/
def dataWord (data : Buf 64) (i : ℕ) : UInt32 :=
  UInt32.ofNat (leNat ((data.bytes.drop (4 * i)).take 4))

/-- `data[i] = v`. Source: `System/SHA1Engine.cpp`, `_context.data`. -/
def setDataWord (data : Buf 64) (i : ℕ) (v : UInt32) : Buf 64 :=
  data.overwrite (4 * i) (leBytes 4 v.toNat)

/-- The bytes of one word turned over. Source: `System/SHA1Engine.cpp`, `SHA1Engine::byteReverse`,
the body of the loop. -/
def reverseWord (x : UInt32) : UInt32 :=
  let value := (x <<< 16) ||| (x >>> 16)
  ((value &&& 0xFF00FF00) >>> 8) ||| ((value &&& 0x00FF00FF) <<< 8)

/-- Source: `System/SHA1Engine.cpp`, `SHA1Engine::byteReverse`. -/
def byteReverse (buffer : Buf 64) (byteCount : ℕ) : Buf 64 :=
  (List.range (byteCount / 4)).foldl
    (fun b count => setDataWord b count (reverseWord (dataWord b count))) buffer

/-! ## The rounds -/

/-- Source: `f1`, the rounds 0 to 19. -/
def f1 (x y z : UInt32) : UInt32 := (x &&& y) ||| (~~~x &&& z)
/-- Source: `f2`, the rounds 20 to 39. -/
def f2 (x y z : UInt32) : UInt32 := x ^^^ y ^^^ z
/-- Source: `f3`, the rounds 40 to 59. -/
def f3 (x y z : UInt32) : UInt32 := (x &&& y) ||| (x &&& z) ||| (y &&& z)
/-- Source: `f4`, the rounds 60 to 79. -/
def f4 (x y z : UInt32) : UInt32 := x ^^^ y ^^^ z

/-- Source: `K1`. -/
def K1 : UInt32 := 0x5A827999
/-- Source: `K2`. -/
def K2 : UInt32 := 0x6ED9EBA1
/-- Source: `K3`. -/
def K3 : UInt32 := 0x8F1BBCDC
/-- Source: `K4`. -/
def K4 : UInt32 := 0xCA62C1D6

/-- 32-bit rotate. Source: `System/SHA1Engine.cpp`, `S`. -/
def S (n : ℕ) (x : UInt32) : UInt32 := (x <<< UInt32.ofNat n) ||| (x >>> UInt32.ofNat (32 - n))

/-- The work buffer with one word more computed. Source: `System/SHA1Engine.cpp`, `expand`. -/
def expand (W : List UInt32) (count : ℕ) : List UInt32 :=
  W.set count (S 1 (W.getD (count - 3) 0 ^^^ W.getD (count - 8) 0 ^^^ W.getD (count - 14) 0
    ^^^ W.getD (count - 16) 0))

/-- One sub-round on `A`, `B`, `C`, `D`, `E`. Source: `System/SHA1Engine.cpp`, `subRound1` to
`subRound4`. -/
def subRound (f : UInt32 → UInt32 → UInt32 → UInt32) (K : UInt32) (W : List UInt32) (s : Words)
    (count : ℕ) : Words :=
  let temp := S 5 s.a + f s.b s.c s.d + s.e + W.getD count 0 + K
  ⟨temp, s.a, S 30 s.b, s.c, s.d⟩

/-- Source: `subRound1`. -/
def subRound1 : List UInt32 → Words → ℕ → Words := subRound f1 K1
/-- Source: `subRound2`. -/
def subRound2 : List UInt32 → Words → ℕ → Words := subRound f2 K2
/-- Source: `subRound3`. -/
def subRound3 : List UInt32 → Words → ℕ → Words := subRound f3 K3
/-- Source: `subRound4`. -/
def subRound4 : List UInt32 → Words → ℕ → Words := subRound f4 K4

/-- The words `W[0]`, ..., `W[79]`. Source: `System/SHA1Engine.cpp`, `SHA1Engine::transform`. -/
def workBuffer (data : Buf 64) : List UInt32 :=
  (List.range' 16 64).foldl expand
    ((List.range 16).map (dataWord data) ++ List.replicate 64 0)

/-- Source: `System/SHA1Engine.h`, `SHA1Engine::Context`. -/
structure Context where
  digest : Words
  countLo : UInt32
  countHi : UInt32
  data : Buf 64
  slop : ℕ

/-- Source: `System/SHA1Engine.cpp`, `SHA1Engine::transform`. -/
def transform (c : Context) : Context :=
  let W := workBuffer c.data
  let s := (List.range' 0 20).foldl (subRound1 W) c.digest
  let s := (List.range' 20 20).foldl (subRound2 W) s
  let s := (List.range' 40 20).foldl (subRound3 W) s
  let s := (List.range' 60 20).foldl (subRound4 W) s
  { c with digest := ⟨c.digest.a + s.a, c.digest.b + s.b, c.digest.c + s.c, c.digest.d + s.d,
      c.digest.e + s.e⟩ }

/-! ## The operations -/

/-- The context after a reset, which is also that of a new engine. Source: `System/SHA1Engine.cpp`,
`SHA1Engine::SHA1Engine`, `SHA1Engine::reset`. -/
def reset : Context where
  digest := ⟨0x67452301, 0xEFCDAB89, 0x98BADCFE, 0x10325476, 0xC3D2E1F0⟩
  countLo := 0
  countHi := 0
  slop := 0
  data := Buf.zero 64

/-- One byte of `updateImpl`. Source: `System/SHA1Engine.cpp`, `SHA1Engine::updateImpl`, the body of
the loop. -/
def updateByte (c : Context) (x : UInt8) : Context :=
  let c := { c with data := c.data.overwrite c.slop [x], slop := c.slop + 1 }
  if c.slop = BLOCK_SIZE then
    { transform { c with data := byteReverse c.data BLOCK_SIZE } with slop := 0 }
  else c

/-- `updateImpl(buffer, count)`, where `buffer` has `count` bytes. Source: `System/SHA1Engine.cpp`,
`SHA1Engine::updateImpl`. -/
def updateImpl (c : Context) (buffer : List UInt8) : Context :=
  let count := UInt32.ofNat buffer.length
  let carried := if c.countLo + (count <<< 3) < c.countLo then c.countHi + 1 else c.countHi
  buffer.foldl updateByte
    { c with countLo := c.countLo + (count <<< 3), countHi := carried + (count >>> 29) }

/-- The bytes of the digest. Source: `System/SHA1Engine.cpp`, `SHA1Engine::digest`. -/
def hashBytes (digest : Words) : List UInt8 :=
  (List.range DIGEST_SIZE).map fun count =>
    (digest.toList.getD (count >>> 2) 0 >>> UInt32.ofNat (8 * (3 - (count &&& 0x3)))).toUInt8
      &&& 0xff

/-- The padding up to the length of the message. Source: `System/SHA1Engine.cpp`,
`SHA1Engine::digest`. -/
def padBlock (c : Context) : Context :=
  let count := ((c.countLo >>> 3) &&& 0x3F).toNat
  let c := { c with data := c.data.overwrite count [0x80] }
  let count := count + 1
  if count > 56 then
    let c := { c with data := c.data.overwrite count (List.replicate (64 - count) 0) }
    let c := transform { c with data := byteReverse c.data BLOCK_SIZE }
    { c with data := c.data.overwrite 0 (List.replicate 56 0) }
  else
    { c with data := c.data.overwrite count (List.replicate (56 - count) 0) }

/-- `digest()`: the digest, and the context it leaves. Source: `System/SHA1Engine.cpp`,
`SHA1Engine::digest`. -/
def digest (c : Context) : List UInt8 × Context :=
  let lowBitcount := c.countLo
  let highBitcount := c.countHi
  let c := padBlock c
  let data := byteReverse c.data BLOCK_SIZE
  let data := setDataWord data 14 highBitcount
  let data := setDataWord data 15 lowBitcount
  let c := transform { c with data := data }
  let c := { c with data := byteReverse c.data DIGEST_SIZE }
  (hashBytes c.digest, reset)

/-! ## Words of the buffer -/

/-- A word of the buffer is in front of, in or behind what is written. -/
lemma dataWord_setDataWord (data : Buf 64) {i j : ℕ} (hj : j < 16) (v : UInt32) :
    dataWord (setDataWord data j v) i = if i = j then v else dataWord data i := by
  have hlen := data.length_eq
  have hbytes : (setDataWord data j v).bytes =
      data.bytes.take (4 * j) ++ (leBytes 4 v.toNat ++ data.bytes.drop (4 * j + 4)) := by
    rw [setDataWord, Buf.overwrite_bytes (by simp; omega), length_leBytes, List.append_assoc]
  have hfront : (data.bytes.take (4 * j)).length = 4 * j := by
    rw [List.length_take]
    omega
  rw [dataWord, hbytes]
  rcases lt_trichotomy i j with hlt | rfl | hgt
  · have hword : ((data.bytes.take (4 * j)).drop (4 * i)).take 4
        = (data.bytes.drop (4 * i)).take 4 := by
      rw [List.drop_take, List.take_take, Nat.min_eq_left (by omega)]
    rw [if_neg hlt.ne, List.drop_append_of_le_length (by omega), List.take_append_of_le_length
      (by rw [List.length_drop]; omega), hword, dataWord]
  · rw [if_pos rfl, List.drop_left' hfront, List.take_left' (length_leBytes 4 _),
      leNat_leBytes_of_lt (UInt32.toNat_lt v), UInt32.ofNat_toNat]
  · have hskip : 4 * i = (data.bytes.take (4 * j)).length + (4 + 4 * (i - j - 1)) := by omega
    have hbehind : 4 * j + 4 + 4 * (i - j - 1) = 4 * i := by omega
    rw [if_neg hgt.ne', hskip, List.drop_length_add_append, ← List.drop_drop,
      List.drop_left' (length_leBytes 4 _), List.drop_drop, hbehind, dataWord]

/-- The reversal turns around the first `n` words, and leaves the others. -/
lemma dataWord_byteReverse (data : Buf 64) {i n : ℕ} (hi : i < 16) (hn : n ≤ 16) :
    dataWord (byteReverse data (4 * n)) i =
      if i < n then reverseWord (dataWord data i) else dataWord data i := by
  rw [byteReverse, Nat.mul_div_cancel_left n (by decide)]
  induction n generalizing i with
  | zero => simp
  | succ n ih =>
      rw [List.range_succ, List.foldl_append, List.foldl_cons, List.foldl_nil,
        dataWord_setDataWord _ (by omega), ih hi (by omega), ih (by omega) (by omega),
        if_neg (lt_irrefl n)]
      rcases lt_trichotomy i n with hlt | rfl | hgt
      · rw [if_neg hlt.ne, if_pos hlt, if_pos (by omega)]
      · rw [if_pos rfl, if_pos (Nat.lt_succ_self i)]
      · rw [if_neg hgt.ne', if_neg (by omega), if_neg (by omega)]

/-- Four bytes as the bits of a word. -/
lemma ofNat_leNat (a b c d : UInt8) :
    UInt32.ofNat (leNat [a, b, c, d]) =
      a.toUInt32 ||| (b.toUInt32 <<< 8) ||| (c.toUInt32 <<< 16) ||| (d.toUInt32 <<< 24) := by
  have ha := a.toNat_lt
  have hb := b.toNat_lt
  have hc := c.toNat_lt
  have hd := d.toNat_lt
  have h1 := toNat_or_shiftLeft (x := a.toUInt32) (y := b.toUInt32) (k := 8) (by omega)
    (by rw [UInt8.toNat_toUInt32]; omega) (by rw [UInt8.toNat_toUInt32]; omega)
  rw [UInt8.toNat_toUInt32, UInt8.toNat_toUInt32] at h1
  have h2 := toNat_or_shiftLeft (x := a.toUInt32 ||| b.toUInt32 <<< UInt32.ofNat 8)
    (y := c.toUInt32) (k := 16) (by omega) (by rw [h1]; omega) (by rw [UInt8.toNat_toUInt32]; omega)
  rw [h1, UInt8.toNat_toUInt32] at h2
  have h3 := toNat_or_shiftLeft
    (x := a.toUInt32 ||| b.toUInt32 <<< UInt32.ofNat 8 ||| c.toUInt32 <<< UInt32.ofNat 16)
    (y := d.toUInt32) (k := 24) (by omega) (by rw [h2]; omega) (by rw [UInt8.toNat_toUInt32]; omega)
  rw [h2, UInt8.toNat_toUInt32] at h3
  apply UInt32.toNat_inj.mp
  refine Eq.trans ?_ h3.symm
  rw [UInt32.toNat_ofNat', leNat_cons, leNat_cons, leNat_cons, leNat_cons, leNat_nil]
  omega

/-- A word read with its low byte first, turned around, is the word read the other way. -/
lemma reverseWord_ofNat_leNat (a b c d : UInt8) :
    reverseWord (UInt32.ofNat (leNat [a, b, c, d])) = UInt32.ofNat (leNat [d, c, b, a]) := by
  rw [ofNat_leNat, ofNat_leNat, reverseWord, ← UInt32.toBitVec_inj]
  ext i hi
  interval_cases i <;> simp

/-- A buffer turned over: its words have the most significant byte first. -/
lemma dataWord_byteReverse_eq_word (data : Buf 64) {i : ℕ} (hi : i < 16) :
    dataWord (byteReverse data BLOCK_SIZE) i = Sha1.word data.bytes i := by
  obtain ⟨a, b, c, d, hword⟩ : ∃ a b c d, (data.bytes.drop (4 * i)).take 4 = [a, b, c, d] := by
    have hlen : ((data.bytes.drop (4 * i)).take 4).length = 4 := by
      rw [List.length_take, List.length_drop, data.length_eq]
      omega
    match hlist : (data.bytes.drop (4 * i)).take 4, hlen with
    | [a, b, c, d], _ => exact ⟨a, b, c, d, rfl⟩
  have hturned := dataWord_byteReverse data hi (le_refl 16)
  rw [BLOCK_SIZE, hturned, if_pos hi, dataWord, hword, reverseWord_ofNat_leNat, Sha1.word, hword]
  rfl

/-! ## The rounds are those of the schedule -/

/-- The expansion keeps the length of the work buffer. -/
lemma length_foldl_expand (W : List UInt32) (l : List ℕ) :
    (l.foldl expand W).length = W.length := by
  induction l generalizing W with
  | nil => rfl
  | cons count l ih => rw [List.foldl_cons, ih, expand, List.length_set]

/-- The work buffer while it is filled: what is computed so far is the schedule. -/
lemma getD_foldl_expand (data : Buf 64) {n t : ℕ} (hn : n ≤ 64) (ht : t < 16 + n) :
    ((List.range' 16 n).foldl expand
      ((List.range 16).map (dataWord data) ++ List.replicate 64 0)).getD t 0 =
      Sha1.schedule (dataWord data) t := by
  induction n generalizing t with
  | zero =>
      have hmap : t < ((List.range 16).map (dataWord data)).length := by simpa using ht
      rw [List.range'_zero, List.foldl_nil, Sha1.schedule_of_lt ht, List.getD_append _ _ _ _ hmap,
        List.getD_eq_getElem _ _ hmap]
      simp
  | succ n ih =>
      rw [List.range'_concat, List.foldl_append, List.foldl_cons, List.foldl_nil, Nat.one_mul]
      rcases Nat.lt_succ_iff_lt_or_eq.mp (show t < (16 + n).succ by omega) with hlt | rfl
      · rw [expand, List.getD_eq_getElem?_getD, List.getElem?_set_ne hlt.ne',
          ← List.getD_eq_getElem?_getD, ih (by omega) hlt]
      · rw [expand, ih (by omega) (by omega), ih (by omega) (by omega), ih (by omega) (by omega),
          ih (by omega) (by omega), List.getD_eq_getElem?_getD,
          List.getElem?_set_self (by rw [length_foldl_expand]; simp; omega), Option.getD_some,
          Sha1.schedule_of_le (t := 16 + n) (by omega)]
        rfl

/-- The expanded buffer holds the message schedule. -/
lemma getD_workBuffer (data : Buf 64) {t : ℕ} (ht : t < 80) :
    (workBuffer data).getD t 0 = Sha1.schedule (dataWord data) t :=
  getD_foldl_expand data (le_refl 64) ht

/-- A range of rounds with one function and one constant. -/
lemma foldl_subRound (data : Buf 64) {f : UInt32 → UInt32 → UInt32 → UInt32} {K : UInt32}
    {i n : ℕ} (hlt : i + n ≤ 80) (hf : ∀ t, i ≤ t → t < i + n → Sha1.f t = f ∧ Sha1.k t = K)
    (s : Words) :
    (List.range' i n).foldl (subRound f K (workBuffer data)) s =
      (List.range' i n).foldl (fun s t => Sha1.round t (Sha1.schedule (dataWord data) t) s) s := by
  apply List.foldl_ext
  intro s t ht
  obtain ⟨hle, hlt'⟩ : i ≤ t ∧ t < i + n := by simpa using ht
  obtain ⟨rfl, rfl⟩ := hf t hle hlt'
  rw [subRound, Sha1.round, getD_workBuffer data (by omega)]
  rfl

/-- The eighty rounds are the compression function of the standard on the words of the block. -/
lemma transform_eq (c : Context) :
    transform c = { c with digest := Sha1.compressWords c.digest (dataWord c.data) } := by
  have hrange : List.range 80 =
      List.range' 0 20 ++ List.range' 20 20 ++ List.range' 40 20 ++ List.range' 60 20 := by
    decide
  have h1 : ∀ t, 0 ≤ t → t < 0 + 20 → Sha1.f t = f1 ∧ Sha1.k t = K1 := by
    intro t _ ht
    constructor
    · funext x y z
      rw [Sha1.f, if_pos (by omega), f1]
    · rw [Sha1.k, if_pos (by omega), K1]
  have h2 : ∀ t, 20 ≤ t → t < 20 + 20 → Sha1.f t = f2 ∧ Sha1.k t = K2 := by
    intro t hle ht
    constructor
    · funext x y z
      rw [Sha1.f, if_neg (by omega), if_pos (by omega), f2]
    · rw [Sha1.k, if_neg (by omega), if_pos (by omega), K2]
  have h3 : ∀ t, 40 ≤ t → t < 40 + 20 → Sha1.f t = f3 ∧ Sha1.k t = K3 := by
    intro t hle ht
    constructor
    · funext x y z
      rw [Sha1.f, if_neg (by omega), if_neg (by omega), if_pos (by omega), f3]
    · rw [Sha1.k, if_neg (by omega), if_neg (by omega), if_pos (by omega), K3]
  have h4 : ∀ t, 60 ≤ t → t < 60 + 20 → Sha1.f t = f4 ∧ Sha1.k t = K4 := by
    intro t hle ht
    constructor
    · funext x y z
      rw [Sha1.f, if_neg (by omega), if_neg (by omega), if_neg (by omega), f4]
    · rw [Sha1.k, if_neg (by omega), if_neg (by omega), if_neg (by omega), K4]
  simp only [transform, subRound1, subRound2, subRound3, subRound4]
  rw [foldl_subRound c.data (by decide) h1, foldl_subRound c.data (by decide) h2,
    foldl_subRound c.data (by decide) h3, foldl_subRound c.data (by decide) h4,
    Sha1.compressWords, hrange, List.foldl_append, List.foldl_append, List.foldl_append]

/-- A full buffer, turned over and mixed into the digest. -/
lemma transform_byteReverse (c : Context) :
    transform { c with data := byteReverse c.data BLOCK_SIZE } =
      { c with digest := Sha1.compress c.digest c.data.bytes,
               data := byteReverse c.data BLOCK_SIZE } := by
  have hwords : Sha1.compressWords c.digest (dataWord (byteReverse c.data BLOCK_SIZE)) =
      Sha1.compress c.digest c.data.bytes :=
    Sha1.compressWords_congr c.digest fun t ht => dataWord_byteReverse_eq_word c.data ht
  rw [transform_eq, ← hwords]

/-! ## Updates -/

/-- What a context stands for after the bytes `msg`: the digest of their full blocks, the bytes behind
them in the buffer, and their number in bits. -/
structure Represents (c : Context) (msg : List UInt8) : Prop where
  slop_eq : c.slop = msg.length % 64
  digest_eq : (c.digest, c.data.bytes.take c.slop) =
    msg.foldl (feed Sha1.compress 64) (Sha1.initial, [])
  count_eq : c.countLo.toNat + 2 ^ 32 * c.countHi.toNat = 8 * msg.length % 2 ^ 64

/-- A reset engine has taken no byte. -/
lemma represents_reset : Represents reset [] := by
  refine ⟨rfl, rfl, ?_⟩
  decide

/-- One byte more in the buffer. -/
lemma updateByte_spec {c : Context} (h : c.slop < 64) (x : UInt8) :
    (updateByte c x).slop = (c.slop + 1) % 64 ∧
      ((updateByte c x).digest, (updateByte c x).data.bytes.take (updateByte c x).slop) =
        feed Sha1.compress 64 (c.digest, c.data.bytes.take c.slop) x ∧
      (updateByte c x).countLo = c.countLo ∧ (updateByte c x).countHi = c.countHi := by
  have hlen := c.data.length_eq
  have hfront : (c.data.bytes.take c.slop ++ [x]).length = c.slop + 1 := by
    rw [List.length_append, List.length_singleton, List.length_take]
    omega
  have hbytes : (c.data.overwrite c.slop [x]).bytes =
      c.data.bytes.take c.slop ++ [x] ++ c.data.bytes.drop (c.slop + 1) :=
    Buf.overwrite_bytes (by rw [List.length_singleton]; omega)
  rw [updateByte, feed]
  dsimp only
  rw [hfront]
  rcases Nat.lt_or_eq_of_le (Nat.succ_le_of_lt h) with hlt | hfull
  · rw [if_neg (by rw [BLOCK_SIZE]; omega), if_neg (by omega)]
    refine ⟨(Nat.mod_eq_of_lt hlt).symm, ?_, rfl, rfl⟩
    rw [hbytes, List.take_left' hfront]
  · have hturn := transform_byteReverse
      { c with data := c.data.overwrite c.slop [x], slop := c.slop + 1 }
    dsimp only at hturn
    rw [if_pos (by rw [BLOCK_SIZE]; omega), if_pos (by omega), hturn]
    have hdrop : c.data.bytes.drop (c.slop + 1) = [] := List.drop_eq_nil_of_le (by omega)
    refine ⟨by rw [show c.slop + 1 = 64 from hfull], ?_, rfl, rfl⟩
    rw [hbytes, hdrop, List.append_nil, List.take_zero]

/-- All the bytes of a piece. -/
lemma foldl_updateByte_spec {c : Context} (h : c.slop < 64) (buffer : List UInt8) :
    (buffer.foldl updateByte c).slop = (c.slop + buffer.length) % 64 ∧
      ((buffer.foldl updateByte c).digest,
        (buffer.foldl updateByte c).data.bytes.take (buffer.foldl updateByte c).slop) =
        buffer.foldl (feed Sha1.compress 64) (c.digest, c.data.bytes.take c.slop) ∧
      (buffer.foldl updateByte c).countLo = c.countLo ∧
      (buffer.foldl updateByte c).countHi = c.countHi := by
  induction buffer generalizing c with
  | nil => exact ⟨(Nat.mod_eq_of_lt h).symm, rfl, rfl, rfl⟩
  | cons x buffer ih =>
      obtain ⟨hslop, hdigest, hlo, hhi⟩ := updateByte_spec h x
      obtain ⟨ihslop, ihdigest, ihlo, ihhi⟩ :=
        ih (c := updateByte c x) (by rw [hslop]; exact Nat.mod_lt _ (by decide))
      simp only [List.foldl_cons, List.length_cons]
      refine ⟨?_, ?_, ihlo.trans hlo, ihhi.trans hhi⟩
      · rw [ihslop, hslop, Nat.mod_add_mod, Nat.add_assoc, Nat.add_comm 1]
      · rw [ihdigest, hdigest]

/-- The two words of the count, with the carry. -/
lemma count_add (lo hi : UInt32) {n : ℕ} (hn : n < 2 ^ 32) :
    (lo + (UInt32.ofNat n <<< 3)).toNat + 2 ^ 32 *
      ((if lo + (UInt32.ofNat n <<< 3) < lo then hi + 1 else hi) + (UInt32.ofNat n >>> 29)).toNat =
      (lo.toNat + 2 ^ 32 * hi.toNat + 8 * n) % 2 ^ 64 := by
  have hn' : (UInt32.ofNat n).toNat = n := by rw [UInt32.toNat_ofNat', Nat.mod_eq_of_lt hn]
  have hlow : (UInt32.ofNat n <<< 3).toNat = 8 * n % 2 ^ 32 := by
    rw [UInt32.toNat_shiftLeft, hn', Nat.shiftLeft_eq, Nat.mul_comm]
    rfl
  have hhigh : (UInt32.ofNat n >>> 29).toNat = 8 * n / 2 ^ 32 := by
    rw [UInt32.toNat_shiftRight, hn', Nat.shiftRight_eq_div_pow]
    show n / 2 ^ 29 = _
    omega
  have hlo := lo.toNat_lt
  have hhi := hi.toNat_lt
  have hcond : lo + (UInt32.ofNat n <<< 3) < lo ↔ 2 ^ 32 ≤ lo.toNat + 8 * n % 2 ^ 32 := by
    rw [UInt32.lt_iff_toNat_lt, UInt32.toNat_add, hlow]
    omega
  split_ifs with hcarry
  · rw [UInt32.toNat_add, UInt32.toNat_add, UInt32.toNat_add, hlow, hhigh]
    have := hcond.mp hcarry
    show _ + 2 ^ 32 * (((hi.toNat + 1) % 2 ^ 32 + _) % 2 ^ 32) = _
    omega
  · rw [UInt32.toNat_add, UInt32.toNat_add, hlow, hhigh]
    have := mt hcond.mpr hcarry
    omega

/-- A piece more. -/
lemma Represents.updateImpl {c : Context} {msg buffer : List UInt8} (h : Represents c msg)
    (hbuffer : buffer.length < 2 ^ 32) : Represents (updateImpl c buffer) (msg ++ buffer) := by
  have hslop : c.slop < 64 := by
    rw [h.slop_eq]
    exact Nat.mod_lt _ (by decide)
  obtain ⟨hs, hd, hlo, hhi⟩ := foldl_updateByte_spec (c := { c with
    countLo := c.countLo + (UInt32.ofNat buffer.length <<< 3)
    countHi := (if c.countLo + (UInt32.ofNat buffer.length <<< 3) < c.countLo then c.countHi + 1
      else c.countHi) + (UInt32.ofNat buffer.length >>> 29) }) hslop buffer
  rw [SHA1Engine.updateImpl]
  dsimp only at hs hd hlo hhi ⊢
  refine ⟨?_, ?_, ?_⟩
  · rw [hs, h.slop_eq, List.length_append, Nat.mod_add_mod]
  · rw [hd, h.digest_eq, List.foldl_append]
  · rw [hlo, hhi, count_add _ _ hbuffer, h.count_eq, List.length_append, Nat.mod_add_mod,
      Nat.mul_add]

/-! ## The digest -/

/-- The number of bytes in the buffer, read off the count of bits. -/
lemma Represents.count_slop {c : Context} {msg : List UInt8} (h : Represents c msg) :
    ((c.countLo >>> 3) &&& 0x3F).toNat = c.slop := by
  have hcount := h.count_eq
  have hlo := c.countLo.toNat_lt
  have hand : ((c.countLo >>> 3) &&& 0x3F).toNat = c.countLo.toNat / 2 ^ 3 % 2 ^ 6 := by
    rw [UInt32.toNat_and, UInt32.toNat_shiftRight, Nat.shiftRight_eq_div_pow]
    exact Nat.and_two_pow_sub_one_eq_mod _ 6
  rw [hand, h.slop_eq]
  omega

/-- The front of a buffer after a copy behind it. -/
lemma take_overwrite (data : Buf 64) (off : ℕ) (bs : List UInt8) (h : off + bs.length ≤ 64) :
    (data.overwrite off bs).bytes.take (off + bs.length) = data.bytes.take off ++ bs := by
  have hlen := data.length_eq
  rw [Buf.overwrite_bytes h]
  apply List.take_left'
  rw [List.length_append, List.length_take]
  omega

/-- The buffer after the first byte of the padding and `n` zeros. -/
lemma take_padding (data : Buf 64) (slop n : ℕ) (h : slop + 1 + n ≤ 64) :
    ((data.overwrite slop [0x80]).overwrite (slop + 1) (List.replicate n 0)).bytes.take
      (slop + 1 + n) = data.bytes.take slop ++ 0x80 :: List.replicate n 0 := by
  have hbit := take_overwrite data slop [0x80]
    (by rw [List.length_singleton]; omega)
  have hfill := take_overwrite (data.overwrite slop [0x80]) (slop + 1) (List.replicate n 0)
    (by rw [List.length_replicate]; omega)
  rw [List.length_singleton] at hbit
  rw [List.length_replicate, hbit, List.append_assoc] at hfill
  exact hfill

/-- No place for the length in the block: the zeros fill it, and 56 more stand in the next. -/
lemma padBlock_of_lt {c : Context} (h : c.slop < 64)
    (hcount : ((c.countLo >>> 3) &&& 0x3F).toNat = c.slop) (htwo : 56 < c.slop + 1) :
    (padBlock c).digest = Sha1.compress c.digest
        (c.data.bytes.take c.slop ++ 0x80 :: List.replicate (64 - (c.slop + 1)) 0) ∧
      (padBlock c).data.bytes.take 56 = List.replicate 56 0 := by
  have hfirst := take_padding c.data c.slop (64 - (c.slop + 1)) (by omega)
  rw [show c.slop + 1 + (64 - (c.slop + 1)) = 64 by omega,
    List.take_of_length_le (Buf.length_eq _).le] at hfirst
  have hturn := transform_byteReverse { c with
    data := (c.data.overwrite c.slop [0x80]).overwrite (c.slop + 1)
      (List.replicate (64 - (c.slop + 1)) 0) }
  dsimp only at hturn
  rw [padBlock]
  dsimp only
  rw [hcount, if_pos htwo, hturn, ← hfirst]
  refine ⟨rfl, ?_⟩
  rw [Buf.take_overwrite_zero (by simp) (by simp), List.take_of_length_le (by simp)]

/-- Place for the length. -/
lemma padBlock_of_le {c : Context} (hcount : ((c.countLo >>> 3) &&& 0x3F).toNat = c.slop)
    (hone : c.slop + 1 ≤ 56) :
    (padBlock c).digest = c.digest ∧
      (padBlock c).data.bytes.take 56 =
        c.data.bytes.take c.slop ++ 0x80 :: List.replicate (56 - (c.slop + 1)) 0 := by
  have hfill := take_padding c.data c.slop (56 - (c.slop + 1)) (by omega)
  rw [show c.slop + 1 + (56 - (c.slop + 1)) = 56 by omega] at hfill
  rw [padBlock]
  dsimp only
  rw [hcount, if_neg (not_lt.mpr hone)]
  exact ⟨rfl, hfill⟩

/-- The padding in the buffer, up to the place of the length: with the length behind it, it is fed
like any bytes. -/
lemma padBlock_spec {c : Context} (h : c.slop < 64)
    (hcount : ((c.countLo >>> 3) &&& 0x3F).toNat = c.slop) {last : List UInt8}
    (hlast : last.length = 8) :
    (0x80 :: List.replicate ((119 - c.slop) % 64) 0 ++ last).foldl (feed Sha1.compress 64)
        (c.digest, c.data.bytes.take c.slop) =
      (Sha1.compress (padBlock c).digest ((padBlock c).data.bytes.take 56 ++ last), []) := by
  have htake : (c.data.bytes.take c.slop).length = c.slop := by
    rw [List.length_take, c.data.length_eq, Nat.min_eq_left h.le]
  rcases Nat.lt_or_ge 56 (c.slop + 1) with htwo | hone
  · obtain ⟨hdigest, hdata⟩ := padBlock_of_lt h hcount htwo
    have hsplit : (0x80 :: List.replicate ((119 - c.slop) % 64) 0 ++ last : List UInt8) =
        (0x80 :: List.replicate (64 - (c.slop + 1)) 0) ++ (List.replicate 56 0 ++ last) := by
      rw [show (119 - c.slop) % 64 = 64 - (c.slop + 1) + 56 by omega, List.replicate_add,
        ← List.cons_append, List.append_assoc]
    have hfirst : (c.data.bytes.take c.slop).length +
        (0x80 :: List.replicate (64 - (c.slop + 1)) 0 : List UInt8).length = 64 := by
      rw [htake, List.length_cons, List.length_replicate]
      omega
    have hsecond : ([] : List UInt8).length + (List.replicate 56 0 ++ last).length = 64 := by
      rw [List.length_append, List.length_replicate, hlast, List.length_nil]
    rw [hsplit, List.foldl_append, foldl_feed_of_eq (by omega) hfirst,
      foldl_feed_of_eq (by decide) hsecond, List.nil_append, hdigest, hdata]
  · obtain ⟨hdigest, hdata⟩ := padBlock_of_le hcount hone
    have hwhole : (c.data.bytes.take c.slop).length +
        (0x80 :: List.replicate (56 - (c.slop + 1)) 0 ++ last : List UInt8).length = 64 := by
      rw [htake, List.length_append, List.length_cons, List.length_replicate, hlast]
      omega
    rw [show (119 - c.slop) % 64 = 56 - (c.slop + 1) by omega, foldl_feed_of_eq (by omega) hwhole,
      hdigest, hdata, List.append_assoc]

/-- The last block: the bytes turned over, and the length in its last two words. -/
lemma dataWord_lengthWords (data : Buf 64) (n : ℕ) {i : ℕ} (hi : i < 16) :
    dataWord (setDataWord (setDataWord (byteReverse data BLOCK_SIZE) 14
      (UInt32.ofNat (8 * n / 2 ^ 32))) 15 (UInt32.ofNat (8 * n))) i =
      Sha1.word (data.bytes.take 56 ++ Sha1.lengthBytes n) i := by
  have hfront : (data.bytes.take 56).length = 4 * 14 := by
    rw [List.length_take, data.length_eq]
    rfl
  obtain ⟨hhigh, hlow⟩ := Sha1.word_lengthBytes n
  rw [dataWord_setDataWord _ (by decide), dataWord_setDataWord _ (by decide),
    dataWord_byteReverse_eq_word data hi]
  split_ifs with h15 h14
  · rw [h15, ← hlow, ← Sha1.word_append_right hfront]
  · rw [h14, ← hhigh, ← Sha1.word_append_right hfront]
  · rw [Sha1.word_append_left (by omega)]
    conv_lhs => rw [← List.take_append_drop 56 data.bytes]
    rw [Sha1.word_append_left (by omega)]

/-- A byte of a word, and the number above it. -/
lemma toUInt8_shiftRight (x : UInt32) {k : ℕ} (hk : k < 32) :
    (x >>> UInt32.ofNat k).toUInt8 &&& 0xff = UInt8.ofNat (x.toNat / 2 ^ k) := by
  have hmask : ∀ y : UInt8, y &&& 0xff = y := by
    intro y
    apply UInt8.toNat_inj.mp
    rw [UInt8.toNat_and]
    exact Nat.and_two_pow_sub_one_of_lt_two_pow y.toNat_lt
  have hshift : (UInt32.ofNat k).toNat % 32 = k := by
    rw [UInt32.toNat_ofNat']
    omega
  rw [hmask]
  apply UInt8.toNat_inj.mp
  rw [UInt32.toNat_toUInt8, UInt32.toNat_shiftRight, hshift, Nat.shiftRight_eq_div_pow,
    UInt8.toNat_ofNat']

/-- The digest is written with the high byte of each word first. -/
lemma hashBytes_eq (w : Words) : hashBytes w = w.toBytes := by
  have hword : ∀ x : UInt32, (leBytes 4 x.toNat).reverse =
      [(x >>> UInt32.ofNat 24).toUInt8 &&& 0xff, (x >>> UInt32.ofNat 16).toUInt8 &&& 0xff,
        (x >>> UInt32.ofNat 8).toUInt8 &&& 0xff, (x >>> UInt32.ofNat 0).toUInt8 &&& 0xff] := by
    intro x
    rw [toUInt8_shiftRight x (by decide), toUInt8_shiftRight x (by decide),
      toUInt8_shiftRight x (by decide), toUInt8_shiftRight x (by decide)]
    simp [leBytes, Nat.div_div_eq_div_mul]
  simp only [Words.toBytes, Words.toList, List.flatMap_cons, List.flatMap_nil, hword]
  rfl

/-- **The digest** of the bytes so far. -/
lemma Represents.digest {c : Context} {msg : List UInt8} (h : Represents c msg) :
    SHA1Engine.digest c = (Sha1.hash msg, reset) := by
  have hslop : c.slop < 64 := by
    rw [h.slop_eq]
    exact Nat.mod_lt _ (by decide)
  have hcount := h.count_eq
  have hlo := c.countLo.toNat_lt
  have hhi := c.countHi.toNat_lt
  have hlow : c.countLo = UInt32.ofNat (8 * msg.length) := by
    apply UInt32.toNat_inj.mp
    rw [UInt32.toNat_ofNat']
    omega
  have hhigh : c.countHi = UInt32.ofNat (8 * msg.length / 2 ^ 32) := by
    apply UInt32.toNat_inj.mp
    rw [UInt32.toNat_ofNat']
    omega
  have hblocks : ((blocks 64 (Sha1.pad msg)).foldl Sha1.compress Sha1.initial, []) =
      (Sha1.compress (padBlock c).digest
        ((padBlock c).data.bytes.take 56 ++ Sha1.lengthBytes msg.length), ([] : List UInt8)) := by
    rw [← foldl_feed_blocks (by decide) (Sha1.length_pad_mod msg), Sha1.pad, List.foldl_append,
      ← h.digest_eq, Sha1.padding, ← h.slop_eq,
      padBlock_spec hslop h.count_slop (Sha1.length_lengthBytes _)]
  have hwords := Sha1.compressWords_congr (padBlock c).digest
    fun i hi => dataWord_lengthWords (padBlock c).data msg.length hi
  rw [SHA1Engine.digest]
  dsimp only
  rw [transform_eq, hashBytes_eq, Sha1.hash, (Prod.mk.inj hblocks).1]
  dsimp only
  rw [hlow, hhigh, hwords, Sha1.compress]

/-! ## Runs -/

/-- A call on the engine. `update(data, length)` is given `length` bytes, a number of 32 bits. -/
inductive Call where
  | update (buffer : { l : List UInt8 // l.length < 2 ^ 32 })
  | updateChar (data : UInt8)
  | updateString (data : List UInt8)
  | digest
  | reset

/-- What a call does, and the digest it returns. The length of a string is cut to 32 bits. Source:
`System/DigestEngine.h`, `DigestEngine::update`. -/
def call (c : Context) : Call → Context × Option (List UInt8)
  | .update buffer => (updateImpl c buffer.1, none)
  | .updateChar data => (updateImpl c [data], none)
  | .updateString data => (updateImpl c (data.take (data.length % 2 ^ 32)), none)
  | .digest => ((SHA1Engine.digest c).2, some (SHA1Engine.digest c).1)
  | .reset => (SHA1Engine.reset, none)

/-- The digests that a run of calls returns. -/
def run (c : Context) : List Call → List (List UInt8)
  | [] => []
  | k :: ks => (call c k).2.toList ++ run (call c k).1 ks

/-- The digests to expect: of the bytes since the last digest or reset. -/
def expected (msg : List UInt8) : List Call → List (List UInt8)
  | [] => []
  | .update buffer :: ks => expected (msg ++ buffer.1) ks
  | .updateChar data :: ks => expected (msg ++ [data]) ks
  | .updateString data :: ks => expected (msg ++ data.take (data.length % 2 ^ 32)) ks
  | .digest :: ks => Sha1.hash msg :: expected [] ks
  | .reset :: ks => expected [] ks

/-- Every digest of a run of calls is that of the bytes since the last reset. By induction on the
calls. -/
lemma Represents.run {c : Context} {msg : List UInt8} (h : Represents c msg) (ks : List Call) :
    SHA1Engine.run c ks = expected msg ks := by
  induction ks generalizing c msg with
  | nil => rfl
  | cons k ks ih =>
      cases k with
      | update buffer => exact ih (h.updateImpl buffer.2)
      | updateChar data => exact ih (h.updateImpl (by simp))
      | updateString data =>
          apply ih (h.updateImpl ?_)
          rw [List.length_take]
          exact lt_of_le_of_lt (Nat.min_le_left _ _) (Nat.mod_lt _ (by decide))
      | digest =>
          have hrest := ih represents_reset
          simp only [SHA1Engine.run, call, h.digest, hrest, expected]
          rfl
      | reset => exact ih represents_reset

/-- **The digests of a run.** However the bytes are cut into pieces, over any calls of a new engine,
each digest is the one of FIPS 180-1 of the bytes since the last digest or reset. -/
theorem run_digests (ks : List Call) : run reset ks = expected [] ks :=
  represents_reset.run ks

/-! ## Hexadecimal -/

/-- The digits of a byte. Source: `System/DigestEngine.cpp`, `DigestEngine::digestToHex`, the body
of the loop. -/
def hexDigits (c : UInt8) : List Char :=
  let digits := "0123456789abcdef".toList
  [digits.getD ((c >>> 4) &&& 0xF).toNat '0', digits.getD (c &&& 0xF).toNat '0']

/-- Source: `System/DigestEngine.cpp`, `DigestEngine::digestToHex`. -/
def digestToHex (bytes : List UInt8) : List Char := bytes.flatMap hexDigits

/-- Source: `System/SHA1Engine.cpp`, `SHA1Engine::digestLength`. -/
def digestLength : ℕ := DIGEST_SIZE

/-- A digest has 20 bytes. -/
lemma length_digest (c : Context) : (digest c).1.length = digestLength := by
  simp [digest, hashBytes, digestLength]

/-- A byte is known from its digits. -/
lemma hexDigits_injective : Function.Injective hexDigits := by
  have hdigit : ∀ i < 16, ∀ j < 16, "0123456789abcdef".toList.getD i '0' =
      "0123456789abcdef".toList.getD j '0' → i = j := by
    decide
  intro x y h
  have hhigh : ∀ c : UInt8, ((c >>> 4) &&& 0xF).toNat = c.toNat / 2 ^ 4 := by
    intro c
    have := c.toNat_lt
    rw [UInt8.toNat_and, UInt8.toNat_shiftRight, Nat.shiftRight_eq_div_pow]
    refine (Nat.and_two_pow_sub_one_eq_mod _ 4).trans (Nat.mod_eq_of_lt ?_)
    show c.toNat / 2 ^ 4 < 2 ^ 4
    omega
  have hlow : ∀ c : UInt8, (c &&& 0xF).toNat = c.toNat % 2 ^ 4 := by
    intro c
    rw [UInt8.toNat_and]
    exact Nat.and_two_pow_sub_one_eq_mod _ 4
  have hx := x.toNat_lt
  have hy := y.toNat_lt
  simp only [hexDigits, hhigh, hlow, List.cons.injEq, and_true] at h
  have h1 := hdigit _ (by omega) _ (by omega) h.1
  have h2 := hdigit _ (by omega) _ (by omega) h.2
  apply UInt8.toNat_inj.mp
  omega

/-- Bytes are known from their digits. -/
lemma digestToHex_injective : Function.Injective digestToHex := by
  intro bs
  induction bs with
  | nil =>
      intro cs h
      cases cs with
      | nil => rfl
      | cons c cs => simp [digestToHex, hexDigits] at h
  | cons b bs ih =>
      intro cs h
      cases cs with
      | nil => simp [digestToHex, hexDigits] at h
      | cons c cs =>
          simp only [digestToHex, List.flatMap_cons] at h
          obtain ⟨hdigits, hrest⟩ := List.append_inj h rfl
          rw [hexDigits_injective hdigits, ih hrest]

/-- The digest of a message that comes in pieces. -/
lemma digest_foldl_updateImpl (pieces : List { l : List UInt8 // l.length < 2 ^ 32 }) :
    (digest (pieces.foldl (fun c p => updateImpl c p.1) reset)).1 =
      Sha1.hash (pieces.map Subtype.val).flatten := by
  have hrep : ∀ (c : Context) (msg : List UInt8), Represents c msg →
      Represents (pieces.foldl (fun c p => updateImpl c p.1) c)
        (msg ++ (pieces.map Subtype.val).flatten) := by
    induction pieces with
    | nil => simp
    | cons p ps ih =>
        intro c msg h
        rw [List.foldl_cons, List.map_cons, List.flatten_cons, ← List.append_assoc]
        exact ih _ _ (h.updateImpl p.2)
  rw [(hrep reset [] represents_reset).digest, List.nil_append]

example : digestToHex (digest (updateImpl reset [97, 98, 99])).1 =
    "a9993e364706816aba3e25717850c26c9cd0d89d".toList := by decide +kernel

/-- **One digest.** Two messages with one digest in hexadecimal, in whatever pieces they came, are the
same, or the compression function collides on two of their blocks. -/
theorem eq_or_collide_of_digestToHex_eq
    (pieces pieces' : List { l : List UInt8 // l.length < 2 ^ 32 })
    (hlen : (pieces.map Subtype.val).flatten.length < 2 ^ 61)
    (hlen' : (pieces'.map Subtype.val).flatten.length < 2 ^ 61)
    (h : digestToHex (digest (pieces.foldl (fun c p => updateImpl c p.1) reset)).1 =
      digestToHex (digest (pieces'.foldl (fun c p => updateImpl c p.1) reset)).1) :
    (pieces.map Subtype.val).flatten = (pieces'.map Subtype.val).flatten ∨
      Collide Sha1.compress Sha1.initial
        (blocks 64 (Sha1.pad (pieces.map Subtype.val).flatten))
        (blocks 64 (Sha1.pad (pieces'.map Subtype.val).flatten)) := by
  have hhash := digestToHex_injective h
  rw [digest_foldl_updateImpl, digest_foldl_updateImpl] at hhash
  exact Sha1.eq_or_collide hlen hlen' hhash

/-- Two pieces, and the same bytes in one. -/
theorem eq_or_collide_of_digestToHex_eq_pieces :
    ([[97], [98]] : List (List UInt8)).flatten = [[97, 98]].flatten ∨
      Collide Sha1.compress Sha1.initial (blocks 64 (Sha1.pad [97, 98]))
        (blocks 64 (Sha1.pad [97, 98])) :=
  eq_or_collide_of_digestToHex_eq [⟨[97], by decide⟩, ⟨[98], by decide⟩] [⟨[97, 98], by decide⟩]
    (by decide) (by decide) (by rw [digest_foldl_updateImpl, digest_foldl_updateImpl]; rfl)

end SHA1Engine

end CocInside.System
