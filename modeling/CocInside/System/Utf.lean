import CocInside.Lib.Characters
import CocInside.Lib.Words
import Mathlib.Tactic.IntervalCases

/-!
# Utf

The conversions between UTF-8, UTF-16 and UTF-32. An iterator is what is left to read; reading behind
the end has no result. Writing returns the units that are written.

* `Utf8.decode`, `Utf8.encode`, `Utf16.decode`, `Utf16.encode`: one character.
* `Utf8.toUtf32_toUtf8`, `Utf16.toUtf32_toUtf16`: what is read back of any code points.
* `Utf8.toUtf32_text`: standard UTF-8, whole or cut in the middle of a character.
* `Utf16.toUtf8_toUtf16_iff`: the texts that survive the way through UTF-16.

Source: `System/Utf.h`, `System/Utf.inl`.
-/

namespace CocInside.System

open CocInside.Lib

/-! ## UTF-8 -/

namespace Utf8

/-- `trailing[first]`. -/
def trailing (first : UInt8) : ℕ :=
  if first < 0xC0 then 0
  else if first < 0xE0 then 1
  else if first < 0xF0 then 2
  else if first < 0xF8 then 3
  else if first < 0xFC then 4
  else 5

/-- What the marker bits of a sequence of each length add up to. Source: `Utf<8>::decode`,
`offsets`. -/
def offsets : List UInt32 := [0x00000000, 0x00003080, 0x000E2080, 0x03C82080, 0xFA082080, 0x82082080]

/-- The marker of the first byte by the length of the sequence. Source: `Utf<8>::encode`,
`firstBytes`. -/
def firstBytes : List UInt8 := [0x00, 0x00, 0xC0, 0xE0, 0xF0, 0xF8, 0xFC]

/-- The cases of the switch from `n` on: a byte is added, and all but the last shifted. -/
def gather : ℕ → UInt32 → List UInt8 → Option (UInt32 × List UInt8)
  | _, _, [] => none
  | 0, output, b :: l => some (output + b.toUInt32, l)
  | n + 1, output, b :: l => gather n ((output + b.toUInt32) <<< 6) l

/-- Source: `Utf<8>::Decode`. -/
def decode (replacement : UInt32) : List UInt8 → Option (UInt32 × List UInt8)
  | [] => none
  | first :: l =>
      let trailingBytes := trailing first
      if trailingBytes < (first :: l).length then
        (gather trailingBytes 0 (first :: l)).map fun r =>
          (r.1 - offsets.getD trailingBytes 0, r.2)
      else
        -- Incomplete character
        some (replacement, [])

/-- The cases of the switch from `n` on: the last byte first. -/
def bytes (bytesToWrite : ℕ) : ℕ → UInt32 → List UInt8 → List UInt8
  | 0, _, written => written
  | 1, input, written => (input ||| (firstBytes.getD bytesToWrite 0).toUInt32).toUInt8 :: written
  | n + 2, input, written =>
      bytes bytesToWrite (n + 1) (input >>> 6) (((input ||| 0x80) &&& 0xBF).toUInt8 :: written)

/-- Source: `Utf<8>::Encode`. -/
def encode (replacement : UInt8) (input : UInt32) : List UInt8 :=
  if input > 0x0010FFFF ∨ input ≥ 0xD800 ∧ input ≤ 0xDBFF then
    -- Invalid character
    if replacement ≠ 0 then [replacement] else []
  else
    let bytesToWrite :=
      if input < 0x80 then 1
      else if input < 0x800 then 2
      else if input < 0x10000 then 3
      else if input ≤ 0x0010FFFF then 4
      else 1
    bytes bytesToWrite bytesToWrite input []

/-- `Count`: `Next` decodes a character. Source: `Utf<8>::Next`, `Utf<8>::Count`. -/
def count (l : List UInt8) : Option ℕ := loop (decode 0) (fun length _ => length + 1) 0 l

end Utf8

/-! ## UTF-16 -/

namespace Utf16

/-- Source: `Utf<16>::Decode`. -/
def decode (replacement : UInt32) : List UInt16 → Option (UInt32 × List UInt16)
  | [] => none
  | first :: l =>
      if first ≥ 0xD800 ∧ first ≤ 0xDBFF then
        match l with
        | second :: l =>
            if second ≥ 0xDC00 ∧ second ≤ 0xDFFF then
              some (((first.toUInt32 - 0xD800) <<< 10) + (second.toUInt32 - 0xDC00) + 0x0010000, l)
            else
              -- Invalid character
              some (replacement, l)
        | [] => some (replacement, [])
      else some (first.toUInt32, l)

/-- Source: `Utf<16>::Encode`. -/
def encode (replacement : UInt16) (input : UInt32) : List UInt16 :=
  if input < 0xFFFF then
    if input ≥ 0xD800 ∧ input ≤ 0xDFFF then
      -- Invalid character (this range is reserved)
      if replacement ≠ 0 then [replacement] else []
    else [input.toUInt16]
  else if input > 0x0010FFFF then
    -- Invalid character (greater than the maximum unicode value)
    if replacement ≠ 0 then [replacement] else []
  else
    let input := input - 0x0010000
    [((input >>> 10) + 0xD800).toUInt16, ((input &&& 0x3FF) + 0xDC00).toUInt16]

/-- `Count`: `Next` decodes a character. Source: `Utf<16>::Next`, `Utf<16>::Count`. -/
def count (l : List UInt16) : Option ℕ := loop (decode 0) (fun length _ => length + 1) 0 l

end Utf16

/-! ## The conversions -/

/-- Source: `Utf<8>::ToUtf32`. -/
def Utf8.toUtf32 (l : List UInt8) : Option (List UInt32) :=
  loop (Utf8.decode 0) (fun output codepoint => output ++ [codepoint]) [] l

/-- Source: `Utf<8>::ToUtf16`. -/
def Utf8.toUtf16 (l : List UInt8) : Option (List UInt16) :=
  loop (Utf8.decode 0) (fun output codepoint => output ++ Utf16.encode 0 codepoint) [] l

/-- Source: `Utf<16>::ToUtf32`. -/
def Utf16.toUtf32 (l : List UInt16) : Option (List UInt32) :=
  loop (Utf16.decode 0) (fun output codepoint => output ++ [codepoint]) [] l

/-- Source: `Utf<16>::ToUtf8`. -/
def Utf16.toUtf8 (l : List UInt16) : Option (List UInt8) :=
  loop (Utf16.decode 0) (fun output codepoint => output ++ Utf8.encode 0 codepoint) [] l

/-- Source: `Utf<32>::ToUtf8`. -/
def Utf32.toUtf8 (l : List UInt32) : List UInt8 :=
  l.foldl (fun output codepoint => output ++ Utf8.encode 0 codepoint) []

/-- Source: `Utf<32>::ToUtf16`. -/
def Utf32.toUtf16 (l : List UInt32) : List UInt16 :=
  l.foldl (fun output codepoint => output ++ Utf16.encode 0 codepoint) []

/-! ## Every loop ends, and nothing is read behind the end -/

/-- A character that is there whole. -/
lemma Utf8.gather_of_lt (n : ℕ) (output : UInt32) {l : List UInt8} (h : n < l.length) :
    ∃ codepoint, Utf8.gather n output l = some (codepoint, l.drop (n + 1)) := by
  induction n generalizing output l with
  | zero =>
      cases l with
      | nil => simp at h
      | cons b l => exact ⟨_, rfl⟩
  | succ n ih =>
      cases l with
      | nil => simp at h
      | cons b l => exact ih _ (Nat.lt_of_succ_lt_succ h)

/-- Every step of the UTF-8 decoder takes at least one byte. -/
lemma Utf8.progress_decode (replacement : UInt32) : Progress (Utf8.decode replacement) := by
  intro first l
  simp only [Utf8.decode]
  split_ifs with hlen
  · obtain ⟨codepoint, hgather⟩ := Utf8.gather_of_lt (Utf8.trailing first) 0 hlen
    rw [hgather]
    refine ⟨_, _, rfl, ?_⟩
    simp
  · exact ⟨_, _, rfl, Nat.zero_le _⟩

/-- Every step of the UTF-16 decoder takes at least one unit. -/
lemma Utf16.progress_decode (replacement : UInt32) : Progress (Utf16.decode replacement) := by
  intro first l
  simp only [Utf16.decode]
  split_ifs with hpair
  · cases l with
    | nil => exact ⟨_, _, rfl, le_refl _⟩
    | cons second l =>
        dsimp only
        split_ifs with hsecond
        · exact ⟨_, _, rfl, Nat.le_succ _⟩
        · exact ⟨_, _, rfl, Nat.le_succ _⟩
  · exact ⟨_, _, rfl, le_refl _⟩

/-! ## The bytes of a code point -/

/-- The bytes of a code point, by its number. -/
def Utf8.numbers (n : ℕ) : List ℕ :=
  if n < 0x80 then [n]
  else if n < 0x800 then [0xC0 + n / 64, 0x80 + n % 64]
  else if n < 0x10000 then [0xE0 + n / 4096, 0x80 + n / 64 % 64, 0x80 + n % 64]
  else [0xF0 + n / 262144, 0x80 + n / 4096 % 64, 0x80 + n / 64 % 64, 0x80 + n % 64]

/-- A byte behind the first. -/
lemma Utf8.toNat_trailing (input : UInt32) :
    ((input ||| 0x80) &&& 0xBF).toUInt8 = UInt8.ofNat (0x80 + input.toNat % 64) := by
  have hbits : (input ||| 0x80) &&& 0xBF = (input &&& 0x3F) ||| ((1 : UInt32) <<< UInt32.ofNat 7) := by
    rw [← UInt32.toBitVec_inj]
    ext i hi
    interval_cases i <;> simp
  have hlow : (input &&& 0x3F).toNat = input.toNat % 64 := by
    rw [UInt32.toNat_and]
    exact Nat.and_two_pow_sub_one_eq_mod _ 6
  apply UInt8.toNat_inj.mp
  rw [hbits, UInt32.toNat_toUInt8,
    toNat_or_shiftLeft (by decide) (by rw [hlow]; omega) (by decide), hlow, UInt8.toNat_ofNat']
  show (_ + 2 ^ 7 * 1) % 256 = _
  omega

/-- The first byte: the mark stands above the bits of the code point. -/
lemma Utf8.toNat_first {first : UInt8} {input : UInt32} {m k : ℕ} (hmark : first.toNat = m <<< k)
    (h : input.toNat < 2 ^ k) :
    (input ||| first.toUInt32).toUInt8 = UInt8.ofNat (first.toNat + input.toNat) := by
  apply UInt8.toNat_inj.mp
  rw [UInt32.toNat_toUInt8, UInt32.toNat_or, UInt8.toNat_toUInt32, UInt8.toNat_ofNat', hmark,
    or_shiftLeft h, Nat.shiftLeft_eq, Nat.mul_comm, Nat.add_comm]

/-- The code points that are not refused. The lower surrogates are among them. -/
def Utf8.Encodable (input : UInt32) : Prop :=
  ¬ (input > 0x0010FFFF ∨ input ≥ 0xD800 ∧ input ≤ 0xDBFF)

instance (input : UInt32) : Decidable (Utf8.Encodable input) :=
  inferInstanceAs (Decidable (¬ _))

/-- What is encoded is at most the last code point. -/
lemma Utf8.Encodable.toNat_le {input : UInt32} (h : Utf8.Encodable input) :
    input.toNat ≤ 0x0010FFFF :=
  UInt32.le_iff_toNat_le.mp (UInt32.not_lt.mp (not_or.mp h).1)

/-- A value that is no scalar writes nothing when there is no replacement byte. -/
lemma Utf8.encode_of_not_encodable {input : UInt32} (h : ¬ Utf8.Encodable input) :
    Utf8.encode 0 input = [] := by
  rw [Utf8.encode, if_pos (not_not.mp h), if_neg (by decide)]

/-- **What is written** for a code point. -/
lemma Utf8.encode_of_encodable {input : UInt32} (replacement : UInt8) (h : Utf8.Encodable input) :
    Utf8.encode replacement input = (Utf8.numbers input.toNat).map UInt8.ofNat := by
  have hmax := h.toNat_le
  have hshift : ∀ x : UInt32, (x >>> 6).toNat = x.toNat / 64 := by
    intro x
    rw [UInt32.toNat_shiftRight, Nat.shiftRight_eq_div_pow]
    rfl
  rw [Utf8.encode, if_neg h, Utf8.numbers]
  simp only [UInt32.lt_iff_toNat_lt, UInt32.le_iff_toNat_le, UInt32.reduceToNat]
  split_ifs with h1 h2 h3
  · simp only [Utf8.bytes, List.map_cons, List.map_nil]
    rw [Utf8.toNat_first (m := 0) (k := 7) rfl h1]
    simp [Utf8.firstBytes]
  · simp only [Utf8.bytes, List.map_cons, List.map_nil, Utf8.toNat_trailing]
    rw [Utf8.toNat_first (m := 6) (k := 5) rfl (by rw [hshift]; omega), hshift]
    rfl
  · simp only [Utf8.bytes, List.map_cons, List.map_nil, Utf8.toNat_trailing]
    rw [Utf8.toNat_first (m := 14) (k := 4) rfl (by rw [hshift, hshift]; omega), hshift, hshift,
      Nat.div_div_eq_div_mul]
    rfl
  · simp only [Utf8.bytes, List.map_cons, List.map_nil, Utf8.toNat_trailing]
    rw [Utf8.toNat_first (m := 30) (k := 3) rfl (by rw [hshift, hshift, hshift]; omega)]
    simp only [hshift, Nat.div_div_eq_div_mul]
    rfl

/-- A character is no surrogate and is at most the last code point. -/
lemma Utf8.toNat_val (c : Char) : c.val.toNat < 0xD800 ∨ 0xDFFF < c.val.toNat ∧
    c.val.toNat < 0x110000 :=
  c.valid

/-- Every character is encoded. -/
lemma Utf8.encodable_val (c : Char) : Utf8.Encodable c.val := by
  have hvalid := Utf8.toNat_val c
  simp only [Utf8.Encodable, UInt32.lt_iff_toNat_lt, UInt32.le_iff_toNat_le, gt_iff_lt, ge_iff_le,
    UInt32.reduceToNat]
  omega

/-- On characters, that is standard UTF-8. -/
lemma Utf8.encode_val (c : Char) (replacement : UInt8) :
    Utf8.encode replacement c.val = String.utf8EncodeChar c := by
  have hmax := (Utf8.encodable_val c).toNat_le
  rw [Utf8.encode_of_encodable replacement (Utf8.encodable_val c), Utf8.numbers,
    String.utf8EncodeChar]
  rcases Nat.lt_or_ge c.val.toNat 0x80 with h1 | h1
  · rw [if_pos h1, if_pos (Nat.le_of_lt_succ h1)]
    rfl
  rcases Nat.lt_or_ge c.val.toNat 0x800 with h2 | h2
  · have htop : c.val.toNat / 64 % 0x20 = c.val.toNat / 64 := Nat.mod_eq_of_lt (by omega)
    rw [if_neg (not_lt.mpr h1), if_pos h2, if_neg (by omega), if_pos (by omega), htop]
    simp only [List.map_cons, List.map_nil, Nat.add_comm]
  rcases Nat.lt_or_ge c.val.toNat 0x10000 with h3 | h3
  · have htop : c.val.toNat / 4096 % 0x10 = c.val.toNat / 4096 := Nat.mod_eq_of_lt (by omega)
    rw [if_neg (not_lt.mpr h1), if_neg (not_lt.mpr h2), if_pos h3, if_neg (by omega),
      if_neg (by omega), if_pos (by omega), htop]
    simp only [List.map_cons, List.map_nil, Nat.add_comm]
  · have htop : c.val.toNat / 262144 % 0x08 = c.val.toNat / 262144 :=
      Nat.mod_eq_of_lt (by omega)
    rw [if_neg (not_lt.mpr h1), if_neg (not_lt.mpr h2), if_neg (not_lt.mpr h3), if_neg (by omega),
      if_neg (by omega), if_neg (by omega), htop]
    simp only [List.map_cons, List.map_nil, Nat.add_comm]

/-! ## Reading back -/

/-- The number of trailing bytes, by the range the first byte is in. -/
lemma Utf8.trailing_ofNat {a : ℕ} (h : a < 256) :
    Utf8.trailing (UInt8.ofNat a) =
      if a < 0xC0 then 0 else if a < 0xE0 then 1 else if a < 0xF0 then 2 else if a < 0xF8 then 3
      else if a < 0xFC then 4 else 5 := by
  simp only [Utf8.trailing, UInt8.lt_iff_toNat_lt, UInt8.toNat_ofNat', Nat.mod_eq_of_lt h,
    UInt8.reduceToNat]

/-- Bytes put together: the ones in front stand above those behind. -/
lemma Utf8.gather_map {l : List ℕ} (n : ℕ) (hn : l.length = n + 1) (v : ℕ) (rest : List UInt8) :
    Utf8.gather n (UInt32.ofNat (64 * v)) (l.map UInt8.ofNat ++ rest) =
      some (UInt32.ofNat (l.foldl (fun v b => 64 * v + b % 256) v), rest) := by
  have hadd : ∀ v b : ℕ, UInt32.ofNat (64 * v) + (UInt8.ofNat b).toUInt32 =
      UInt32.ofNat (64 * v + b % 256) := by
    intro v b
    apply UInt32.toNat_inj.mp
    rw [UInt32.toNat_add, UInt8.toNat_toUInt32, UInt8.toNat_ofNat', UInt32.toNat_ofNat',
      UInt32.toNat_ofNat']
    omega
  have hshift : ∀ v : ℕ, UInt32.ofNat v <<< 6 = UInt32.ofNat (64 * v) := by
    intro v
    apply UInt32.toNat_inj.mp
    rw [UInt32.toNat_shiftLeft, UInt32.toNat_ofNat', UInt32.toNat_ofNat', Nat.shiftLeft_eq]
    show v % 2 ^ 32 * 2 ^ 6 % 2 ^ 32 = _
    omega
  induction n generalizing l v with
  | zero =>
      obtain ⟨b, rfl⟩ := List.length_eq_one_iff.mp hn
      rw [List.map_cons, List.cons_append, Utf8.gather, hadd]
      rfl
  | succ n ih =>
      cases l with
      | nil => cases hn
      | cons b l =>
          rw [List.map_cons, List.cons_append, Utf8.gather, hadd, hshift,
            ih (Nat.succ.inj hn), List.foldl_cons]

/-- The bytes of a code point: the first tells how many there are, and their sum is the code point,
up to the marks. -/
lemma Utf8.numbers_spec {n : ℕ} (h : n ≤ 0x0010FFFF) :
    ∃ a l, Utf8.numbers n = a :: l ∧ Utf8.trailing (UInt8.ofNat a) = l.length ∧
      (a :: l).foldl (fun v b => 64 * v + b % 256) 0 =
        n + (Utf8.offsets.getD l.length 0).toNat := by
  rw [Utf8.numbers]
  split_ifs with h1 h2 h3
  · refine ⟨_, _, rfl, ?_, ?_⟩
    · rw [Utf8.trailing_ofNat (by omega), if_pos (by omega)]
      rfl
    · show 64 * 0 + n % 256 = n + 0
      omega
  · refine ⟨_, _, rfl, ?_, ?_⟩
    · rw [Utf8.trailing_ofNat (by omega), if_neg (by omega), if_pos (by omega)]
      rfl
    · show 64 * (64 * 0 + (0xC0 + n / 64) % 256) + (0x80 + n % 64) % 256 = n + 0x3080
      omega
  · refine ⟨_, _, rfl, ?_, ?_⟩
    · rw [Utf8.trailing_ofNat (by omega), if_neg (by omega), if_neg (by omega), if_pos (by omega)]
      rfl
    · show 64 * (64 * (64 * 0 + (0xE0 + n / 4096) % 256) + (0x80 + n / 64 % 64) % 256) +
        (0x80 + n % 64) % 256 = n + 0xE2080
      omega
  · refine ⟨_, _, rfl, ?_, ?_⟩
    · rw [Utf8.trailing_ofNat (by omega), if_neg (by omega), if_neg (by omega), if_neg (by omega),
        if_pos (by omega)]
      rfl
    · show 64 * (64 * (64 * (64 * 0 + (0xF0 + n / 262144) % 256) + (0x80 + n / 4096 % 64) % 256) +
        (0x80 + n / 64 % 64) % 256) + (0x80 + n % 64) % 256 = n + 0x3C82080
      omega

/-- **Reading a code point back.** -/
lemma Utf8.decode_encode {input : UInt32} (h : Utf8.Encodable input) (r : UInt8)
    (replacement : UInt32) (rest : List UInt8) :
    Utf8.decode replacement (Utf8.encode r input ++ rest) = some (input, rest) := by
  obtain ⟨a, l, hnumbers, htrailing, hsum⟩ := Utf8.numbers_spec h.toNat_le
  have hgather := Utf8.gather_map (l := a :: l) l.length rfl 0 rest
  rw [List.map_cons, List.cons_append, hsum] at hgather
  have hlen : l.length < (UInt8.ofNat a :: (l.map UInt8.ofNat ++ rest)).length := by
    rw [List.length_cons, List.length_append, List.length_map]
    omega
  rw [Utf8.encode_of_encodable r h, hnumbers, List.map_cons, List.cons_append]
  simp only [Utf8.decode, htrailing]
  rw [if_pos hlen]
  refine (congrArg (Option.map _) hgather).trans ?_
  rw [Option.map_some, UInt32.ofNat_add, UInt32.ofNat_toNat, UInt32.ofNat_toNat,
    UInt32.add_sub_cancel]

/-- What is encoded takes at least one byte. -/
lemma Utf8.encode_ne_nil {input : UInt32} (h : Utf8.Encodable input) (r : UInt8) :
    Utf8.encode r input ≠ [] := by
  obtain ⟨a, l, hnumbers, -⟩ := Utf8.numbers_spec h.toNat_le
  rw [Utf8.encode_of_encodable r h, hnumbers]
  exact List.cons_ne_nil _ _

/-- The code points of what is written for one. -/
lemma Utf8.spells_encode (input : UInt32) :
    Spells (Utf8.decode 0) (Utf8.encode 0 input) (if Utf8.Encodable input then [input] else []) := by
  split_ifs with h
  · exact Spells.of_decode (Utf8.progress_decode 0) (Utf8.encode_ne_nil h 0)
      fun rest => Utf8.decode_encode h 0 0 rest
  · rw [Utf8.encode_of_not_encodable h]
    exact Spells.nil

/-- The conversion to UTF-8 encodes code point by code point. -/
lemma Utf32.toUtf8_eq (l : List UInt32) : Utf32.toUtf8 l = l.flatMap (Utf8.encode 0) :=
  List.flatMap_eq_foldl.symm

/-- The conversion from UTF-8 is the character sequence of the decoder. -/
lemma Utf8.toUtf32_eq (l : List UInt8) : Utf8.toUtf32 l = characters (Utf8.decode 0) l := by
  rw [Utf8.toUtf32, loop_append (fun c => [c])]
  simp

/-- **UTF-8 read back.** Of any code points exactly those that are not refused come back. -/
theorem Utf8.toUtf32_toUtf8 (l : List UInt32) :
    Utf8.toUtf32 (Utf32.toUtf8 l) = some (l.filter fun input => Utf8.Encodable input) := by
  have hfilter : (l.filter fun input => Utf8.Encodable input) =
      l.flatMap fun input => if Utf8.Encodable input then [input] else [] := by
    induction l with
    | nil => rfl
    | cons input l ih =>
        rw [List.flatMap_cons, List.filter_cons, ih]
        by_cases h : Utf8.Encodable input <;> simp [h]
  have hspells := Spells.flatMap l fun input _ => Utf8.spells_encode input
  rw [Utf8.toUtf32_eq, Utf32.toUtf8_eq, hspells.characters_eq, hfilter]

/-! ## Standard UTF-8, cut anywhere -/

/-- The beginning of a character is one replacement, at the end of what is read. -/
lemma Utf8.decode_take (c : Char) {k : ℕ} (hk : 0 < k) (hlt : k < (String.utf8EncodeChar c).length)
    (replacement : UInt32) :
    Utf8.decode replacement ((String.utf8EncodeChar c).take k) = some (replacement, []) := by
  have h := Utf8.encodable_val c
  obtain ⟨a, l, hnumbers, htrailing, -⟩ := Utf8.numbers_spec h.toNat_le
  rw [← Utf8.encode_val c 0, Utf8.encode_of_encodable 0 h, hnumbers, List.map_cons] at hlt ⊢
  obtain ⟨k, rfl⟩ := Nat.exists_eq_succ_of_ne_zero hk.ne'
  rw [List.length_cons, List.length_map] at hlt
  simp only [Nat.succ_eq_add_one, List.take_succ_cons, Utf8.decode, htrailing]
  rw [if_neg]
  rw [List.length_cons, List.length_take, List.length_map]
  omega

/-- The standard encoding of a text spells its characters. -/
lemma Utf8.spells_text (t : List Char) :
    Spells (Utf8.decode 0) (t.flatMap String.utf8EncodeChar) (t.map Char.val) := by
  rw [List.map_eq_flatMap]
  refine Spells.flatMap t fun c _ => ?_
  have hone := Utf8.spells_encode c.val
  rwa [if_pos (Utf8.encodable_val c), Utf8.encode_val] at hone

/-- **Texts in UTF-8.** A text is written in standard UTF-8, and standard UTF-8 is read as the text;
if it is cut in the middle of a character, one zero stands for that at the end. -/
theorem Utf8.toUtf32_text (t : List Char) (c : Char) (k : ℕ)
    (hk : k < (String.utf8EncodeChar c).length) :
    Utf32.toUtf8 (t.map Char.val) = t.flatMap String.utf8EncodeChar ∧
      Utf8.toUtf32 (t.flatMap String.utf8EncodeChar ++ (String.utf8EncodeChar c).take k) =
        some (t.map Char.val ++ if k = 0 then [] else [0]) ∧
      Utf8.count (t.flatMap String.utf8EncodeChar ++ (String.utf8EncodeChar c).take k) =
        some (t.length + if k = 0 then 0 else 1) := by
  have hwrite : Utf32.toUtf8 (t.map Char.val) = t.flatMap String.utf8EncodeChar := by
    rw [Utf32.toUtf8_eq, List.flatMap_map]
    exact List.flatMap_congr fun c _ => Utf8.encode_val c 0
  have hread : characters (Utf8.decode 0)
      (t.flatMap String.utf8EncodeChar ++ (String.utf8EncodeChar c).take k) =
        some (t.map Char.val ++ if k = 0 then [] else [0]) := by
    rw [Utf8.spells_text t]
    rcases Nat.eq_zero_or_pos k with rfl | hpos
    · rfl
    · have hne : (String.utf8EncodeChar c).take k ≠ [] := by
        rw [Ne, List.take_eq_nil_iff, not_or]
        exact ⟨hpos.ne', List.ne_nil_of_length_pos (by omega)⟩
      rw [characters_of_decode (Utf8.progress_decode 0) hne (Utf8.decode_take c hpos hk 0),
        if_neg hpos.ne']
      rfl
  refine ⟨hwrite, ?_, ?_⟩
  · rw [Utf8.toUtf32_eq, hread]
  · rw [Utf8.count, loop_count, hread, Option.map_some, List.length_append, List.length_map]
    split_ifs
    · rfl
    · rfl

/-- Two characters, and the first two bytes of a third. -/
theorem Utf8.toUtf32_text_cut :
    Utf8.toUtf32 ((['a', 'ß'].flatMap String.utf8EncodeChar) ++ (String.utf8EncodeChar '€').take 2) =
      some (['a', 'ß'].map Char.val ++ [0]) :=
  (Utf8.toUtf32_text ['a', 'ß'] '€' 2 (by decide)).2.1

/-! ## UTF-16 read back -/

/-- What is read of the units that are written for one code point. The last code point of one unit is
taken for one of two. -/
def Utf16.readBack (input : UInt32) : List UInt32 :=
  if input = 0xFFFF then [0xD7FF, 0xDFFF]
  else if input > 0x0010FFFF ∨ input ≥ 0xD800 ∧ input ≤ 0xDFFF then []
  else [input]

/-- One unit that is no upper surrogate. -/
lemma Utf16.spells_singleton (first : UInt16) (h : ¬ (first ≥ 0xD800 ∧ first ≤ 0xDBFF)) :
    Spells (Utf16.decode 0) [first] [first.toUInt32] := by
  refine Spells.of_decode (Utf16.progress_decode 0) (List.cons_ne_nil _ _) fun rest => ?_
  simp only [List.cons_append, List.nil_append, Utf16.decode]
  rw [if_neg h]

/-- The two units of a code point. -/
lemma Utf16.encode_pair {input : UInt32} (hle : 0x10000 ≤ input.toNat)
    (hmax : input.toNat ≤ 0x0010FFFF) :
    Utf16.encode 0 input = [UInt16.ofNat (0xD800 + (input.toNat - 0x10000) / 1024),
      UInt16.ofNat (0xDC00 + (input.toNat - 0x10000) % 1024)] := by
  have hsmall : ¬ input < 0xFFFF := by
    rw [UInt32.lt_iff_toNat_lt]
    show ¬ input.toNat < 0xFFFF
    omega
  have hlarge : ¬ input > 0x0010FFFF := by
    rw [gt_iff_lt, UInt32.lt_iff_toNat_lt]
    exact not_lt.mpr hmax
  have hsub : (input - 0x10000).toNat = input.toNat - 0x10000 := by
    rw [UInt32.toNat_sub]
    show (2 ^ 32 - 0x10000 + input.toNat) % 2 ^ 32 = _
    omega
  have hand : ((input - 0x10000) &&& 0x3FF).toNat = (input.toNat - 0x10000) % 1024 := by
    rw [UInt32.toNat_and, hsub]
    exact Nat.and_two_pow_sub_one_eq_mod _ 10
  have hfirst : ((input - 0x10000) >>> 10 + 0xD800).toUInt16 =
      UInt16.ofNat (0xD800 + (input.toNat - 0x10000) / 1024) := by
    apply UInt16.toNat_inj.mp
    rw [UInt32.toNat_toUInt16, UInt32.toNat_add, UInt32.toNat_shiftRight, hsub,
      Nat.shiftRight_eq_div_pow, UInt16.toNat_ofNat']
    show ((input.toNat - 0x10000) / 2 ^ 10 + 0xD800) % 2 ^ 32 % 2 ^ 16 = _
    omega
  have hsecond : (((input - 0x10000) &&& 0x3FF) + 0xDC00).toUInt16 =
      UInt16.ofNat (0xDC00 + (input.toNat - 0x10000) % 1024) := by
    apply UInt16.toNat_inj.mp
    rw [UInt32.toNat_toUInt16, UInt32.toNat_add, hand, UInt16.toNat_ofNat']
    show ((input.toNat - 0x10000) % 1024 + 0xDC00) % 2 ^ 32 % 2 ^ 16 = _
    omega
  rw [Utf16.encode, if_neg hsmall, if_neg hlarge]
  dsimp only
  rw [hfirst, hsecond]

/-- Reading two units back. -/
lemma Utf16.decode_encode_pair {input : UInt32} (hle : 0x10000 ≤ input.toNat)
    (hmax : input.toNat ≤ 0x0010FFFF) (rest : List UInt16) :
    Utf16.decode 0 (Utf16.encode 0 input ++ rest) = some (input, rest) := by
  have hunit : ∀ {n : ℕ}, n < 65536 → (UInt16.ofNat n).toNat = n := by
    intro n hn
    rw [UInt16.toNat_ofNat', Nat.mod_eq_of_lt hn]
  have hfirst := hunit (n := 0xD800 + (input.toNat - 0x10000) / 1024) (by omega)
  have hsecond := hunit (n := 0xDC00 + (input.toNat - 0x10000) % 1024) (by omega)
  have hvalue : (((UInt16.ofNat (0xD800 + (input.toNat - 0x10000) / 1024)).toUInt32 - 0xD800) <<< 10)
      + ((UInt16.ofNat (0xDC00 + (input.toNat - 0x10000) % 1024)).toUInt32 - 0xDC00) + 0x10000 =
        input := by
    apply UInt32.toNat_inj.mp
    rw [UInt32.toNat_add, UInt32.toNat_add, UInt32.toNat_shiftLeft, UInt32.toNat_sub,
      UInt32.toNat_sub, UInt16.toNat_toUInt32, UInt16.toNat_toUInt32, hfirst, hsecond,
      Nat.shiftLeft_eq]
    show (((2 ^ 32 - 0xD800 + _) % 2 ^ 32 * 2 ^ 10 % 2 ^ 32 + (2 ^ 32 - 0xDC00 + _) % 2 ^ 32) % 2 ^ 32
      + 0x10000) % 2 ^ 32 = _
    omega
  rw [Utf16.encode_pair hle hmax]
  simp only [List.cons_append, List.nil_append, Utf16.decode]
  rw [if_pos, if_pos, hvalue]
  · simp only [ge_iff_le, UInt16.le_iff_toNat_le, hsecond, UInt16.reduceToNat]
    omega
  · simp only [ge_iff_le, UInt16.le_iff_toNat_le, hfirst, UInt16.reduceToNat]
    omega

/-- What one code point is encoded to spells what is read back for it. -/
lemma Utf16.spells_encode (input : UInt32) :
    Spells (Utf16.decode 0) (Utf16.encode 0 input) (Utf16.readBack input) := by
  rcases Nat.lt_trichotomy input.toNat 0xFFFF with hlt | heq | hgt
  · have hsmall : input < 0xFFFF := UInt32.lt_iff_toNat_lt.mpr hlt
    have hne : ¬ input = 0xFFFF := by
      rintro rfl
      exact absurd hlt (by decide)
    have hmax : ¬ input > 0x0010FFFF := by
      rw [gt_iff_lt, UInt32.lt_iff_toNat_lt]
      exact not_lt.mpr (le_trans hlt.le (by decide))
    by_cases hsurrogate : input ≥ 0xD800 ∧ input ≤ 0xDFFF
    · rw [Utf16.readBack, if_neg hne, if_pos (.inr hsurrogate), Utf16.encode, if_pos hsmall,
        if_pos hsurrogate, if_neg (by decide)]
      exact Spells.nil
    · rw [Utf16.readBack, if_neg hne, if_neg (not_or.mpr ⟨hmax, hsurrogate⟩), Utf16.encode,
        if_pos hsmall, if_neg hsurrogate]
      have hunit : input.toUInt16.toNat = input.toNat := by
        rw [UInt32.toNat_toUInt16]
        exact Nat.mod_eq_of_lt (lt_trans hlt (by decide))
      have hback : input.toUInt16.toUInt32 = input := by
        apply UInt32.toNat_inj.mp
        rw [UInt16.toNat_toUInt32, hunit]
      have hspells := Utf16.spells_singleton input.toUInt16 (by
        simp only [ge_iff_le, UInt16.le_iff_toNat_le, UInt32.le_iff_toNat_le, hunit,
          UInt16.reduceToNat, UInt32.reduceToNat] at hsurrogate ⊢
        omega)
      rwa [hback] at hspells
  · obtain rfl : input = 0xFFFF := UInt32.toNat_inj.mp heq
    exact (Utf16.spells_singleton 0xD7FF (by decide)).append
      (Utf16.spells_singleton 0xDFFF (by decide))
  · have hsmall : ¬ input < 0xFFFF := by
      rw [UInt32.lt_iff_toNat_lt]
      exact not_lt.mpr hgt.le
    have hne : ¬ input = 0xFFFF := by
      rintro rfl
      exact absurd hgt (by decide)
    have hsurrogate : ¬ (input ≥ 0xD800 ∧ input ≤ 0xDFFF) := by
      rw [ge_iff_le, UInt32.le_iff_toNat_le, UInt32.le_iff_toNat_le]
      exact fun h => absurd (lt_of_lt_of_le hgt h.2) (by decide)
    by_cases hmax : input > 0x0010FFFF
    · rw [Utf16.readBack, if_neg hne, if_pos (.inl hmax), Utf16.encode, if_neg hsmall, if_pos hmax,
        if_neg (by decide)]
      exact Spells.nil
    · have hle : input.toNat ≤ 0x0010FFFF := UInt32.le_iff_toNat_le.mp (UInt32.not_lt.mp hmax)
      rw [Utf16.readBack, if_neg hne, if_neg (not_or.mpr ⟨hmax, hsurrogate⟩)]
      refine Spells.of_decode (Utf16.progress_decode 0) ?_
        fun rest => Utf16.decode_encode_pair hgt hle rest
      rw [Utf16.encode_pair hgt hle]
      exact List.cons_ne_nil _ _

/-- The conversion to UTF-16 encodes code point by code point. -/
lemma Utf32.toUtf16_eq (l : List UInt32) : Utf32.toUtf16 l = l.flatMap (Utf16.encode 0) :=
  List.flatMap_eq_foldl.symm

/-- **UTF-16 read back.** All code points come back as they are, but for the surrogates and what is
too large, which are left out, and `0xFFFF`, of which two others are read. -/
theorem Utf16.toUtf32_toUtf16 (l : List UInt32) :
    Utf16.toUtf32 (Utf32.toUtf16 l) = some (l.flatMap Utf16.readBack) := by
  have hspells := Spells.flatMap l fun input _ => Utf16.spells_encode input
  rw [Utf16.toUtf32, loop_append (fun c => [c]), Utf32.toUtf16_eq, hspells.characters_eq,
    Option.map_some, List.flatMap_singleton']

/-! ## The way through UTF-16 -/

/-- A character other than `U+FFFF` is read back. -/
lemma Utf16.readBack_val {c : Char} (h : c.val ≠ 0xFFFF) : Utf16.readBack c.val = [c.val] := by
  have hvalid := Utf8.toNat_val c
  have hgood : ¬ (c.val > 0x0010FFFF ∨ c.val ≥ 0xD800 ∧ c.val ≤ 0xDFFF) := by
    simp only [UInt32.lt_iff_toNat_lt, UInt32.le_iff_toNat_le, gt_iff_lt, ge_iff_le,
      UInt32.reduceToNat]
    omega
  rw [Utf16.readBack, if_neg h, if_neg hgood]

/-- The bytes of what is read of one character in UTF-16: as many as before, and three more. -/
lemma Utf16.length_readBack_val (c : Char) :
    ((Utf16.readBack c.val).flatMap (Utf8.encode 0)).length =
      (String.utf8EncodeChar c).length + if c.val = 0xFFFF then 3 else 0 := by
  split_ifs with h
  · obtain rfl : c = ⟨0xFFFF, by decide⟩ := Char.ext h
    decide
  · rw [Utf16.readBack_val h, List.flatMap_singleton, Utf8.encode_val]
    rfl

/-- What becomes of the bytes of a text. -/
lemma Utf16.toUtf8_toUtf16 (t : List Char) :
    (Utf8.toUtf16 (t.flatMap String.utf8EncodeChar)).bind Utf16.toUtf8 =
      some (t.flatMap fun c => (Utf16.readBack c.val).flatMap (Utf8.encode 0)) := by
  have htext : characters (Utf8.decode 0) (t.flatMap String.utf8EncodeChar) =
      some (t.map Char.val) :=
    (Utf8.spells_text t).characters_eq
  have hspells := Spells.flatMap (t.map Char.val) fun input _ => Utf16.spells_encode input
  rw [Utf8.toUtf16, loop_append, htext, Option.map_some, Option.bind_some, Utf16.toUtf8, loop_append,
    hspells.characters_eq, Option.map_some, List.flatMap_assoc, List.flatMap_map]

/-- **Texts through UTF-16.** The bytes of a text come back if and only if there is no `U+FFFF`. -/
theorem Utf16.toUtf8_toUtf16_iff (t : List Char) :
    (Utf8.toUtf16 (t.flatMap String.utf8EncodeChar)).bind Utf16.toUtf8 =
      some (t.flatMap String.utf8EncodeChar) ↔ ∀ c ∈ t, c.val ≠ 0xFFFF := by
  rw [Utf16.toUtf8_toUtf16, Option.some.injEq]
  constructor
  · intro h
    have hlen : ∀ t : List Char,
        (t.flatMap fun c => (Utf16.readBack c.val).flatMap (Utf8.encode 0)).length =
          (t.flatMap String.utf8EncodeChar).length + 3 * t.countP fun c => c.val = 0xFFFF := by
      intro t
      induction t with
      | nil => rfl
      | cons c t ih =>
          rw [List.flatMap_cons, List.flatMap_cons, List.length_append, List.length_append, ih,
            Utf16.length_readBack_val, List.countP_cons]
          by_cases hc : c.val = 0xFFFF
          · simp only [hc, decide_true, if_true]
            omega
          · simp only [hc, decide_false, if_false, Bool.false_eq_true]
            omega
    have hcount := hlen t
    rw [h] at hcount
    have hzero : (t.countP fun c => c.val = 0xFFFF) = 0 := by omega
    intro c hc
    simpa using List.countP_eq_zero.mp hzero c hc
  · intro h
    refine List.flatMap_congr fun c hc => ?_
    rw [Utf16.readBack_val (h c hc), List.flatMap_singleton, Utf8.encode_val]

end CocInside.System
