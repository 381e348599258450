import CocInside.System.Serialize

/-!
# Which strings `DeserializeInfo` accepts

The constructor looks at every group of four characters in the same way: the padding character has
the table value 0 wherever it stands, and bits that do not reach a counted byte are dropped. The
length field and the checksum are all that is compared.

* `wellPadded`: padding only at the end, and no bits behind the last byte.
* `canonical_iff`: an accepted string is the one `ToString` prints for its version and payload
  exactly when it is well padded.
* `Told`: how the three bytes of a group change with one of its characters.
* `corruption_detected`: another symbol in one place of a printed string is refused, unless all it
  changes is the version.

Source: `System/Serialize.cpp`, `SerializeInfo::ToString`, `DeserializeInfo::DeserializeInfo`.
-/

namespace CocInside.System

open CocInside.Lib

/-! ## Groups -/

/-- A character that is let through: its sextet is small, and it is the symbol of it unless it is
the padding. -/
lemma char_spec {c : UInt8} (h : ¬BadChar c) :
    (sextet c).toNat < 64 ∧ (c ≠ padding → symbol (sextet c).toNat = c) := by
  have hall : ∀ i : Fin 256, ¬BadChar (UInt8.ofNat i) →
      (sextet (UInt8.ofNat i)).toNat < 64 ∧
        (UInt8.ofNat i ≠ padding → symbol (sextet (UInt8.ofNat i)).toNat = UInt8.ofNat i) := by
    decide +kernel
  have hc := hall ⟨c.toNat, c.toNat_lt⟩
  rw [UInt8.ofNat_toNat] at hc
  exact hc h

/-- The three bytes of four sextets. -/
def groupBytes (v0 v1 v2 v3 : ℕ) : List UInt8 :=
  [UInt8.ofNat (v0 + 64 * (v1 % 4)), UInt8.ofNat (v1 / 4 + 16 * (v2 % 16)),
    UInt8.ofNat (v2 / 16 + 4 * v3)]

/-- A group of characters that are all let through. -/
lemma decodeGroup_of_good {c0 c1 c2 c3 : UInt8} (h0 : ¬BadChar c0) (h1 : ¬BadChar c1)
    (h2 : ¬BadChar c2) (h3 : ¬BadChar c3) :
    decodeGroup c0 c1 c2 c3 = some (if c2 = padding then 1 else if c3 = padding then 2 else 3,
      groupBytes (sextet c0).toNat (sextet c1).toNat (sextet c2).toNat (sextet c3).toNat) := by
  rw [decodeGroup_eq ⟨h0, rfl⟩ ⟨h1, rfl⟩ ⟨h2, rfl⟩ ⟨h3, rfl⟩]
  obtain ⟨e0, e1, e2⟩ := bytes_eq (char_spec h0).1 (char_spec h1).1 (char_spec h2).1
    (sextet c3).toNat
  rw [e0, e1, e2]
  rfl

/-- A group that is let through: its characters are, and its bytes are those of their sextets. -/
lemma decodeGroup_some {c0 c1 c2 c3 : UInt8} {n : ℕ} {bs : List UInt8}
    (h : decodeGroup c0 c1 c2 c3 = some (n, bs)) :
    (¬BadChar c0 ∧ ¬BadChar c1 ∧ ¬BadChar c2 ∧ ¬BadChar c3) ∧
      n = (if c2 = padding then 1 else if c3 = padding then 2 else 3) ∧
      bs = groupBytes (sextet c0).toNat (sextet c1).toNat (sextet c2).toNat (sextet c3).toNat := by
  have hgood : ¬BadChar c0 ∧ ¬BadChar c1 ∧ ¬BadChar c2 ∧ ¬BadChar c3 := by
    rw [← not_or, ← not_or, ← not_or]
    intro hbad
    unfold decodeGroup at h
    rw [if_pos hbad] at h
    cases h
  obtain ⟨h0, h1, h2, h3⟩ := hgood
  rw [decodeGroup_of_good h0 h1 h2 h3] at h
  cases h
  exact ⟨⟨h0, h1, h2, h3⟩, rfl, rfl⟩

/-- One more group. -/
lemma decodeLoop_cons {c0 c1 c2 c3 : UInt8} {rest : List UInt8} {sz : ℕ} {pbuf : List UInt8}
    (h : decodeLoop (c0 :: c1 :: c2 :: c3 :: rest) = some (sz, pbuf)) :
    ∃ n bs sz' more, decodeGroup c0 c1 c2 c3 = some (n, bs) ∧ decodeLoop rest = some (sz', more) ∧
      sz = n + sz' ∧ pbuf = bs ++ more := by
  unfold decodeLoop at h
  simp only [Option.bind_eq_bind, Option.bind_eq_some_iff, Option.some.injEq, Prod.mk.injEq] at h
  obtain ⟨⟨n, bs⟩, hg, ⟨sz', more⟩, hmore, hsz, hbuf⟩ := h
  exact ⟨n, bs, sz', more, hg, hmore, hsz.symm, hbuf.symm⟩

/-- What is counted is stored, and every group counts. -/
lemma decodeLoop_size {s : List UInt8} {sz : ℕ} {pbuf : List UInt8}
    (h : decodeLoop s = some (sz, pbuf)) :
    sz ≤ pbuf.length ∧ (s ≠ [] → 0 < sz) := by
  induction s using decodeLoop.induct generalizing sz pbuf with
  | case1 =>
      cases h
      exact ⟨le_rfl, fun h => absurd rfl h⟩
  | case2 c0 c1 c2 c3 rest ih =>
      obtain ⟨n, bs, sz', more, hg, hmore, rfl, rfl⟩ := decodeLoop_cons h
      obtain ⟨-, hn, rfl⟩ := decodeGroup_some hg
      have hle := (ih hmore).1
      have hn' : 1 ≤ n ∧ n ≤ 3 := by
        rw [hn]
        split_ifs <;> omega
      simp only [groupBytes, List.length_append, List.length_cons, List.length_nil]
      exact ⟨by omega, fun _ => by omega⟩
  | case3 s h1 h2 =>
      rw [decodeLoop] at h
      · cases h
      · exact h1
      · exact h2

/-- Three bytes made of sextets print as the symbols of the sextets. -/
lemma encodeGroup_groupBytes {v0 v1 v2 v3 : ℕ} (h0 : v0 < 64) (h1 : v1 < 64) (h2 : v2 < 64)
    (h3 : v3 < 64) :
    encodeGroup (UInt8.ofNat (v0 + 64 * (v1 % 4))) (UInt8.ofNat (v1 / 4 + 16 * (v2 % 16)))
      (UInt8.ofNat (v2 / 16 + 4 * v3)) = [symbol v0, symbol v1, symbol v2, symbol v3] := by
  obtain ⟨e0, e1, e2, e3⟩ := sextets_eq (UInt8.ofNat (v0 + 64 * (v1 % 4)))
    (UInt8.ofNat (v1 / 4 + 16 * (v2 % 16))) (UInt8.ofNat (v2 / 16 + 4 * v3))
  have b0 : (v0 + 64 * (v1 % 4)) % 2 ^ 8 = v0 + 64 * (v1 % 4) := Nat.mod_eq_of_lt (by omega)
  have b1 : (v1 / 4 + 16 * (v2 % 16)) % 2 ^ 8 = v1 / 4 + 16 * (v2 % 16) :=
    Nat.mod_eq_of_lt (by omega)
  have b2 : (v2 / 16 + 4 * v3) % 2 ^ 8 = v2 / 16 + 4 * v3 := Nat.mod_eq_of_lt (by omega)
  simp only [UInt8.toNat_ofNat', b0, b1, b2] at e0 e1 e2 e3
  unfold encodeGroup
  simp only [UInt8.toNat_ofNat', b0, b1, b2, e0, e1, e2, e3]
  have f0 : (v0 + 64 * (v1 % 4)) % 64 = v0 := by omega
  have f1 : (v0 + 64 * (v1 % 4)) / 64 % 4 = v1 % 4 := by omega
  have f1' : (v1 / 4 + 16 * (v2 % 16)) % 16 = v1 / 4 := by omega
  have f2 : (v1 / 4 + 16 * (v2 % 16)) / 16 % 16 = v2 % 16 := by omega
  have f2' : (v2 / 16 + 4 * v3) % 4 = v2 / 16 := by omega
  have f3 : (v2 / 16 + 4 * v3) / 4 % 64 = v3 := by omega
  rw [f0, f1, f1', f2, f2', f3, Nat.mod_add_div, Nat.mod_add_div]

/-! ## Padding -/

/-- Padding stands only at the end, in the last place or the last two, and the last character before
it has no bits that belong to a byte cut off. -/
def wellPadded : List UInt8 → Bool
  | [c0, c1, c2, c3] =>
      c0 ≠ padding ∧ c1 ≠ padding ∧
        (c2 = padding → c3 = padding ∧ (sextet c1).toNat < 4) ∧
        (c2 ≠ padding → c3 = padding → (sextet c2).toNat < 16)
  | c0 :: c1 :: c2 :: c3 :: rest =>
      (c0 ≠ padding ∧ c1 ≠ padding ∧ c2 ≠ padding ∧ c3 ≠ padding) && wellPadded rest
  | _ => false

/-- The last group, of one, two or three bytes. -/
lemma encodeLoop_tail (size : ℕ) (b0 b1 b2 : UInt8) :
    (size % 3 = 1 → encodeLoop size [b0]
      = [symbol (b0.toNat &&& 0x3f), symbol ((b0.toNat >>> 6) &&& 0x3), padding, padding]) ∧
    (size % 3 = 2 → encodeLoop size [b0, b1]
      = [symbol (b0.toNat &&& 0x3f),
          symbol (((b0.toNat >>> 6) &&& 0x3) ||| ((b1.toNat &&& 0xf) <<< 2)),
          symbol ((b1.toNat >>> 4) &&& 0xf), padding]) ∧
    (size % 3 = 0 → encodeLoop size [b0, b1, b2] = encodeGroup b0 b1 b2) := by
  refine ⟨?_, ?_, ?_⟩ <;>
  · intro hsize
    simp [encodeLoop, encodeTail, hsize]

/-- A last group that is well padded prints as it stands. -/
lemma encodeLoop_of_wellPadded_group {c0 c1 c2 c3 : UInt8} {n size : ℕ} {bs : List UInt8}
    (hw : wellPadded [c0, c1, c2, c3] = true) (hg : decodeGroup c0 c1 c2 c3 = some (n, bs))
    (hsize : size % 3 = n % 3) : encodeLoop size (bs.take n) = [c0, c1, c2, c3] := by
  obtain ⟨⟨h0, h1, h2, h3⟩, hn, rfl⟩ := decodeGroup_some hg
  simp only [wellPadded, decide_eq_true_eq] at hw
  obtain ⟨p0, p1, hp2, hp3⟩ := hw
  obtain ⟨l0, s0⟩ := char_spec h0
  obtain ⟨l1, s1⟩ := char_spec h1
  obtain ⟨l2, s2⟩ := char_spec h2
  obtain ⟨l3, s3⟩ := char_spec h3
  have hgroup := encodeGroup_groupBytes l0 l1 l2 l3
  rw [s0 p0, s1 p1] at hgroup
  unfold groupBytes
  obtain ⟨t1, t2, t3⟩ := encodeLoop_tail size
    (UInt8.ofNat ((sextet c0).toNat + 64 * ((sextet c1).toNat % 4)))
    (UInt8.ofNat ((sextet c1).toNat / 4 + 16 * ((sextet c2).toNat % 16)))
    (UInt8.ofNat ((sextet c2).toNat / 16 + 4 * (sextet c3).toNat))
  by_cases hc2 : c2 = padding
  · -- one byte: the second character holds two bits of it
    obtain ⟨hc3, hlow⟩ := hp2 hc2
    rw [if_pos hc2] at hn
    subst hn
    have hbyte : UInt8.ofNat ((sextet c1).toNat / 4 + 16 * ((sextet c2).toNat % 16)) = 0 := by
      rw [hc2, padding_spec.2, Nat.div_eq_of_lt hlow]
      rfl
    rw [hbyte] at hgroup
    simp only [encodeGroup, List.cons.injEq, and_true] at hgroup
    exact (t1 hsize).trans (by rw [hgroup.1, hc2, hc3]; simpa using hgroup.2.1)
  · rw [if_neg hc2] at hn
    rw [s2 hc2] at hgroup
    by_cases hc3 : c3 = padding
    · -- two bytes: the third character holds four bits of the second
      have hlow := hp3 hc2 hc3
      rw [if_pos hc3] at hn
      subst hn
      have hbyte : UInt8.ofNat ((sextet c2).toNat / 16 + 4 * (sextet c3).toNat) = 0 := by
        rw [hc3, padding_spec.2, Nat.div_eq_of_lt hlow]
        rfl
      rw [hbyte] at hgroup
      simp only [encodeGroup, List.cons.injEq, and_true] at hgroup
      exact (t2 hsize).trans (by rw [hgroup.1, hgroup.2.1, hc3]; simpa using hgroup.2.2.1)
    · rw [if_neg hc3] at hn
      subst hn
      rw [s3 hc3] at hgroup
      exact (t3 hsize).trans hgroup

/-- **A well-padded string prints back** from the bytes counted in it. -/
lemma encodeLoop_of_wellPadded {s : List UInt8} (hw : wellPadded s = true) {sz size : ℕ}
    {pbuf : List UInt8} (h : decodeLoop s = some (sz, pbuf)) (hsize : size % 3 = sz % 3) :
    encodeLoop size (pbuf.take sz) = s := by
  induction s using wellPadded.induct generalizing sz pbuf with
  | case1 c0 c1 c2 c3 =>
      obtain ⟨n, bs, sz', more, hg, hmore, rfl, rfl⟩ := decodeLoop_cons h
      cases hmore
      rw [List.append_nil]
      exact encodeLoop_of_wellPadded_group hw hg hsize
  | case2 c0 c1 c2 c3 rest hne ih =>
      have hrest : rest ≠ [] := by
        rintro rfl
        exact hne rfl
      obtain ⟨n, bs, sz', more, hg, hmore, rfl, rfl⟩ := decodeLoop_cons h
      obtain ⟨⟨h0, h1, h2, h3⟩, hn, rfl⟩ := decodeGroup_some hg
      rw [wellPadded] at hw
      · simp only [Bool.and_eq_true, decide_eq_true_eq] at hw
        obtain ⟨⟨p0, p1, p2, p3⟩, hw⟩ := hw
        rw [if_neg p2, if_neg p3] at hn
        subst hn
        obtain ⟨l0, s0⟩ := char_spec h0
        obtain ⟨l1, s1⟩ := char_spec h1
        obtain ⟨l2, s2⟩ := char_spec h2
        obtain ⟨l3, s3⟩ := char_spec h3
        have hgroup := encodeGroup_groupBytes l0 l1 l2 l3
        rw [s0 p0, s1 p1, s2 p2, s3 p3] at hgroup
        -- something is left, so that the loop goes on
        obtain ⟨hle, hpos⟩ := decodeLoop_size hmore
        have hmore' : ∃ b tl, more.take sz' = b :: tl := by
          rw [← List.ne_nil_iff_exists_cons, ← List.length_pos_iff, List.length_take]
          exact Nat.lt_min.mpr ⟨hpos hrest, (hpos hrest).trans_le hle⟩
        obtain ⟨b, tl, hbt⟩ := hmore'
        unfold groupBytes
        rw [Nat.add_comm 3 sz']
        simp only [List.cons_append, List.nil_append, List.take_succ_cons]
        rw [hbt, encodeLoop, hgroup, ← hbt, ih hw hmore (by omega)]
        rfl
      · exact hne
  | case3 s h1 h2 =>
      rw [wellPadded] at hw
      · cases hw
      · exact h1
      · exact h2

/-- The first group of more than one holds no padding. -/
lemma wellPadded_cons {c0 c1 c2 c3 : UInt8} {rest : List UInt8} (hne : rest ≠ []) :
    wellPadded (c0 :: c1 :: c2 :: c3 :: rest) = true ↔
      (c0 ≠ padding ∧ c1 ≠ padding ∧ c2 ≠ padding ∧ c3 ≠ padding) ∧ wellPadded rest = true := by
  rw [wellPadded]
  · simp only [Bool.and_eq_true, decide_eq_true_eq]
  · exact hne

/-- **What is printed is well padded.** -/
lemma wellPadded_encodeLoop (size : ℕ) (l : List UInt8) (hl : l ≠ [])
    (hsize : size % 3 = l.length % 3) : wellPadded (encodeLoop size l) = true := by
  induction l using encodeLoop.induct with
  | case1 b0 b1 b2 b3 rest ih =>
      obtain ⟨⟨h0, h1, h2, h3⟩, -⟩ := sextets_spec b0 b1 b2
      have hlen := (length_encodeLoop size (b3 :: rest)).2
      have hne : encodeLoop size (b3 :: rest) ≠ [] := by
        intro hnil
        rw [hnil] at hlen
        exact absurd hlen (by decide)
      simp only [List.length_cons] at hsize ih
      unfold encodeLoop
      exact (wellPadded_cons hne).mpr ⟨⟨(symbol_spec h0).2.1, (symbol_spec h1).2.1,
        (symbol_spec h2).2.1, (symbol_spec h3).2.1⟩, ih (by simp) (by omega)⟩
  | case2 l hshort =>
      rcases l with _ | ⟨b0, _ | ⟨b1, _ | ⟨b2, _ | ⟨b3, rest⟩⟩⟩⟩
      · exact absurd rfl hl
      · obtain ⟨⟨h0, h1, -, -⟩, -⟩ := sextets_spec b0 0 0
        have e1 : (b0.toNat >>> 6 &&& 3) = b0.toNat >>> 6 % 4 :=
          Nat.and_two_pow_sub_one_eq_mod _ 2
        rw [(encodeLoop_tail size b0 0 0).1 hsize]
        have p0 := symbol_spec h0
        have p1 := symbol_spec (show b0.toNat >>> 6 &&& 3 < 64 by omega)
        simp only [wellPadded, decide_eq_true_eq]
        exact ⟨p0.2.1, p1.2.1, fun _ => ⟨trivial, by rw [p1.2.2]; omega⟩, fun h => absurd rfl h⟩
      · obtain ⟨⟨h0, h1, -, -⟩, -⟩ := sextets_spec b0 b1 0
        have e2 : (b1.toNat >>> 4 &&& 0xf) = b1.toNat >>> 4 % 16 :=
          Nat.and_two_pow_sub_one_eq_mod _ 4
        rw [(encodeLoop_tail size b0 b1 0).2.1 hsize]
        have p0 := symbol_spec h0
        have p1 := symbol_spec h1
        have p2 := symbol_spec (show b1.toNat >>> 4 &&& 0xf < 64 by omega)
        simp only [wellPadded, decide_eq_true_eq]
        exact ⟨p0.2.1, p1.2.1, fun h => absurd h p2.2.1, fun _ _ => by rw [p2.2.2]; omega⟩
      · obtain ⟨⟨h0, h1, h2, h3⟩, -⟩ := sextets_spec b0 b1 b2
        rw [(encodeLoop_tail size b0 b1 b2).2.2 (by simpa using hsize)]
        simp only [encodeGroup, wellPadded, decide_eq_true_eq]
        exact ⟨(symbol_spec h0).2.1, (symbol_spec h1).2.1, fun h => absurd h (symbol_spec h2).2.1,
          fun _ h => absurd h (symbol_spec h3).2.1⟩
      · exact absurd rfl (hshort b0 b1 b2 b3 rest)

/-! ## Accepted strings -/

/-- The number of two bytes. -/
lemma leNat_take_two_lt (bs : List UInt8) : leNat (bs.take 2) < 2 ^ 16 := by
  rcases bs with _ | ⟨b0, _ | ⟨b1, bs⟩⟩
  · decide
  · have := b0.toNat_lt
    simp
    omega
  · have := b0.toNat_lt
    have := b1.toNat_lt
    simp
    omega

/-- The object of an accepted string: the header checks out, and is there. -/
structure Accepted (s : List UInt8) (sz : ℕ) (pbuf : List UInt8) : Prop where
  decoded : decodeLoop s = some (sz, pbuf)
  header : 4 ≤ sz
  length : leNat (pbuf.take 2) = sz - 4
  sum : checksum ((pbuf.take sz).drop 4) = pbuf.getD 2 0

/-- What a valid object holds. -/
lemma accepted_of_isValid {s : List UInt8} (h : (DeserializeInfo.create s).isValid = true) :
    ∃ sz pbuf, Accepted s sz pbuf ∧ DeserializeInfo.create s = ⟨true, pbuf, sz, 4⟩ := by
  unfold DeserializeInfo.create at h ⊢
  dsimp only at h ⊢
  split_ifs at h ⊢ with hlen
  · cases h
  · cases hdec : decodeLoop s with
    | none =>
        rw [hdec] at h
        cases h
    | some p =>
        obtain ⟨sz, pbuf⟩ := p
        rw [hdec] at h
        dsimp only at h ⊢
        split_ifs at h ⊢ with hfield hsum
        · cases h
        · cases h
        · have hlt := leNat_take_two_lt pbuf
          rw [not_not.mp hfield] at hlt
          have hheader : 4 ≤ sz := by
            unfold sizeSub at hlt
            split_ifs at hlt <;> omega
          refine ⟨sz, pbuf, ⟨hdec, hheader, ?_, not_not.mp hsum⟩, rfl⟩
          rw [not_not.mp hfield, sizeSub_of_le hheader]

/-- A buffer with this version and this payload. -/
def SerializeInfo.ofParts (version : UInt8) (payload : List UInt8) : SerializeInfo :=
  ⟨0 :: 0 :: 0 :: version :: payload, by simp⟩

namespace DeserializeInfo

/-- The payload bytes: what stands between the header and `pend`. -/
def payload (d : DeserializeInfo) : List UInt8 := (d.pbuf.take d.pend).drop 4

/-- The string that `ToString` produces for the version and the payload of an object. -/
def canonical (d : DeserializeInfo) : List UInt8 :=
  (SerializeInfo.ofParts d.getVersion d.payload).toString.1

/-- For an accepted string, that is the print of the bytes counted. -/
lemma canonical_eq {s : List UInt8} {sz : ℕ} {pbuf : List UInt8} (h : Accepted s sz pbuf) :
    canonical ⟨true, pbuf, sz, 4⟩ = encodeLoop sz (pbuf.take sz) := by
  have hle := (decodeLoop_size h.decoded).1
  have hheader := h.header
  obtain ⟨k, rfl⟩ : ∃ k, sz = k + 4 := ⟨sz - 4, by omega⟩
  match pbuf, hle with
  | b0 :: b1 :: b2 :: b3 :: more, hle =>
      have hlen := h.length
      have hsum := h.sum
      simp only [List.take_succ_cons, List.take_zero, leNat_cons, leNat_nil, List.drop_succ_cons,
        List.drop_zero, List.getD_cons_succ, List.getD_cons_zero, Nat.add_sub_cancel] at hlen hsum
      simp only [List.length_cons] at hle
      have hb0 := b0.toNat_lt
      have hb1 := b1.toNat_lt
      have hk : (more.take k).length = k := by
        rw [List.length_take]
        omega
      have m8 : ∀ k, k &&& 0xff = k % 2 ^ 8 := fun k => Nat.and_two_pow_sub_one_eq_mod k 8
      have e0 : UInt8.ofNat (k &&& 0xff) = b0 := by
        apply UInt8.toNat_inj.mp
        rw [UInt8.toNat_ofNat', m8]
        omega
      have e1 : UInt8.ofNat ((k >>> 8) &&& 0xff) = b1 := by
        apply UInt8.toNat_inj.mp
        rw [UInt8.toNat_ofNat', m8, Nat.shiftRight_eq_div_pow]
        omega
      have hfinish := SerializeInfo.finish_buffer
        (s := SerializeInfo.ofParts b3 (more.take k)) rfl
      rw [hk, e0, e1, hsum] at hfinish
      show encodeLoop (SerializeInfo.ofParts b3 (more.take k)).finish.buffer.length
        (SerializeInfo.ofParts b3 (more.take k)).finish.buffer = _
      rw [hfinish]
      simp [hk]

end DeserializeInfo

/-- **Accepted strings, exactly.** A string that is accepted equals the one printed for its version and
payload if and only if it is well padded; so two accepted strings that are well padded and denote the
same version and payload are the same. -/
theorem canonical_iff (s : List UInt8) (hs : (DeserializeInfo.create s).isValid = true) :
    (s = (DeserializeInfo.create s).canonical ↔ wellPadded s = true) ∧
    ∀ s', (DeserializeInfo.create s').isValid = true → wellPadded s = true → wellPadded s' = true →
      (DeserializeInfo.create s).getVersion = (DeserializeInfo.create s').getVersion →
      (DeserializeInfo.create s).payload = (DeserializeInfo.create s').payload → s = s' := by
  have hprint : ∀ s, (DeserializeInfo.create s).isValid = true → wellPadded s = true →
      s = (DeserializeInfo.create s).canonical := by
    intro s hs hw
    obtain ⟨sz, pbuf, hacc, hcreate⟩ := accepted_of_isValid hs
    rw [hcreate, DeserializeInfo.canonical_eq hacc]
    exact (encodeLoop_of_wellPadded hw hacc.decoded rfl).symm
  refine ⟨⟨?_, hprint s hs⟩, ?_⟩
  · intro heq
    obtain ⟨sz, pbuf, hacc, hcreate⟩ := accepted_of_isValid hs
    rw [heq, hcreate, DeserializeInfo.canonical_eq hacc]
    have hheader := hacc.header
    have hle := (decodeLoop_size hacc.decoded).1
    have hlen : (pbuf.take sz).length = sz := by
      rw [List.length_take]
      omega
    apply wellPadded_encodeLoop
    · rw [← List.length_pos_iff]
      omega
    · rw [hlen]
  · intro s' hs' hw hw' hversion hpayload
    rw [hprint s hs hw, hprint s' hs' hw']
    unfold DeserializeInfo.canonical
    rw [hversion, hpayload]

/-- The characters of a literal. -/
def ascii (s : String) : List UInt8 := s.toList.map fun c => UInt8.ofNat c.toNat

/-- The numbers 300 and 5 with version 7: the only well-padded string for them is the one printed. -/
theorem canonical_iff_numbers :
    ascii "DAQtHwKBFA==" = (DeserializeInfo.create (ascii "DAQtHwKBFA==")).canonical ∧
      ascii "DAQtHwKBFA==" =
        (((SerializeInfo.create 7).put (.uint16 300)).put (.uint8 5)).toString.1 := by
  have hvalid : (DeserializeInfo.create (ascii "DAQtHwKBFA==")).isValid = true := by decide +kernel
  obtain ⟨hiff, hunique⟩ := canonical_iff (ascii "DAQtHwKBFA==") hvalid
  exact ⟨hiff.mpr (by decide +kernel), hunique _ (by decide +kernel) (by decide +kernel)
    (by decide +kernel) (by decide +kernel) (by decide +kernel)⟩

/-- A padding character in the first place is taken for an `A`. -/
theorem padding_accepted :
    (DeserializeInfo.create (ascii "=AAAAA==")).isValid = true ∧
      ascii "=AAAAA==" ≠ (DeserializeInfo.create (ascii "=AAAAA==")).canonical := by
  decide +kernel

/-! ## One wrong character -/

/-- Three bytes that are told from three others by any of their sums, modulo 256. -/
structure Told (a b c a' b' c' : UInt8) : Prop where
  ab : a + b = a' + b' → a = a' ∧ b = b'
  bc : b + c = b' + c' → b = b' ∧ c = c'
  abc : a + b + c = a' + b' + c' → a = a' ∧ b = b' ∧ c = c'

namespace Told

variable {a b c a' b' c' : UInt8}

/-- Only the first two change, and their sum tells. -/
lemma of_front (h : a + b = a' + b' → a = a' ∧ b = b') : Told a b c a' b' c where
  ab := h
  bc hsum := ⟨(UInt8.add_left_inj c).mp hsum, rfl⟩
  abc hsum := by
    obtain ⟨ha, hb⟩ := h ((UInt8.add_left_inj c).mp hsum)
    exact ⟨ha, hb, rfl⟩

/-- Only the last two change, and their sum tells. -/
lemma of_back (h : b + c = b' + c' → b = b' ∧ c = c') : Told a b c a b' c' where
  ab hsum := ⟨rfl, (UInt8.add_right_inj a).mp hsum⟩
  bc := h
  abc hsum := by
    rw [UInt8.add_assoc, UInt8.add_assoc] at hsum
    exact ⟨rfl, h ((UInt8.add_right_inj a).mp hsum)⟩

end Told

/-- Two bytes with a sextet `v` across them, `v % n` at the top of the first and `v / n` at the bottom of
the second: their sum tells it. -/
lemma sum_tells {m n : ℕ} (hmn : m * n = 2 ^ 8) (hn : 0 < n) {u k v w : ℕ} (hv : v / n < m)
    (hw : w / n < m)
    (h : UInt8.ofNat (u + m * (v % n)) + UInt8.ofNat (v / n + k)
      = UInt8.ofNat (u + m * (w % n)) + UInt8.ofNat (w / n + k)) : v = w := by
  have hsum : ∀ x, UInt8.ofNat (u + m * (x % n)) + UInt8.ofNat (x / n + k)
      = UInt8.ofNat (x / n + m * (x % n) + (u + k)) := by
    intro x
    rw [← UInt8.ofNat_add]
    congr 1
    omega
  rw [hsum, hsum, ← UInt8.toNat_inj, UInt8.toNat_ofNat', UInt8.toNat_ofNat', ← hmn] at h
  obtain ⟨hdiv, hmod⟩ := digits_eq_of_add_mod_eq hv (Nat.mod_lt v hn) hw (Nat.mod_lt w hn) h
  rw [← Nat.div_add_mod v n, hdiv, hmod, Nat.div_add_mod]

/-- **One sextet changes.** Its bits stand at the top of one byte and at the bottom of the next, so
that what it adds to one cannot be taken off by the other. -/
lemma told_of_sextet {v0 v1 v2 v3 : ℕ} (h1 : v1 < 64) (h2 : v2 < 64) {w : ℕ} (hw : w < 64)
    {a b c : UInt8} (hbytes : groupBytes v0 v1 v2 v3 = [a, b, c])
    {a' b' c' : UInt8} (hone : groupBytes w v1 v2 v3 = [a', b', c'] ∨
      groupBytes v0 w v2 v3 = [a', b', c'] ∨ groupBytes v0 v1 w v3 = [a', b', c'] ∨
      groupBytes v0 v1 v2 w = [a', b', c']) :
    Told a b c a' b' c' := by
  simp only [groupBytes, List.cons.injEq, and_true] at hbytes hone
  obtain ⟨rfl, rfl, rfl⟩ := hbytes
  rcases hone with ⟨rfl, rfl, rfl⟩ | ⟨rfl, rfl, rfl⟩ | ⟨rfl, rfl, rfl⟩ | ⟨rfl, rfl, rfl⟩
  · exact .of_front fun hsum => ⟨(UInt8.add_left_inj _).mp hsum, rfl⟩
  · refine .of_front fun hsum => ?_
    obtain rfl := sum_tells (m := 64) (n := 4) rfl (by decide) (by omega) (by omega) hsum
    exact ⟨rfl, rfl⟩
  · refine .of_back fun hsum => ?_
    obtain rfl := sum_tells (m := 16) (n := 16) rfl (by decide) (by omega) (by omega) hsum
    exact ⟨rfl, rfl⟩
  · exact .of_back fun hsum => ⟨rfl, (UInt8.add_right_inj _).mp hsum⟩

/-- The symbols of the alphabet are let through and are no padding. -/
lemma good_of_mem_table64 {c : UInt8} (h : c ∈ table64) : ¬BadChar c ∧ c ≠ padding := by
  have hall : ∀ c ∈ table64, ¬BadChar c ∧ c ≠ padding := by decide +kernel
  exact hall c h

/-- **One character changes**: the same number of bytes, and the same bytes but for one group. -/
lemma decodeLoop_set {s : List UInt8} {i : ℕ} {ch : UInt8} {sz : ℕ} {pbuf : List UInt8}
    (h : decodeLoop s = some (sz, pbuf)) (hold : s.getD i 0 ∈ table64) (hnew : ch ∈ table64) :
    ∃ pre a b c a' b' c' post, pbuf = pre ++ [a, b, c] ++ post ∧ pre.length % 3 = 0 ∧
      decodeLoop (s.set i ch) = some (sz, pre ++ [a', b', c'] ++ post) ∧ Told a b c a' b' c' := by
  obtain ⟨hch, hpad⟩ := good_of_mem_table64 hnew
  induction s using decodeLoop.induct generalizing i sz pbuf with
  | case1 =>
      have hzero : (0 : UInt8) ∉ table64 := by decide +kernel
      exact absurd hold (by simpa using hzero)
  | case2 c0 c1 c2 c3 rest ih =>
      obtain ⟨n, bs, sz', more, hg, hmore, rfl, rfl⟩ := decodeLoop_cons h
      obtain ⟨⟨h0, h1, h2, h3⟩, hn, rfl⟩ := decodeGroup_some hg
      have l1 := (char_spec h1).1
      have l2 := (char_spec h2).1
      have lch := (char_spec hch).1
      match i with
      | 0 =>
          refine ⟨[], _, _, _, _, _, _, more, rfl, rfl, ?_,
            told_of_sextet l1 l2 lch rfl (.inl rfl)⟩
          simp [decodeLoop, decodeGroup_of_good hch h1 h2 h3, hmore, hn, groupBytes]
      | 1 =>
          refine ⟨[], _, _, _, _, _, _, more, rfl, rfl, ?_,
            told_of_sextet l1 l2 lch rfl (.inr (.inl rfl))⟩
          simp [decodeLoop, decodeGroup_of_good h0 hch h2 h3, hmore, hn, groupBytes]
      | 2 =>
          have hc2 : c2 ≠ padding := (good_of_mem_table64 hold).2
          refine ⟨[], _, _, _, _, _, _, more, rfl, rfl, ?_,
            told_of_sextet l1 l2 lch rfl (.inr (.inr (.inl rfl)))⟩
          simp [decodeLoop, decodeGroup_of_good h0 h1 hch h3, hmore, hn, groupBytes, hc2, hpad]
      | 3 =>
          have hc3 : c3 ≠ padding := (good_of_mem_table64 hold).2
          refine ⟨[], _, _, _, _, _, _, more, rfl, rfl, ?_,
            told_of_sextet l1 l2 lch rfl (.inr (.inr (.inr rfl)))⟩
          simp [decodeLoop, decodeGroup_of_good h0 h1 h2 hch, hmore, hn, groupBytes, hc3, hpad]
      | i + 4 =>
          obtain ⟨pre, a, b, c, a', b', c', post, rfl, hpre, hset, htold⟩ := ih hmore hold
          refine ⟨groupBytes (sextet c0).toNat (sextet c1).toNat (sextet c2).toNat
            (sextet c3).toNat ++ pre, a, b, c, a', b', c', post, ?_, ?_, ?_, htold⟩
          · simp only [List.append_assoc]
          · rw [List.length_append]
            show (3 + pre.length) % 3 = 0
            omega
          · simp [decodeLoop, hg, hset]
  | case3 s h1 h2 =>
      rw [decodeLoop] at h
      · cases h
      · exact h1
      · exact h2

/-- The sum of two lists of bytes in a row. -/
lemma checksum_append (l m : List UInt8) : checksum (l ++ m) = checksum l + checksum m := by
  have hfold : ∀ (m : List UInt8) (x : UInt8), m.foldl (· + ·) x = x + m.foldl (· + ·) 0 := by
    intro m
    induction m with
    | nil => simp
    | cons b m ih =>
        intro x
        rw [List.foldl_cons, List.foldl_cons, ih (x + b), ih (0 + b), UInt8.zero_add,
          UInt8.add_assoc]
  unfold checksum
  rw [List.foldl_append]
  exact hfold m _

/-- The first bytes of a group, told by their sum. -/
lemma Told.take_eq {a b c a' b' c' : UInt8} (h : Told a b c a' b' c') (t : ℕ)
    (hsum : checksum ([a, b, c].take t) = checksum ([a', b', c'].take t)) :
    [a, b, c].take t = [a', b', c'].take t := by
  match t with
  | 0 => rfl
  | 1 =>
      have ha : a = a' := by simpa [checksum] using hsum
      rw [ha]
      rfl
  | 2 =>
      obtain ⟨ha, hb⟩ := h.ab (by simpa [checksum] using hsum)
      rw [ha, hb]
      rfl
  | t + 3 =>
      obtain ⟨ha, hb, hc⟩ := h.abc (by simpa [checksum] using hsum)
      rw [ha, hb, hc]

/-- The same behind the first byte. -/
lemma Told.take_tail_eq {a b c a' b' c' : UInt8} (h : Told a b c a' b' c') (t : ℕ)
    (hsum : checksum ([b, c].take t) = checksum ([b', c'].take t)) :
    [b, c].take t = [b', c'].take t := by
  match t with
  | 0 => rfl
  | 1 =>
      have hb : b = b' := by simpa [checksum] using hsum
      rw [hb]
      rfl
  | t + 2 =>
      obtain ⟨hb, hc⟩ := h.bc (by simpa [checksum] using hsum)
      rw [hb, hc]

/-- Two numbers of two bytes. -/
lemma leNat_two_inj {a b a' b' : UInt8}
    (h : leNat [a, b] = leNat [a', b']) : a = a' ∧ b = b' := by
  have ha := a.toNat_lt
  have ha' := a'.toNat_lt
  simp only [leNat_cons, leNat_nil] at h
  rw [← UInt8.toNat_inj, ← UInt8.toNat_inj]
  omega

/-- **Both check out, so nothing but the version changed.** Two buffers of one size that differ in one
group, as one character makes them differ, and both pass the checks: the bytes before the version and
behind it are the same. -/
lemma same_of_accepted {s s' pre post : List UInt8} {sz : ℕ} {a b c a' b' c' : UInt8}
    (h : Accepted s sz (pre ++ [a, b, c] ++ post))
    (h' : Accepted s' sz (pre ++ [a', b', c'] ++ post)) (hpre : pre.length % 3 = 0)
    (htold : Told a b c a' b' c') :
    (pre ++ [a, b, c] ++ post).take 3 = (pre ++ [a', b', c'] ++ post).take 3 ∧
      ((pre ++ [a, b, c] ++ post).take sz).drop 4
        = ((pre ++ [a', b', c'] ++ post).take sz).drop 4 := by
  have hheader := h.header
  have hlen := h.length.trans h'.length.symm
  have hsum := h.sum
  have hsum' := h'.sum
  obtain ⟨k, rfl⟩ : ∃ k, sz = k + 4 := ⟨sz - 4, by omega⟩
  match pre, hpre with
  | [], _ =>
      -- the group of the length and the checksum
      simp only [List.nil_append, List.cons_append, List.take_succ_cons, List.take_zero] at hlen
      obtain ⟨rfl, rfl⟩ := leNat_two_inj hlen
      have hc : c = c' := by simpa using hsum.symm.trans hsum'
      rw [hc]
      exact ⟨rfl, rfl⟩
  | [p0, p1, p2], _ =>
      -- the group of the version
      refine ⟨rfl, ?_⟩
      change checksum (([b, c] ++ post).take k) = p2 at hsum
      change checksum (([b', c'] ++ post).take k) = p2 at hsum'
      show ([b, c] ++ post).take k = ([b', c'] ++ post).take k
      rw [List.take_append, checksum_append] at hsum hsum'
      have heq := (UInt8.add_left_inj _).mp (hsum.trans hsum'.symm)
      rw [List.take_append, List.take_append, htold.take_tail_eq k heq]
      rfl
  | p0 :: p1 :: p2 :: p3 :: pre, _ =>
      -- a group of the payload
      refine ⟨rfl, ?_⟩
      change checksum ((pre ++ [a, b, c] ++ post).take k) = p2 at hsum
      change checksum ((pre ++ [a', b', c'] ++ post).take k) = p2 at hsum'
      show (pre ++ [a, b, c] ++ post).take k = (pre ++ [a', b', c'] ++ post).take k
      rw [List.append_assoc, List.take_append, List.take_append, checksum_append,
        checksum_append] at hsum hsum'
      have heq := (UInt8.add_left_inj _).mp
        ((UInt8.add_right_inj _).mp (hsum.trans hsum'.symm))
      rw [List.append_assoc, List.append_assoc, List.take_append, List.take_append,
        List.take_append, List.take_append, htold.take_eq _ heq]
      rfl

/-- What is printed is accepted, up to 65535 bytes of payload. -/
lemma isValid_toString (info : SerializeInfo) (hlen : info.payload.length ≤ 65535) :
    (DeserializeInfo.create info.toString.1).isValid = true := by
  obtain ⟨buffer, header⟩ := info
  match buffer, header with
  | p0 :: p1 :: p2 :: version :: payload, header =>
      have hcreate := DeserializeInfo.create_encodeLoop version payload
      have hfinish := SerializeInfo.finish_buffer
        (s := ⟨p0 :: p1 :: p2 :: version :: payload, header⟩) rfl
      dsimp only at hcreate
      rw [if_pos (show payload.length ≤ 65535 from hlen)] at hcreate
      rw [SerializeInfo.toString, hfinish, hcreate]
      rfl

/-- **A wrong character is noticed.** Let one symbol of a printed string be replaced by another. The
result still decodes to as many bytes; and if any of them but the version is not what it was, the string
is refused. -/
theorem corruption_detected (info : SerializeInfo) (hlen : info.payload.length ≤ 65535) (i : ℕ)
    (ch : UInt8) (hold : info.toString.1.getD i 0 ∈ table64) (hnew : ch ∈ table64) :
    ∃ sz pbuf pbuf', decodeLoop info.toString.1 = some (sz, pbuf) ∧
      decodeLoop (info.toString.1.set i ch) = some (sz, pbuf') ∧
      ((∃ j < sz, j ≠ 3 ∧ pbuf.getD j 0 ≠ pbuf'.getD j 0) →
        (DeserializeInfo.create (info.toString.1.set i ch)).isValid = false) := by
  obtain ⟨sz, pbuf, hacc, -⟩ := accepted_of_isValid (isValid_toString info hlen)
  obtain ⟨pre, a, b, c, a', b', c', post, rfl, hpre, hset, htold⟩ :=
    decodeLoop_set hacc.decoded hold hnew
  refine ⟨sz, _, _, hacc.decoded, hset, ?_⟩
  rintro ⟨j, hj, hj3, hdiff⟩
  by_contra hvalid
  obtain ⟨sz', pbuf', hacc', -⟩ := accepted_of_isValid (Bool.not_eq_false _ ▸ hvalid)
  obtain ⟨rfl, rfl⟩ := Prod.mk.inj (Option.some.inj (hset.symm.trans hacc'.decoded))
  obtain ⟨hfront, hback⟩ := same_of_accepted hacc hacc' hpre htold
  apply hdiff
  rw [List.getD_eq_getElem?_getD, List.getD_eq_getElem?_getD]
  rcases Nat.lt_or_ge j 3 with hlt | hge
  · -- the length and the checksum
    have hget := congrArg (fun m => m[j]?) hfront
    simp only [List.getElem?_take, if_pos hlt] at hget
    rw [hget]
  · -- the payload
    have hget := congrArg (fun m => m[j - 4]?) hback
    have hj4 : 4 + (j - 4) = j := by omega
    simp only [List.getElem?_drop, List.getElem?_take, hj4, if_pos hj] at hget
    rw [hget]

/-- The numbers 300 and 5 with version 7, printed, and another seventh character: a byte of the first
number is wrong. -/
theorem corruption_detected_numbers :
    (DeserializeInfo.create (ascii "DAQtHwLBFA==")).isValid = false := by
  have hprint : (((SerializeInfo.create 7).put (.uint16 300)).put (.uint8 5)).toString.1
      = ascii "DAQtHwKBFA==" := by decide +kernel
  have hset : (ascii "DAQtHwKBFA==").set 6 76 = ascii "DAQtHwLBFA==" := by decide +kernel
  obtain ⟨sz, pbuf, pbuf', hdec, hdec', hdetect⟩ := corruption_detected
    (((SerializeInfo.create 7).put (.uint16 300)).put (.uint8 5)) (by decide +kernel) 6 76
    (by decide +kernel) (by decide +kernel)
  rw [hprint] at hdec hdec' hdetect
  rw [hset] at hdec' hdetect
  have e : decodeLoop (ascii "DAQtHwKBFA==") = some (7, [3, 0, 181, 7, 172, 4, 5, 0, 0]) := by
    decide +kernel
  have e' : decodeLoop (ascii "DAQtHwLBFA==") = some (7, [3, 0, 181, 7, 188, 4, 5, 0, 0]) := by
    decide +kernel
  obtain ⟨rfl, rfl⟩ := Prod.mk.inj (Option.some.inj (hdec.symm.trans e))
  obtain ⟨-, rfl⟩ := Prod.mk.inj (Option.some.inj (hdec'.symm.trans e'))
  exact hdetect ⟨4, by decide, by decide, by decide⟩

end CocInside.System
