import Mathlib
import BlockFilter.Binary64.Nearest

/-! Words as binary64 numbers. A 32-bit word has an exact binary64 number, and the arithmetic of a
line of slope zero keeps it exact: zero times a word is zero, and zero plus a word is the word. The
proofs follow the unpacked form of a word, in which its leading bit stands at the hidden place. -/

namespace BlockFilter.Binary64

open Float.Model UnpackedFloat

variable {n : Nat} {w : UInt32}

/-! ## Unpacked words -/

theorem log2_shiftLeft (hn : n ≠ 0) (k : Nat) : (n <<< k).log2 = n.log2 + k := by
  induction k with
  | zero => rfl
  | succ k ih =>
      have hShift : n <<< k ≠ 0 := mt Nat.shiftLeft_eq_zero_iff.mp hn
      rw [Nat.shiftLeft_succ, Nat.log2_two_mul hShift, ih, Nat.add_assoc]

theorem log2_lt_of_word (hn : n ≠ 0) (h : n < UInt32.size) : n.log2 < 32 :=
  (Nat.log2_lt hn).mpr h

/-- The significand of a positive word: its leading bit is moved up to the hidden place. -/
def wordSignificand (n : Nat) : Nat := n <<< (52 - n.log2)

theorem log2_wordSignificand (hn : n ≠ 0) (h : n < UInt32.size) :
    (wordSignificand n).log2 = 52 := by
  have hLog := log2_lt_of_word hn h
  rw [wordSignificand, log2_shiftLeft hn]
  omega

theorem wordSignificand_pos (hn : n ≠ 0) : 0 < wordSignificand n :=
  Nat.shiftLeft_pos_iff.mpr (Nat.pos_of_ne_zero hn)

theorem wordSignificand_bounds (hn : n ≠ 0) (h : n < UInt32.size) :
    hiddenBit ≤ wordSignificand n ∧ wordSignificand n < 2 * hiddenBit :=
  (Nat.log2_eq_iff (Nat.ne_of_gt (wordSignificand_pos hn))).mp (log2_wordSignificand hn h)

def unpackedWord (n : Nat) : UnpackedFloat :=
  if h : n = 0 then .zero .positive
  else .finite .positive (wordSignificand n) (n.log2 - 52) (wordSignificand_pos h)

theorem targetExponent_binary64 (total : Int) :
    Format.binary64.targetExponent total = max (total - 53) minExponent := rfl

theorem exponentBias_binary64 : Format.binary64.exponentBias = 1023 := rfl

/-- The significand of a word has its place already, so rounding leaves it alone. -/
theorem shiftToTargetExponent_word (hn : n ≠ 0) (h : n < UInt32.size) :
    shiftToTargetExponent Format.binary64 (wordSignificand n) (n.log2 - 52) .exact =
      (⟨wordSignificand n, false, false⟩, (n.log2 - 52 : Int)) := by
  have hTarget : Format.binary64.targetExponent (totalExponent (wordSignificand n) (n.log2 - 52)) =
      n.log2 - 52 := by
    rw [targetExponent_binary64, totalExponent, log2_wordSignificand hn h, minExponent]
    omega
  have hShift : ((n.log2 - 52 : Int) - (n.log2 - 52)).toNat = 0 := by omega
  simp only [shiftToTargetExponent, shiftToExponent, hTarget, hShift]
  exact Prod.ext rfl (Int.add_zero _)

theorem roundWithAccuracy_word (hn : n ≠ 0) (h : n < UInt32.size) :
    roundWithAccuracy Format.binary64 .positive (wordSignificand n) (n.log2 - 52) .exact =
      unpackedWord n := by
  have hRounded : ExtendedMantissa.roundedMantissa ⟨wordSignificand n, false, false⟩ =
      wordSignificand n := rfl
  rw [roundWithAccuracy, shiftToTargetExponent_word hn h]
  simp only [hRounded, shiftToTargetExponent_word hn h]
  rw [unpackedWord, dif_neg hn, dif_neg (Nat.ne_of_gt (wordSignificand_pos hn))]

theorem round_word (hn : n ≠ 0) (h : n < UInt32.size) :
    UnpackedFloat.round Format.binary64 .positive n 0 = unpackedWord n := by
  have hLog := log2_lt_of_word hn h
  have hTarget : Format.binary64.targetExponent (totalExponent n 0) = n.log2 - 52 := by
    rw [targetExponent_binary64, totalExponent, minExponent]
    omega
  have hDecrease : decreaseExponent n 0 (n.log2 - 52) =
      (wordSignificand n, (n.log2 - 52 : Int)) := by
    have hAmount : (0 - (n.log2 - 52 : Int)).toNat = 52 - n.log2 := by omega
    simp only [decreaseExponent, hAmount, wordSignificand, Prod.mk.injEq, true_and]
    omega
  simp only [UnpackedFloat.round, hTarget, hDecrease]
  exact roundWithAccuracy_word hn h

theorem ofNat_word (h : n < UInt32.size) :
    UnpackedFloat.ofNat Format.binary64 n = unpackedWord n := by
  by_cases hn : n = 0
  · subst hn
    rfl
  · have hCompare : compare (n : Int) 0 = .gt := by
      rw [Int.compare_eq_gt]
      omega
    simp only [UnpackedFloat.ofNat, UnpackedFloat.ofInt, UnpackedFloat.normalize, hCompare,
      Int.toNat_natCast]
    exact round_word hn h

/-! ## Packed words -/

theorem unpackSign_packComponents (sign : Sign) (exponent : BitVec Format.binary64.exponentBits)
    (mantissa : BitVec Format.binary64.mantissaBitsWithoutImplicit) :
    unpackSign (packComponents Format.binary64 sign exponent mantissa) = sign.toBitVec := by
  ext i hi
  have hZero : i = 0 := by omega
  subst hZero
  simp only [unpackSign, packComponents, BitVec.getElem_cast, BitVec.extractLsb,
    BitVec.getElem_extractLsb', Nat.add_zero]
  rw [BitVec.getLsbD_append, BitVec.getLsbD_append]
  rfl

theorem pack_word (hn : n ≠ 0) (h : n < UInt32.size) :
    UnpackedFloat.pack Format.binary64 (unpackedWord n) =
      packComponents Format.binary64 .positive (BitVec.ofNat 11 (n.log2 + 1023))
        (BitVec.ofNat 52 (wordSignificand n)) := by
  have hLog := log2_lt_of_word hn h
  have hExponent : ((n.log2 - 52 : Int) + Format.binary64.exponentBias +
      Format.binary64.mantissaBitsWithoutImplicit).toNat = n.log2 + 1023 := by
    simp only [exponentBias_binary64]
    omega
  have hFinite : ¬2 ^ Format.binary64.exponentBits ≤ n.log2 + 1023 + 1 := by
    simp only
    omega
  rw [unpackedWord, dif_neg hn, UnpackedFloat.pack]
  simp only [hExponent, log2_wordSignificand hn h, if_neg hFinite]
  exact if_pos rfl

theorem toNat_exponentField (hn : n ≠ 0) (h : n < UInt32.size) :
    (BitVec.ofNat 11 (n.log2 + 1023)).toNat = n.log2 + 1023 := by
  have hLog := log2_lt_of_word hn h
  rw [BitVec.toNat_ofNat]
  omega

/-- The field of a normal number is neither that of the infinities nor that of zero. -/
theorem exponentField_ne (hn : n ≠ 0) (h : n < UInt32.size) :
    BitVec.ofNat 11 (n.log2 + 1023) ≠ -1#_ ∧ BitVec.ofNat 11 (n.log2 + 1023) ≠ 0#_ := by
  have hLog := log2_lt_of_word hn h
  have hField := toNat_exponentField hn h
  constructor
  · intro hEq
    rw [hEq] at hField
    simp only [BitVec.toNat_neg, BitVec.toNat_ofNat] at hField
    omega
  · intro hEq
    rw [hEq] at hField
    simp only [BitVec.toNat_ofNat] at hField
    omega

/-- The fraction field leaves the leading bit out, and the hidden bit puts it back. -/
theorem toNat_hiddenBit_append (hn : n ≠ 0) (h : n < UInt32.size) :
    (1#1 ++ BitVec.ofNat 52 (wordSignificand n)).toNat = wordSignificand n := by
  obtain ⟨hLow, hHigh⟩ := wordSignificand_bounds hn h
  rw [BitVec.toNat_append, Nat.shiftLeft_eq, Nat.mul_comm,
    ← Nat.two_pow_add_eq_or_of_lt (BitVec.isLt _)]
  simp only [BitVec.toNat_ofNat, hiddenBit] at hLow hHigh ⊢
  omega

theorem unpack_pack_word (h : n < UInt32.size) :
    UnpackedFloat.unpack Format.binary64 (UnpackedFloat.pack Format.binary64 (unpackedWord n)) =
      unpackedWord n := by
  by_cases hn : n = 0
  · subst hn
    rfl
  · obtain ⟨hNotAll, hNotNone⟩ := exponentField_ne hn h
    have hExponent : ((n.log2 + 1023 : Nat) : Int) - (Format.binary64.exponentBias + (52 : Nat)) =
        n.log2 - 52 := by
      rw [exponentBias_binary64]
      omega
    rw [pack_word hn h, UnpackedFloat.unpack]
    simp only [unpackMantissa_packComponents, unpackExponent_packComponents,
      unpackSign_packComponents, hNotAll, hNotNone, if_false, toNat_exponentField hn h]
    rw [unpackedWord, dif_neg hn]
    exact UnpackedFloat.finite.injEq .. ▸ ⟨rfl, toNat_hiddenBit_append hn h, hExponent⟩

/-! ## Arithmetic -/

/-- The bit pattern of an unpacked number. -/
def ofUnpacked (u : UnpackedFloat) : Binary64 :=
  ⟨UInt64.ofBitVec (UnpackedFloat.pack Format.binary64 u)⟩

/-- Unpacking undoes packing. -/
def Canonical (u : UnpackedFloat) : Prop :=
  UnpackedFloat.unpack Format.binary64 (UnpackedFloat.pack Format.binary64 u) = u

theorem canonical_word (h : n < UInt32.size) : Canonical (unpackedWord n) :=
  unpack_pack_word h

theorem toFloat_ofUnpacked {u : UnpackedFloat} (h : Canonical u) :
    (ofUnpacked u).toFloat.toModel.unpack = u := by
  have hUnpack : (ofUnpacked u).toFloat.toModel.unpack =
      UnpackedFloat.unpack Format.binary64 (UnpackedFloat.pack Format.binary64
        (UnpackedFloat.unpack Format.binary64 (UnpackedFloat.pack Format.binary64 u))) := rfl
  rw [hUnpack, h, h]

theorem add_ofUnpacked {u v : UnpackedFloat} (hu : Canonical u) (hv : Canonical v) :
    ofUnpacked u + ofUnpacked v = ofUnpacked (u.add Format.binary64 v) := by
  have hAdd : ofUnpacked u + ofUnpacked v =
      ofUnpacked ((ofUnpacked u).toFloat.toModel.unpack.add Format.binary64
        (ofUnpacked v).toFloat.toModel.unpack) := rfl
  rw [hAdd, toFloat_ofUnpacked hu, toFloat_ofUnpacked hv]

theorem mul_ofUnpacked {u v : UnpackedFloat} (hu : Canonical u) (hv : Canonical v) :
    ofUnpacked u * ofUnpacked v = ofUnpacked (u.mul Format.binary64 v) := by
  have hMul : ofUnpacked u * ofUnpacked v =
      ofUnpacked ((ofUnpacked u).toFloat.toModel.unpack.mul Format.binary64
        (ofUnpacked v).toFloat.toModel.unpack) := rfl
  rw [hMul, toFloat_ofUnpacked hu, toFloat_ofUnpacked hv]

theorem ofUInt32_eq (w : UInt32) : ofUInt32 w = ofUnpacked (unpackedWord w.toNat) := by
  rw [← ofNat_word w.toNat_lt_size]
  rfl

theorem zero_eq : zero = ofUnpacked (unpackedWord 0) := rfl

/-- A line of slope zero has its intercept everywhere. -/
theorem zero_mul_add (x y : UInt32) : zero * ofUInt32 x + ofUInt32 y = ofUInt32 y := by
  have hMul : ∀ n, (unpackedWord 0).mul Format.binary64 (unpackedWord n) = unpackedWord 0 := by
    intro n
    cases n <;> rfl
  have hAdd : ∀ n, (unpackedWord 0).add Format.binary64 (unpackedWord n) = unpackedWord n := by
    intro n
    cases n <;> rfl
  have hZero : Canonical (unpackedWord 0) := canonical_word (by decide)
  have hX := canonical_word x.toNat_lt_size
  have hY := canonical_word y.toNat_lt_size
  rw [zero_eq, ofUInt32_eq, ofUInt32_eq, mul_ofUnpacked hZero hX, hMul,
    add_ofUnpacked hZero hY, hAdd]

/-! ## Rounding back -/

theorem toNat_bits_ofUInt32 (hw : w.toNat ≠ 0) :
    (ofUInt32 w).bits.toNat =
      (w.toNat.log2 + 1022) * hiddenBit + wordSignificand w.toNat := by
  have hLog := log2_lt_of_word hw w.toNat_lt_size
  obtain ⟨hLow, hHigh⟩ := wordSignificand_bounds hw w.toNat_lt_size
  have hPacked : (ofUInt32 w).bits.toNat = (0#1 ++ BitVec.ofNat 11 (w.toNat.log2 + 1023) ++
      BitVec.ofNat 52 (wordSignificand w.toNat)).toNat := by
    rw [ofUInt32_eq, ofUnpacked, pack_word hw w.toNat_lt_size]
    rfl
  rw [hPacked, BitVec.toNat_append, Nat.shiftLeft_eq, Nat.mul_comm,
    ← Nat.two_pow_add_eq_or_of_lt (BitVec.isLt _), BitVec.toNat_append]
  simp only [BitVec.toNat_ofNat, Nat.zero_shiftLeft, Nat.zero_mod, Nat.zero_or,
    hiddenBit] at hLow hHigh ⊢
  omega

theorem view_ofUInt32 (hw : w.toNat ≠ 0) :
    (ofUInt32 w).view = .finite false (wordSignificand w.toNat) (w.toNat.log2 - 52) := by
  have hLog := log2_lt_of_word hw w.toNat_lt_size
  obtain ⟨hLow, hHigh⟩ := wordSignificand_bounds hw w.toNat_lt_size
  have hBits := toNat_bits_ofUInt32 hw
  have hSign : (ofUInt32 w).bits.toNat.testBit 63 = false := by
    rw [hBits]
    apply Nat.testBit_lt_two_pow
    simp only [hiddenBit] at hHigh ⊢
    omega
  have hBiased : (ofUInt32 w).bits.toNat / hiddenBit % (maxBiased + 1) = w.toNat.log2 + 1023 := by
    rw [hBits]
    simp only [hiddenBit, maxBiased] at hLow hHigh ⊢
    omega
  have hFraction : (ofUInt32 w).bits.toNat % hiddenBit + hiddenBit = wordSignificand w.toNat := by
    rw [hBits]
    simp only [hiddenBit] at hLow hHigh ⊢
    omega
  have hExponent : minExponent + ((w.toNat.log2 + 1023 - 1 : Nat) : Int) = w.toNat.log2 - 52 := by
    simp only [minExponent]
    omega
  have hNotAll : w.toNat.log2 + 1023 ≠ maxBiased := by
    simp only [maxBiased]
    omega
  rw [view, hSign]
  simp only [hBiased, hNotAll, if_false, hFraction, hExponent]
  exact if_neg (Nat.succ_ne_zero _)

theorem roundDiv_shiftLeft (tie : Tie) (n k : Nat) : roundDiv tie (n <<< k) (1 <<< k) = n := by
  have hPos : 0 < 1 <<< k := Nat.shiftLeft_pos_iff.mpr Nat.one_pos
  have hShift : n <<< k = n * (1 <<< k) := by
    rw [Nat.shiftLeft_eq, Nat.one_shiftLeft]
  unfold roundDiv
  rw [hShift, Nat.mul_mod_left, Nat.mul_div_cancel n hPos]
  exact if_pos hPos

/-- Every word is the integer nearest to its number. -/
theorem nearestInteger_ofUInt32 (w : UInt32) : (ofUInt32 w).nearestInteger = w.toNat := by
  by_cases hw : w.toNat = 0
  · have hZero : w = 0 := UInt32.toNat.inj hw
    subst hZero
    decide +kernel
  · have hLog := log2_lt_of_word hw w.toNat_lt_size
    have hWord := w.toNat_lt_size
    have hNegative : ¬0 ≤ (w.toNat.log2 - 52 : Int) := by omega
    have hShift : (-(w.toNat.log2 - 52 : Int)).toNat = 52 - w.toNat.log2 := by omega
    have hLow : minInt64 ≤ (w.toNat : Int) := by
      simp only [minInt64]
      omega
    have hHigh : (w.toNat : Int) ≤ maxInt64 := by
      simp only [UInt32.size, maxInt64] at hWord ⊢
      omega
    rw [nearestInteger, view_ofUInt32 hw]
    simp only [ratio, if_neg hNegative, hShift, wordSignificand, roundDiv_shiftLeft]
    exact saturate_of_mem hLow hHigh

end BlockFilter.Binary64
