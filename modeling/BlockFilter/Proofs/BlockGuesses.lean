import Mathlib.Algebra.Order.Floor.Semifield
import BlockFilter.Proofs.NearestNumbers
import BlockFilter.Proofs.Training

/-! Guesses of a block. Inside a span of hashes the guess interpolates: a rounded quotient is cut to
the interval from zero to one, multiplied by the last ordinal, rounded again and cut down to an
integer. Every step keeps the order of values, and the ends of the interval are numbers of the
format. So the guesses follow the order of the hashes from the first block of the table to its last
one. -/

namespace BlockFilter

open Binary64

/-! ## Interpolation -/

/-- The share of a span that lies below an offset, rounded and then cut to the interval from zero to
one. -/
def shareBelow (round : ℚ → ℚ) (offset span : Nat) : ℚ := max 0 (min (round (offset / span)) 1)

/-- The share of the last ordinal that an offset gets. -/
def interpolate (round : ℚ → ℚ) (offset span last : Nat) : ℚ :=
  round (shareBelow round offset span * last)

theorem shareBelow_nonneg (round : ℚ → ℚ) (offset span : Nat) : 0 ≤ shareBelow round offset span :=
  le_max_left _ _

theorem shareBelow_le_one (round : ℚ → ℚ) (offset span : Nat) : shareBelow round offset span ≤ 1 :=
  max_le zero_le_one (min_le_right _ _)

namespace Binary64.RoundsToNearest

variable {round : ℚ → ℚ} {offset offset' span last : Nat}

theorem round_zero (h : RoundsToNearest round) : round 0 = 0 := h.natCast (n := 0) (by norm_num)

theorem round_one (h : RoundsToNearest round) : round 1 = 1 := by
  exact_mod_cast h.natCast (n := 1) (by norm_num)

/-- Rounding keeps the order and leaves one alone, so cutting the offset down to the span comes to
the same as cutting the rounded share. -/
theorem round_min_div (h : RoundsToNearest round) (hSpan : span ≠ 0) :
    round ((min offset span : Nat) / span) = shareBelow round offset span := by
  have hNonneg : (0 : ℚ) ≤ offset / span := by positivity
  have hCut : ((min offset span : Nat) : ℚ) / span = min ((offset : ℚ) / span) 1 := by
    rw [Nat.cast_min, ← min_div_div_right span.cast_nonneg, div_self (Nat.cast_ne_zero.mpr hSpan)]
  have hRounded : round (min ((offset : ℚ) / span) 1) = min (round (offset / span)) 1 := by
    rw [h.monotoneOn.map_min hNonneg (Set.mem_Ici.mpr zero_le_one), h.round_one]
  rw [hCut, hRounded, shareBelow, max_eq_right (le_min (h.nonneg hNonneg) zero_le_one)]

theorem shareBelow_mono (h : RoundsToNearest round) (hOrder : offset ≤ offset') :
    shareBelow round offset span ≤ shareBelow round offset' span := by
  have hQuotient : (offset : ℚ) / span ≤ offset' / span := by gcongr
  have hRounded := h.mono (by positivity) hQuotient
  exact max_le_max_left 0 (min_le_min_right 1 hRounded)

theorem shareBelow_zero (h : RoundsToNearest round) : shareBelow round 0 span = 0 := by
  rw [shareBelow, Nat.cast_zero, zero_div, h.round_zero, min_eq_left zero_le_one, max_self]

theorem shareBelow_of_le (h : RoundsToNearest round) (hSpan : span ≠ 0) (hEnd : span ≤ offset) :
    shareBelow round offset span = 1 := by
  rw [← h.round_min_div hSpan, Nat.min_eq_right hEnd, div_self (Nat.cast_ne_zero.mpr hSpan),
    h.round_one]

theorem interpolate_mono (h : RoundsToNearest round) (hOrder : offset ≤ offset') :
    interpolate round offset span last ≤ interpolate round offset' span last := by
  have hShare : shareBelow round offset span ≤ shareBelow round offset' span :=
    h.shareBelow_mono hOrder
  have hNonneg := shareBelow_nonneg round offset span
  exact h.mono (by positivity) (by gcongr)

theorem interpolate_zero (h : RoundsToNearest round) : interpolate round 0 span last = 0 := by
  rw [interpolate, h.shareBelow_zero, zero_mul, h.round_zero]

theorem interpolate_of_le (h : RoundsToNearest round) (hSpan : span ≠ 0) (hEnd : span ≤ offset)
    (hLast : last < 2 ^ 53) : interpolate round offset span last = last := by
  rw [interpolate, h.shareBelow_of_le hSpan hEnd, one_mul, h.natCast hLast]

/-- The product is at most the last ordinal, which rounding leaves alone. -/
theorem interpolate_le (h : RoundsToNearest round) (hLast : last < 2 ^ 53) :
    interpolate round offset span last ≤ last := by
  have hNonneg := shareBelow_nonneg round offset span
  have hProduct : shareBelow round offset span * last ≤ last :=
    mul_le_of_le_one_left last.cast_nonneg (shareBelow_le_one round offset span)
  have hRounded := h.mono (by positivity) hProduct
  rwa [h.natCast hLast] at hRounded

end Binary64.RoundsToNearest

/-! ## Guesses -/

namespace SpanFilter

variable {bounds : SpanFilter}

/-- Where the interpolation puts a hash, before it is cut down to a block. A hash below the span
counts as its lower end. -/
def place (bounds : SpanFilter) (hash : KeyHash) : ℚ :=
  interpolate rounded (hash.toNat - bounds.minHash.toNat)
    (bounds.maxHash.toNat - bounds.minHash.toNat) (bounds.numBlocks.toNat - 1)

theorem toNat_lastBlock (bounds : SpanFilter) :
    bounds.lastBlock.toNat = bounds.numBlocks.toNat - 1 := by
  have hWord := bounds.numBlocks.toNat_lt_size
  rw [lastBlock, toNat_lastOrdinal]
  omega

theorem toNat_numBlocks_sub_one_lt (bounds : SpanFilter) : bounds.numBlocks.toNat - 1 < 2 ^ 53 := by
  have hWord := bounds.numBlocks.toNat_lt
  omega

theorem floor_place_le (bounds : SpanFilter) (hash : KeyHash) :
    ⌊bounds.place hash⌋₊ ≤ bounds.numBlocks.toNat - 1 :=
  Nat.floor_le_of_le (rounded_roundsToNearest.interpolate_le bounds.toNat_numBlocks_sub_one_lt)

/-- Inside a table and a span the rounded numbers are those of the interpolation, and the integer
part of its result is a 32-bit word. -/
theorem toNat_guessBlock (hBlocks : bounds.numBlocks ≠ 0) (hSpan : bounds.minHash < bounds.maxHash)
    (hash : KeyHash) : (bounds.guessBlock hash).toNat = ⌊bounds.place hash⌋₊ := by
  let span := bounds.maxHash.toNat - bounds.minHash.toNat
  let offset := hash.toNat - bounds.minHash.toNat
  let last := bounds.numBlocks.toNat - 1
  let share := nearestRatio (min offset span) span
  have hWidth : span ≠ 0 := Nat.sub_ne_zero_of_lt hSpan
  have hShare : (share.1 : ℚ) / share.2 = shareBelow rounded offset span := by
    rw [nearestRatio_div _ hWidth, rounded_roundsToNearest.round_min_div hWidth]
  have hPlace : bounds.place hash = rounded ((share.1 * last : Nat) / share.2) := by
    rw [place, interpolate, ← hShare, Nat.cast_mul, mul_div_right_comm]
  have hGuess : bounds.guessBlock hash = UInt32.ofNat ⌊bounds.place hash⌋₊ := by
    rw [guessBlock, if_neg hBlocks, if_neg (UInt32.not_le.mpr hSpan), hPlace,
      ← nearestRatio_div _ (nearestRatio_snd_ne_zero _ _), Nat.floor_div_eq_div]
  have hFloor := bounds.floor_place_le hash
  have hWord := bounds.numBlocks.toNat_lt_size
  rw [hGuess, UInt32.toNat_ofNat_of_lt' (by omega)]

/-- Without blocks or without a span the guess is one block for all hashes. -/
theorem guessBlock_cases (bounds : SpanFilter) :
    (∃ block ≤ bounds.lastBlock, ∀ hash, bounds.guessBlock hash = block) ∨
      ∀ hash, (bounds.guessBlock hash).toNat = ⌊bounds.place hash⌋₊ := by
  by_cases hBlocks : bounds.numBlocks = 0
  · exact .inl ⟨0, UInt32.zero_le, fun _ => if_pos hBlocks⟩
  by_cases hSpan : bounds.maxHash ≤ bounds.minHash
  · refine .inl ⟨bounds.numBlocks / 2, ?_, fun _ => ?_⟩
    · have hPositive : bounds.numBlocks.toNat ≠ 0 := mt (@UInt32.toNat.inj _ 0) hBlocks
      rw [UInt32.le_iff_toNat_le, toNat_lastBlock, UInt32.toNat_div]
      show bounds.numBlocks.toNat / 2 ≤ bounds.numBlocks.toNat - 1
      omega
    · rw [guessBlock, if_neg hBlocks, if_pos hSpan]
  · exact .inr (toNat_guessBlock hBlocks (UInt32.not_le.mp hSpan))

theorem guessBlock_mono {first last : KeyHash} (h : first ≤ last) :
    bounds.guessBlock first ≤ bounds.guessBlock last := by
  rcases bounds.guessBlock_cases with ⟨block, _, hGuess⟩ | hGuess
  · rw [hGuess, hGuess]
    exact UInt32.le_refl block
  · rw [UInt32.le_iff_toNat_le, hGuess, hGuess]
    exact Nat.floor_le_floor
      (rounded_roundsToNearest.interpolate_mono (Nat.sub_le_sub_right h _))

theorem guessBlock_le_lastBlock (bounds : SpanFilter) (hash : KeyHash) :
    bounds.guessBlock hash ≤ bounds.lastBlock := by
  rcases bounds.guessBlock_cases with ⟨block, hTable, hGuess⟩ | hGuess
  · rw [hGuess]
    exact hTable
  · rw [UInt32.le_iff_toNat_le, toNat_lastBlock, hGuess]
    exact bounds.floor_place_le hash

theorem guessBlock_of_le_minHash (hBlocks : bounds.numBlocks ≠ 0)
    (hSpan : bounds.minHash < bounds.maxHash) {hash : KeyHash} (h : hash ≤ bounds.minHash) :
    bounds.guessBlock hash = 0 := by
  have hOffset : hash.toNat - bounds.minHash.toNat = 0 := Nat.sub_eq_zero_of_le h
  rw [← UInt32.toNat_inj, toNat_guessBlock hBlocks hSpan, place, hOffset,
    rounded_roundsToNearest.interpolate_zero, Nat.floor_zero]
  rfl

theorem guessBlock_of_maxHash_le (hBlocks : bounds.numBlocks ≠ 0)
    (hSpan : bounds.minHash < bounds.maxHash) {hash : KeyHash} (h : bounds.maxHash ≤ hash) :
    bounds.guessBlock hash = bounds.lastBlock := by
  have hWidth : bounds.maxHash.toNat - bounds.minHash.toNat ≠ 0 := Nat.sub_ne_zero_of_lt hSpan
  have hOffset : bounds.maxHash.toNat - bounds.minHash.toNat ≤
      hash.toNat - bounds.minHash.toNat := Nat.sub_le_sub_right h _
  rw [← UInt32.toNat_inj, toNat_guessBlock hBlocks hSpan, place,
    rounded_roundsToNearest.interpolate_of_le hWidth hOffset bounds.toNat_numBlocks_sub_one_lt,
    Nat.floor_natCast, toNat_lastBlock]

/-- Guesses keep the order of hashes and stay in the table, whatever a filter holds. Inside a table
a span of more than one hash is interpolated: the guess is the integer part of the place of a hash,
the first block up to the lower end of the span and the last block from its upper end on. -/
theorem guessBlock_follows_order (bounds : SpanFilter) :
    (∀ first last, first ≤ last → bounds.guessBlock first ≤ bounds.guessBlock last ∧
        bounds.guessBlock last ≤ bounds.lastBlock) ∧
      (0 < bounds.numBlocks → bounds.minHash < bounds.maxHash →
        (∀ hash ≤ bounds.minHash, bounds.guessBlock hash = 0) ∧
          (∀ hash ≥ bounds.maxHash, bounds.guessBlock hash = bounds.numBlocks - 1) ∧
          ∀ hash, (bounds.guessBlock hash).toNat = ⌊bounds.place hash⌋₊) := by
  refine ⟨fun _ last h => ⟨guessBlock_mono h, bounds.guessBlock_le_lastBlock last⟩, ?_⟩
  intro hPositive hSpan
  have hBlocks : bounds.numBlocks ≠ 0 := UInt32.pos_iff_ne_zero.mp hPositive
  have hLast : bounds.lastBlock = bounds.numBlocks - 1 := by
    have hOne : 1 ≤ bounds.numBlocks :=
      UInt32.le_iff_toNat_le.mpr (UInt32.lt_iff_toNat_lt.mp hPositive)
    rw [← UInt32.toNat_inj, toNat_lastBlock, UInt32.toNat_sub_of_le _ _ hOne, UInt32.toNat_one]
  refine ⟨?_, ?_, toNat_guessBlock hBlocks hSpan⟩
  · intro hash h
    exact guessBlock_of_le_minHash hBlocks hSpan h
  · intro hash h
    rw [guessBlock_of_maxHash_le hBlocks hSpan h, hLast]

/-- The share 1 / 49 is rounded down, and so is its product with 49. The hash next to the lower end
stays in the first block, although the exact product is 1. -/
theorem guessBlock_follows_order_rounded :
    let bounds : SpanFilter := ⟨.empty, 100, 149, 50, 2⟩
    0 < bounds.numBlocks ∧ bounds.minHash < bounds.maxHash ∧ (101 : KeyHash) ≤ 102 ∧
      bounds.guessBlock 101 = 0 ∧ bounds.guessBlock 101 ≤ bounds.guessBlock 102 ∧
      bounds.guessBlock 102 ≤ bounds.lastBlock ∧ bounds.guessBlock 7 = 0 ∧
      bounds.guessBlock 0xFFFFFFFF = bounds.numBlocks - 1 ∧ ⌊bounds.place 102⌋₊ = 1 := by
  intro bounds
  have hBlocks : 0 < bounds.numBlocks := by decide
  have hSpan : bounds.minHash < bounds.maxHash := by decide
  have hNear : bounds.guessBlock 101 = 0 := by decide +kernel
  have hNext : bounds.guessBlock 102 = 1 := by decide +kernel
  obtain ⟨hOrder, hEnds⟩ := guessBlock_follows_order bounds
  obtain ⟨hBelow, hAbove, hPlace⟩ := hEnds hBlocks hSpan
  obtain ⟨hUp, hTable⟩ := hOrder 101 102 (by decide)
  refine ⟨hBlocks, hSpan, by decide, hNear, hUp, hTable, hBelow 7 (by decide),
    hAbove 0xFFFFFFFF (by decide), ?_⟩
  rw [← hPlace, hNext]
  rfl

end SpanFilter

end BlockFilter
