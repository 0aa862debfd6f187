import BlockFilter.Proofs.BitArray
import BlockFilter.Proofs.ProbePlaces
import Mathlib.Data.List.Perm.Basic
import Mathlib.Data.Nat.Bitwise

/-! The trained bit array as a union of sets. A bit is set exactly where it is the position of a
probe of some trained hash, so a hash passes exactly where each of its positions is one of a trained
hash. Setting bits commutes, so the order of the hashes leaves no trace. -/

namespace BlockFilter.Bloom

open ProbeSequence

variable {size : Nat} {probes : UInt8} {hashes other : List KeyHash} {position : UInt32}

/-! ## Bits of the array -/

/-- Whether the array has a bit at a place and the bit is set. The bits of a byte are counted from
the lowest. -/
def isSet (bloom : Bloom) (place : Nat) : Bool :=
  bloom.bits[place / 8]?.any fun byte => byte.toNat.testBit (place % 8)

theorem toNat_mask (position : UInt32) : (mask position).toNat = 1 <<< (position.toNat % 8) := by
  have hMasks : ∀ r : Fin 8, (1 <<< (UInt32.ofNat r).toUInt8 : UInt8).toNat = 1 <<< r.val := by
    decide
  have hBit : (position % 8).toNat < 8 :=
    UInt32.lt_iff_toNat_lt.mp (UInt32.mod_lt position (by decide))
  have h := hMasks ⟨_, hBit⟩
  rw [UInt32.ofNat_toNat] at h
  exact h

theorem and_mask_ne_zero (byte : UInt8) (position : UInt32) :
    (byte &&& mask position != 0) = byte.toNat.testBit (position.toNat % 8) := by
  rw [Bool.eq_iff_iff, bne_iff_ne, ne_eq, ← UInt8.toNat_inj, UInt8.toNat_and, toNat_mask,
    Nat.one_shiftLeft, Nat.and_two_pow]
  cases byte.toNat.testBit (position.toNat % 8) <;> simp

theorem isSet_toNat (bloom : Bloom) (position : UInt32) :
    bloom.isSet position.toNat = true ↔ bloom.bit? position = some true := by
  have hByte : (position / 8).toNat = position.toNat / 8 := UInt32.toNat_div ..
  rw [isSet, bit?, hByte]
  cases bloom.bits[position.toNat / 8]? with
  | none => simp
  | some byte => simp [and_mask_ne_zero]

/-! ## Order of insertion -/

theorem setBit_comm (bloom : Bloom) (p q : UInt32) :
    (bloom.setBit p).setBit q = (bloom.setBit q).setBit p := by
  have hBits : ((bloom.bits.modify (p / 8).toNat (· ||| mask p)).modify (q / 8).toNat
      (· ||| mask q)) = (bloom.bits.modify (q / 8).toNat (· ||| mask q)).modify (p / 8).toNat
        (· ||| mask p) := by
    apply Array.ext_getElem?
    intro i
    simp only [Array.getElem?_modify]
    by_cases hp : (p / 8).toNat = i <;> by_cases hq : (q / 8).toNat = i <;>
      simp only [hp, hq, if_true, if_false]
    -- Both bits are in this byte.
    cases bloom.bits[i]? with
    | none => rfl
    | some byte => simp only [Option.map_some, UInt8.or_assoc, UInt8.or_comm (mask p)]
  simp only [setBit, hBits]

theorem foldl_setBit_comm (bloom : Bloom) (ps qs : List UInt32) :
    qs.foldl setBit (ps.foldl setBit bloom) = ps.foldl setBit (qs.foldl setBit bloom) := by
  rw [← List.foldl_append, ← List.foldl_append]
  apply List.perm_append_comm.foldl_eq'
  intro p _ q _ current
  exact setBit_comm current p q

theorem insert_comm (bloom : Bloom) (first second : KeyHash) :
    (bloom.insert first).insert second = (bloom.insert second).insert first := by
  have hFirst := congrFun (positions_insert bloom first) second
  have hSecond := congrFun (positions_insert bloom second) first
  rw [insert, hFirst, insert, foldl_setBit_comm, insert, hSecond, insert]

theorem insertAll_perm (bloom : Bloom) (h : hashes.Perm other) :
    bloom.insertAll hashes = bloom.insertAll other := by
  apply h.foldl_eq'
  intro first _ second _ current
  exact insert_comm current first second

/-! ## Trained sets -/

@[simp] theorem probes_insert (bloom : Bloom) (hash : KeyHash) :
    (bloom.insert hash).probes = bloom.probes := by
  rw [insert]
  generalize bloom.positions hash = positions
  induction positions generalizing bloom with
  | nil => rfl
  | cons p rest ih => exact (ih (bloom.setBit p)).trans (probes_setBit bloom p)

@[simp] theorem probes_insertAll (bloom : Bloom) (hashes : List KeyHash) :
    (bloom.insertAll hashes).probes = bloom.probes := by
  induction hashes generalizing bloom with
  | nil => rfl
  | cons hash rest ih => exact (ih (bloom.insert hash)).trans (probes_insert bloom hash)

@[simp] theorem probes_cleared (size : Nat) (probes : UInt8) :
    (cleared size probes).probes = probes := rfl

theorem bit?_cleared_ne (size : Nat) (probes : UInt8) (position : UInt32) :
    (cleared size probes).bit? position ≠ some true := by
  rw [bit?, cleared, Array.getElem?_replicate]
  split <;> simp

/-- Nothing is set but the positions of the hashes. -/
theorem bit?_trained_iff :
    ((cleared size probes).insertAll hashes).bit? position = some true ↔
      ∃ hash ∈ hashes, position ∈ (cleared size probes).positions hash := by
  rw [bit?_insertAll]
  split
  · rename_i hSome
    exact iff_of_true rfl hSome
  · rename_i hNone
    exact iff_of_false (bit?_cleared_ne size probes position) hNone

section Places

variable (hSize : size ≠ 0) (hFits : 8 * size < UInt32.size)
include hSize hFits

/-- As long as the bits can be numbered by words, all of them are addressed. -/
theorem toNat_numBits_cleared (probes : UInt8) :
    (cleared size probes).numBits.toNat = 8 * size ∧ (cleared size probes).numBits ≠ 0 := by
  have hBits : (cleared size probes).numBits.toNat = 8 * size := by
    have hBytes : (cleared size probes).bits.size = size := sizeBytes_cleared size probes
    rw [numBits, hBytes, toNat_ofNatClamp]
    omega
  refine ⟨hBits, ?_⟩
  intro hZero
  rw [hZero, UInt32.toNat_zero] at hBits
  omega

theorem map_toNat_positions_cleared (hash : KeyHash) :
    ((cleared size probes).positions hash).map UInt32.toNat =
      (List.range probes.toNat).map (place hash (8 * size)) := by
  obtain ⟨hBits, hSome⟩ := toNat_numBits_cleared hSize hFits probes
  rw [positions, map_toNat_positions hSome, hBits, probes_cleared]

theorem mem_positions_cleared_iff {hash : KeyHash} :
    position ∈ (cleared size probes).positions hash ↔
      ∃ j < probes.toNat, position.toNat = place hash (8 * size) j := by
  obtain ⟨hBits, hSome⟩ := toNat_numBits_cleared hSize hFits probes
  rw [positions, mem_positions_iff hSome, hBits, probes_cleared]

theorem isSet_trained_iff (probes : UInt8) (hashes : List KeyHash) {p : Nat} (hp : p < 8 * size) :
    ((cleared size probes).insertAll hashes).isSet p = true ↔
      ∃ hash ∈ hashes, ∃ j < probes.toNat, p = place hash (8 * size) j := by
  have hWord : (UInt32.ofNat p).toNat = p := UInt32.toNat_ofNat_of_lt' (Nat.lt_trans hp hFits)
  rw [← hWord, isSet_toNat, bit?_trained_iff]
  simp only [mem_positions_cleared_iff hSize hFits]

theorem mayContain_trained_iff (probes : UInt8) (hashes : List KeyHash) (query : KeyHash) :
    ((cleared size probes).insertAll hashes).mayContain query = true ↔
      ∀ i < probes.toNat, ∃ hash ∈ hashes, ∃ j < probes.toNat,
        place query (8 * size) i = place hash (8 * size) j := by
  rw [mayContain_iff, positions_insertAll]
  simp only [bit?_trained_iff, mem_positions_cleared_iff hSize hFits]
  constructor
  · intro h i hi
    have hMem : place query (8 * size) i ∈
        ((cleared size probes).positions query).map UInt32.toNat := by
      rw [map_toNat_positions_cleared hSize hFits]
      exact List.mem_map_of_mem (List.mem_range.mpr hi)
    obtain ⟨position, hPosition, hPlace⟩ := List.mem_map.mp hMem
    rw [← hPlace]
    exact h position ((mem_positions_cleared_iff hSize hFits).mp hPosition)
  · rintro h position ⟨i, hi, hPlace⟩
    rw [hPlace]
    exact h i hi

end Places

/-! ## Sizes -/

/-- How training is told the size of the array: in bytes, or as a budget of bits for each key. -/
inductive Sizing where
  | bytes (size : Nat)
  | bitsPerKey (budget : Nat)

namespace Sizing

def train : Sizing → List KeyHash → Bloom
  | bytes size, hashes => ofSize hashes size
  | bitsPerKey budget, hashes => ofBudget hashes budget

/-- Bytes of the array for a number of keys. Neither way makes it shorter than eight bytes. -/
def arrayBytes : Sizing → Nat → Nat
  | bytes size, _ => max size 8
  | bitsPerKey budget, keys => ceilDiv (max (keys * max budget 1) 64) 8

/-- Training starts from an array of its size with no bit set. -/
theorem insertAll_eq_train (sizing : Sizing) (hashes : List KeyHash) :
    (cleared (sizing.train hashes).sizeBytes (sizing.train hashes).probes).insertAll hashes =
      sizing.train hashes := by
  cases sizing with
  | bytes size =>
      rw [train, ofSize, sizeBytes_insertAll, sizeBytes_cleared, probes_insertAll, probes_cleared]
  | bitsPerKey budget =>
      rw [train, ofBudget, sizeBytes_insertAll, sizeBytes_cleared, probes_insertAll, probes_cleared]

/-- The number of hashes settles size and probes, and the order of insertion plays no part. -/
theorem train_perm (sizing : Sizing) (h : hashes.Perm other) :
    sizing.train other = sizing.train hashes := by
  cases sizing with
  | bytes size =>
      rw [train, train, ofSize, ofSize, insertAll_perm _ h, h.isEmpty_eq, h.length_eq]
  | bitsPerKey budget =>
      rw [train, train, ofBudget, ofBudget, insertAll_perm _ h, h.isEmpty_eq, h.length_eq]

theorem eight_le_sizeBytes_train (sizing : Sizing) (hashes : List KeyHash) :
    8 ≤ (sizing.train hashes).sizeBytes := by
  cases sizing with
  | bytes size =>
      rw [train, sizeBytes_ofSize]
      exact Nat.le_max_right ..
  | bitsPerKey budget =>
      rw [train, sizeBytes_ofBudget, ceilDiv, minBloomBytes]
      omega

/-- A number of bits that is cut down to 64 bits is far past what words can number. -/
theorem sizeBytes_train {sizing : Sizing}
    (hFits : 8 * (sizing.train hashes).sizeBytes < UInt32.size) :
    (sizing.train hashes).sizeBytes = sizing.arrayBytes hashes.length := by
  cases sizing with
  | bytes size => exact sizeBytes_ofSize hashes size
  | bitsPerKey budget =>
      rw [train, sizeBytes_ofBudget, minBloomBytes] at hFits ⊢
      rw [arrayBytes]
      generalize hashes.length * max budget 1 = numBits at hFits ⊢
      simp only [ceilDiv, UInt32.size, UInt64.size] at hFits ⊢
      omega

/-- Training sets the bits at the places of the probes of its hashes and no others, so a hash passes
exactly where each of its places is one of a trained hash. The order of the hashes plays no part. -/
theorem train_eq_union (sizing : Sizing) (hashes : List KeyHash)
    (hFits : 8 * (sizing.train hashes).sizeBytes < UInt32.size) :
    let bloom := sizing.train hashes
    let numBits := 8 * bloom.sizeBytes
    let probes := bloom.probes.toNat
    bloom.sizeBytes = sizing.arrayBytes hashes.length ∧
      (∀ p < numBits, bloom.isSet p = true ↔
        ∃ hash ∈ hashes, ∃ j < probes, p = place hash numBits j) ∧
      (∀ query, bloom.mayContain query = true ↔
        ∀ i < probes, ∃ hash ∈ hashes, ∃ j < probes,
          place query numBits i = place hash numBits j) ∧
      ∀ other, hashes.Perm other → sizing.train other = bloom := by
  intro bloom numBits probes
  have hTrain : (cleared bloom.sizeBytes bloom.probes).insertAll hashes = bloom :=
    sizing.insertAll_eq_train hashes
  have hSize : bloom.sizeBytes ≠ 0 :=
    Nat.ne_of_gt (Nat.lt_of_lt_of_le (by decide) (sizing.eight_le_sizeBytes_train hashes))
  refine ⟨sizeBytes_train hFits, ?_, ?_, fun other h => sizing.train_perm h⟩
  · intro p hp
    have hUnion := isSet_trained_iff hSize hFits bloom.probes hashes hp
    rwa [hTrain] at hUnion
  · intro query
    have hUnion := mayContain_trained_iff hSize hFits bloom.probes hashes query
    rwa [hTrain] at hUnion

/-- Two hashes that share no place. The hash 73 was not trained and passes, because all of its
places are the one of the hash 9. -/
theorem train_eq_union_pair :
    let bloom : Bloom := ⟨#[128, 38, 73, 2, 0, 0, 0, 0], 7⟩
    (bitsPerKey 10).train [0x60007, 9] = bloom ∧ 8 * bloom.sizeBytes < UInt32.size ∧
      bloom.sizeBytes = (bitsPerKey 10).arrayBytes 2 ∧ bloom.isSet 22 = true ∧
      bloom.mayContain 73 = true ∧ (bitsPerKey 10).train [9, 0x60007] = bloom := by
  intro bloom
  have hTrain : (bitsPerKey 10).train [0x60007, 9] = bloom := by decide +kernel
  have hFits : 8 * bloom.sizeBytes < UInt32.size := by decide
  have hUnion := train_eq_union (bitsPerKey 10) [0x60007, 9] (by rw [hTrain]; exact hFits)
  rw [hTrain] at hUnion
  obtain ⟨hBytes, hBits, hQuery, hPerm⟩ := hUnion
  have hSet : bloom.isSet 22 = true :=
    (hBits 22 (by decide)).mpr ⟨0x60007, by decide, 5, by decide, by decide⟩
  have hPasses : bloom.mayContain 73 = true := (hQuery 73).mpr (by decide)
  exact ⟨hTrain, hFits, hBytes, hSet, hPasses, hPerm _ (List.Perm.swap ..)⟩

end Sizing

end BlockFilter.Bloom
