import BlockFilter.Bytes.Crc32
import Mathlib.Logic.Function.Iterate
import Mathlib.Order.Monotone.Basic

/-! Bursts of damage and the cyclic redundancy check. A shift of the register is linear in exclusive
or and loses nothing, so bytes that follow a change cannot undo it. Up to four bytes are held by the
register side by side, so a change within four consecutive bytes cannot undo itself. A stored
checksum is taken in like any other four bytes, and behind its own byte string it always leaves the
same register. -/

namespace BlockFilter

theorem LittleEndian.size_monotone : Monotone size :=
  monotone_nat_of_le_succ fun width => by
    rw [size]
    omega

/-- The bytes before a window of four, in it and after it. -/
theorem eq_take_append_window_append_drop (bytes : Bytes) (start : Nat) :
    bytes = bytes.take start ++ (bytes.drop start).take 4 ++ bytes.drop (start + 4) := by
  rw [← List.drop_drop, List.append_assoc, List.take_append_drop, List.take_append_drop]

/-- A byte string of the same length, the same but for four consecutive bytes. -/
structure Burst (original damaged : Bytes) (start : Nat) : Prop where
  length_eq : damaged.length = original.length
  outside : ∀ i, i < start ∨ start + 4 ≤ i → damaged[i]? = original[i]?

namespace Burst

variable {original damaged : Bytes} {start count : Nat}

theorem refl (bytes : Bytes) (start : Nat) : Burst bytes bytes start := ⟨rfl, fun _ _ => rfl⟩

theorem take_eq (h : Burst original damaged start) (hCount : count ≤ start) :
    damaged.take count = original.take count := by
  apply List.ext_getElem?
  intro i
  rw [List.getElem?_take, List.getElem?_take]
  split
  · exact h.outside i (.inl (by omega))
  · rfl

theorem drop_eq (h : Burst original damaged start) :
    damaged.drop (start + 4) = original.drop (start + 4) := by
  apply List.ext_getElem?
  intro i
  rw [List.getElem?_drop, List.getElem?_drop]
  exact h.outside _ (.inr (by omega))

theorem drop (h : Burst original damaged start) (hCount : count ≤ start) :
    Burst (original.drop count) (damaged.drop count) (start - count) where
  length_eq := by rw [List.length_drop, List.length_drop, h.length_eq]
  outside := by
    intro i hOutside
    rw [List.getElem?_drop, List.getElem?_drop]
    exact h.outside (count + i) (by omega)

/-- A window is replaced by four other bytes. -/
theorem of_window {bytes window : Bytes} (hWindow : window.length = 4)
    (hFits : start + 4 ≤ bytes.length) :
    Burst bytes (bytes.take start ++ window ++ bytes.drop (start + 4)) start where
  length_eq := by
    simp only [List.length_append, List.length_take, List.length_drop, hWindow]
    omega
  outside := by
    intro i hOutside
    have hStart : min start bytes.length = start := Nat.min_eq_left (by omega)
    simp only [List.getElem?_append, List.getElem?_take, List.getElem?_drop, List.length_append,
      List.length_take, hWindow, hStart]
    rcases hOutside with hBefore | hAfter
    · rw [if_pos (by omega), if_pos hBefore, if_pos hBefore]
    · rw [if_neg (by omega), Nat.add_sub_cancel' hAfter]

/-- All that a burst can change is its window. -/
theorem eq_of_window_eq (h : Burst original damaged start)
    (hWindow : (damaged.drop start).take 4 = (original.drop start).take 4) :
    damaged = original := by
  rw [eq_take_append_window_append_drop damaged start,
    eq_take_append_window_append_drop original start, h.take_eq (Nat.le_refl start), hWindow,
    h.drop_eq]

end Burst

namespace Crc32

variable {register stored : UInt32} {original damaged : Bytes}

/-! ## One shift -/

theorem xor_xor_cancel (a b : UInt32) : a ^^^ (a ^^^ b) = b := by
  rw [← UInt32.xor_assoc, UInt32.xor_self, UInt32.zero_xor]

theorem and_one_eq_one_iff (word : UInt32) : word &&& 1 = 1 ↔ word.toNat % 2 = 1 := by
  rw [← UInt32.toNat_inj, UInt32.toNat_and, UInt32.toNat_one, Nat.and_one_is_mod]

theorem toNat_half (word : UInt32) : (word >>> 1).toNat = word.toNat / 2 := by
  rw [UInt32.toNat_shiftRight, UInt32.toNat_one, Nat.shiftRight_eq_div_pow, Nat.pow_one]

theorem shift_xor (a b : UInt32) : shift (a ^^^ b) = shift a ^^^ shift b := by
  have hLow : (a ^^^ b) &&& 1 = 1 ↔ ¬(a &&& 1 = 1 ↔ b &&& 1 = 1) := by
    simp only [and_one_eq_one_iff, UInt32.toNat_xor, Nat.xor_mod_two_eq_one]
  simp only [shift, UInt32.shiftRight_xor, hLow]
  by_cases ha : a &&& 1 = 1
  · by_cases hb : b &&& 1 = 1
    · simp only [ha, hb, iff_self, not_true_eq_false, if_true, if_false]
      rw [UInt32.xor_assoc, UInt32.xor_comm (b >>> 1), xor_xor_cancel]
    · simp only [ha, hb, iff_false, not_true_eq_false, not_false_eq_true, if_true, if_false]
      ac_rfl
  · by_cases hb : b &&& 1 = 1
    · simp only [ha, hb, iff_true, not_false_eq_true, if_true, if_false]
      ac_rfl
    · simp only [ha, hb, iff_self, not_true_eq_false, if_false]

theorem shift_two_mul {n : Nat} (h : 2 * n < UInt32.size) :
    shift (UInt32.ofNat (2 * n)) = UInt32.ofNat n := by
  have hWord : (UInt32.ofNat (2 * n)).toNat = 2 * n := UInt32.toNat_ofNat_of_lt' h
  have hEven : ¬(UInt32.ofNat (2 * n) &&& 1 = 1) := by
    rw [and_one_eq_one_iff, hWord]
    omega
  rw [shift, if_neg hEven]
  apply UInt32.toNat.inj
  rw [toNat_half, hWord, UInt32.toNat_ofNat_of_lt' (by omega)]
  omega

theorem eq_zero_of_shift (h : shift register = 0) : register = 0 := by
  have hWord := register.toNat_lt_size
  -- An odd word has the generator mixed in, whose top bit no halved word can cancel.
  rw [shift] at h
  split at h
  · have hGenerator := congrArg UInt32.toNat (UInt32.xor_eq_zero_iff.mp h)
    rw [toNat_half] at hGenerator
    have hTop : generator.toNat = 0xEDB88320 := rfl
    simp only [UInt32.size] at hWord
    omega
  · rename_i hEven
    rw [and_one_eq_one_iff] at hEven
    have hZero := congrArg UInt32.toNat h
    rw [toNat_half, UInt32.toNat_zero] at hZero
    apply UInt32.toNat.inj
    rw [UInt32.toNat_zero]
    omega

theorem shift_injective : Function.Injective shift := by
  intro a b h
  have hZero : shift (a ^^^ b) = 0 := by rw [shift_xor, h, UInt32.xor_self]
  exact UInt32.xor_eq_zero_iff.mp (eq_zero_of_shift hZero)

/-! ## Bytes -/

theorem absorb_eq_iterate (register : UInt32) (byte : UInt8) :
    absorb register byte = shift^[8] (register ^^^ byte.toUInt32) := rfl

theorem iterate_shift_xor (count : Nat) (a b : UInt32) :
    shift^[count] (a ^^^ b) = shift^[count] a ^^^ shift^[count] b := by
  induction count with
  | zero => rfl
  | succ count ih =>
      simp only [Function.iterate_succ_apply', ih, shift_xor]

theorem iterate_shift_shiftLeft {count n : Nat} (h : n <<< count < UInt32.size) :
    shift^[count] (UInt32.ofNat (n <<< count)) = UInt32.ofNat n := by
  induction count with
  | zero => rfl
  | succ count ih =>
      rw [Nat.shiftLeft_succ] at h ⊢
      rw [Function.iterate_succ_apply, shift_two_mul h]
      exact ih (by omega)

/-- Nothing that is taken in later undoes a difference in the register. -/
theorem run_injective (bytes : Bytes) : Function.Injective (run · bytes) := by
  intro a b h
  induction bytes generalizing a b with
  | nil => exact h
  | cons byte rest ih =>
      have hAbsorb : absorb a byte = absorb b byte := ih h
      rw [absorb_eq_iterate, absorb_eq_iterate] at hAbsorb
      exact (UInt32.xor_left_inj _).mp (shift_injective.iterate 8 hAbsorb)

/-- The low byte of a number and the rest of it, side by side. -/
theorem low_xor_high (n : Nat) : (n % 256) ^^^ (256 * (n / 256)) = n := by
  apply Nat.eq_of_testBit_eq
  intro i
  have h256 : 256 = 2 ^ 8 := rfl
  rw [Nat.testBit_xor, h256, Nat.testBit_mod_two_pow, Nat.testBit_two_pow_mul,
    Nat.testBit_div_two_pow]
  by_cases hi : i < 8
  · simp [hi, Nat.not_le_of_lt hi]
  · simp [hi, Nat.le_of_not_lt hi]

/-- Bytes whose number fits the register are laid into it side by side and then shifted out. -/
theorem run_ofNat {width n : Nat} (hn : n < LittleEndian.size width) (hWord : n < UInt32.size) :
    run register (LittleEndian.ofNat width n) = shift^[8 * width] (register ^^^ UInt32.ofNat n) := by
  induction width generalizing register n with
  | zero =>
      have hZero : n = 0 := Nat.lt_one_iff.mp hn
      rw [hZero]
      exact UInt32.xor_zero.symm
  | succ width ih =>
      have hRest : n / 256 < LittleEndian.size width := by
        rw [LittleEndian.size] at hn
        omega
      have hHigh : (n / 256) <<< 8 = 256 * (n / 256) := by
        rw [Nat.shiftLeft_eq, Nat.mul_comm]
      have hOut : shift^[8] (UInt32.ofNat ((n / 256) <<< 8)) = UInt32.ofNat (n / 256) :=
        iterate_shift_shiftLeft (by omega)
      have hLow : (UInt8.ofNat n).toUInt32 = UInt32.ofNat (n % 256) := by
        apply UInt32.toNat.inj
        rw [UInt8.toNat_toUInt32, UInt8.toNat_ofNat', UInt32.toNat_ofNat_of_lt' (by omega)]
      -- The low byte goes through eight shifts and the rest of the number comes down by one byte.
      have hStep : absorb register (UInt8.ofNat n) ^^^ UInt32.ofNat (n / 256) =
          shift^[8] (register ^^^ UInt32.ofNat n) := by
        rw [absorb_eq_iterate, ← hOut, ← iterate_shift_xor, UInt32.xor_assoc, hLow,
          ← UInt32.ofNat_xor, hHigh, low_xor_high]
      rw [LittleEndian.ofNat, run_cons, ih hRest (by omega), hStep, ← Function.iterate_add_apply,
        Nat.mul_succ]

/-- The register tells apart any two strings of up to four bytes that are taken in next. -/
theorem eq_of_run_eq {x y : Bytes} (hLength : x.length = y.length) (hShort : x.length ≤ 4)
    (h : run register x = run register y) : x = y := by
  have hSize : LittleEndian.size x.length ≤ UInt32.size := LittleEndian.size_monotone hShort
  have hx := LittleEndian.toNat_lt_size x
  have hy := LittleEndian.toNat_lt_size y
  rw [← hLength] at hy
  have hxWord := Nat.lt_of_lt_of_le hx hSize
  have hyWord := Nat.lt_of_lt_of_le hy hSize
  rw [← LittleEndian.ofNat_toNat x, ← LittleEndian.ofNat_toNat y, ← hLength, run_ofNat hx hxWord,
    run_ofNat hy hyWord] at h
  have hNumber := (UInt32.xor_right_inj _).mp (shift_injective.iterate _ h)
  have hSame : LittleEndian.toNat x = LittleEndian.toNat y := by
    have hNat := congrArg UInt32.toNat hNumber
    rwa [UInt32.toNat_ofNat_of_lt' hxWord, UInt32.toNat_ofNat_of_lt' hyWord] at hNat
  rw [← LittleEndian.ofNat_toNat x, ← LittleEndian.ofNat_toNat y, ← hLength, hSame]

/-! ## Bursts -/

/-- A burst leaves another register, unless it changes nothing. -/
theorem eq_of_run_eq_of_burst {start : Nat} (hBurst : Burst original damaged start)
    (h : run register damaged = run register original) : damaged = original := by
  have hBefore := hBurst.take_eq (Nat.le_refl start)
  have hAfter := hBurst.drop_eq
  apply hBurst.eq_of_window_eq
  -- The bytes before the window bring both runs to one register, and the bytes after it keep what
  -- differs behind the window, so the window itself cannot differ.
  rw [eq_take_append_window_append_drop damaged start,
    eq_take_append_window_append_drop original start, run_append, run_append, run_append,
    run_append, hBefore, hAfter] at h
  refine eq_of_run_eq ?_ ?_ (run_injective _ h)
  · rw [List.length_take, List.length_take, (hBurst.drop (Nat.le_refl start)).length_eq]
  · rw [List.length_take]
    exact Nat.min_le_left ..

/-- What the register holds after a byte string and its checksum. -/
def residue : UInt32 := shift^[32] 0xFFFFFFFF

theorem run_append_checksum_iff (bytes : Bytes) :
    run 0xFFFFFFFF (bytes ++ LittleEndian.uint32 stored) = residue ↔ stored = checksum bytes := by
  rw [run_append, LittleEndian.uint32, run_ofNat stored.toNat_lt stored.toNat_lt,
    UInt32.ofNat_toNat, residue, (shift_injective.iterate _).eq_iff, checksum]
  generalize run 0xFFFFFFFF bytes = register
  constructor
  · intro h
    rw [← h, xor_xor_cancel]
  · intro h
    rw [h, xor_xor_cancel]

/-- No burst across a byte string and its checksum leaves a byte string with its checksum. -/
theorem ne_checksum_of_burst {storedDamaged : UInt32} {start : Nat}
    (hBurst : Burst (original ++ LittleEndian.uint32 (checksum original))
      (damaged ++ LittleEndian.uint32 storedDamaged) start)
    (hDiff : damaged ++ LittleEndian.uint32 storedDamaged ≠
      original ++ LittleEndian.uint32 (checksum original)) :
    storedDamaged ≠ checksum damaged := by
  intro hStored
  have hDamaged := (run_append_checksum_iff damaged).mpr hStored
  have hOriginal := (run_append_checksum_iff original).mpr rfl
  exact hDiff (eq_of_run_eq_of_burst hBurst (hDamaged.trans hOriginal.symm))

end Crc32

end BlockFilter
