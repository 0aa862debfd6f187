import BlockFilter.ProbeSequence
import Mathlib.Data.List.Basic

/-! Probe sequences in closed form. A sequence adds its step once for each position and wraps round
at 32 bits, so its positions are the multiples of the step above the hash, reduced first to a word
and then to the number of bits. -/

namespace BlockFilter.ProbeSequence

variable {hash : KeyHash} {probes : UInt8} {numBits position : UInt32}

/-- The position of probe `j` of a hash: `j` steps above the hash, as a word, modulo the number of
bits. The step is the hash turned to the right by seventeen bits. -/
def place (hash : KeyHash) (numBits j : Nat) : Nat :=
  (hash.toNat + j * (hash.toBitVec.rotateRight 17).toNat) % UInt32.size % numBits

theorem toNat_rotate (hash : UInt32) :
    (rotate hash).toNat = (hash.toBitVec.rotateRight 17).toNat := rfl

/-- The hash grows by one step a position, whatever it starts from. -/
theorem map_toNat_walk (step numBits : UInt32) (count : Nat) (hash : UInt32) :
    (walk step numBits count hash).map UInt32.toNat =
      (List.range count).map fun j =>
        (hash.toNat + j * step.toNat) % UInt32.size % numBits.toNat := by
  induction count generalizing hash with
  | zero => rfl
  | succ count ih =>
      have hHead : (hash % numBits).toNat =
          (hash.toNat + 0 * step.toNat) % UInt32.size % numBits.toNat := by
        rw [UInt32.toNat_mod, Nat.zero_mul, Nat.add_zero, Nat.mod_eq_of_lt hash.toNat_lt_size]
      have hTail : ∀ j, ((hash + step).toNat + j * step.toNat) % UInt32.size =
          (hash.toNat + (j + 1) * step.toNat) % UInt32.size := by
        intro j
        rw [UInt32.toNat_add, Nat.mod_add_mod, Nat.succ_mul]
        congr 1
        omega
      rw [walk, List.map_cons, ih, List.range_succ_eq_map, List.map_cons, List.map_map, hHead]
      simp only [hTail, Function.comp_def, Nat.succ_eq_add_one]

theorem map_toNat_positions (hBits : numBits ≠ 0) :
    (positions hash probes numBits).map UInt32.toNat =
      (List.range probes.toNat).map (place hash numBits.toNat) := by
  rw [positions, toList, map_toNat_walk]
  simp only [start, if_neg hBits, toNat_rotate]
  rfl

theorem mem_positions_iff (hBits : numBits ≠ 0) :
    position ∈ positions hash probes numBits ↔
      ∃ j < probes.toNat, position.toNat = place hash numBits.toNat j := by
  have hInjective : Function.Injective UInt32.toNat := fun _ _ => UInt32.toNat.inj
  rw [← List.mem_map_of_injective hInjective, map_toNat_positions hBits, List.mem_map]
  simp only [List.mem_range, eq_comm]

end BlockFilter.ProbeSequence
