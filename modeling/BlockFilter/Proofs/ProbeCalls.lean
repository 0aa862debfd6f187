import BlockFilter.Proofs.ProbePlaces
import BlockFilter.Proofs.SafeAnswers

/-! Calls of a probe sequence. While positions are to come a call gives the next one and takes one
step. After that it gives nothing and changes nothing. The remainder by the number of bits is
checked here, so a sequence without bits would stop a program if it had positions. No sequence that
is started has. -/

namespace BlockFilter.ProbeSequence

variable {probe rest : ProbeSequence} {position : UInt32} {count : Nat}

/-! ## One call -/

/-- What a call answers and what it leaves. -/
def call? (probe : ProbeSequence) : Option (Option UInt32 × ProbeSequence) :=
  match probe.remaining with
  | 0 => some (none, probe)
  | remaining + 1 => do
      let position ← Checked.mod probe.hash probe.numBits
      return (some position, { probe with hash := probe.hash + probe.step, remaining := remaining })

/-- Positions are to come only where there are bits to address. -/
def Addresses (probe : ProbeSequence) : Prop := probe.remaining ≠ 0 → probe.numBits ≠ 0

theorem start_addresses (hash : KeyHash) (probes : UInt8) (numBits : UInt32) :
    (start hash probes numBits).Addresses := by
  intro hRemaining hBits
  exact hRemaining (if_pos hBits)

theorem advance_of_next?_none (h : probe.next? = none) : probe.advance count = probe := by
  cases count with
  | zero => rfl
  | succ count => rw [advance, h]

theorem advance_of_next?_some (h : probe.next? = some (position, rest)) :
    probe.advance (count + 1) = rest.advance count := by
  rw [advance, h]

/-- A call answers the first position to come, if there is one, and moves past it. -/
theorem call?_eq (h : probe.Addresses) :
    probe.call? = some (probe.toList.head?, probe.advance 1) := by
  cases hRemaining : probe.remaining with
  | zero =>
      have hNext : probe.next? = none := by rw [next?, hRemaining]
      rw [call?, hRemaining, advance_of_next?_none hNext, toList_of_next?_none hNext]
      rfl
  | succ remaining =>
      have hBits : probe.numBits ≠ 0 := h (hRemaining ▸ Nat.succ_ne_zero remaining)
      have hNext : probe.next? = some (probe.hash % probe.numBits,
          { probe with hash := probe.hash + probe.step, remaining := remaining }) := by
        rw [next?, hRemaining]
      simp only [call?, hRemaining, Checked.mod_of_ne_zero _ hBits]
      rw [advance_of_next?_some hNext, toList_of_next?_some hNext]
      rfl

theorem toList_advance_one (probe : ProbeSequence) :
    (probe.advance 1).toList = probe.toList.tail := by
  cases hNext : probe.next? with
  | none => rw [advance_of_next?_none hNext, toList_of_next?_none hNext, List.tail_nil]
  | some step =>
      obtain ⟨position, rest⟩ := step
      rw [advance_of_next?_some hNext, toList_of_next?_some hNext, List.tail_cons, advance]

theorem numBits_advance_one (probe : ProbeSequence) : (probe.advance 1).numBits = probe.numBits := by
  cases hRemaining : probe.remaining with
  | zero => simp only [advance, next?, hRemaining]
  | succ remaining => simp only [advance, next?, hRemaining]

/-! ## Calls in a row -/

/-- The answers of so many calls in a row and what they leave. -/
def calls? : Nat → ProbeSequence → Option (List (Option UInt32) × ProbeSequence)
  | 0, probe => some ([], probe)
  | count + 1, probe => do
      let (answer, rest) ← probe.call?
      let (answers, last) ← calls? count rest
      return (answer :: answers, last)

theorem advance_succ (probe : ProbeSequence) (count : Nat) :
    probe.advance (count + 1) = (probe.advance 1).advance count := by
  cases hNext : probe.next? with
  | none =>
      rw [advance_of_next?_none hNext, advance_of_next?_none hNext, advance_of_next?_none hNext]
  | some step =>
      obtain ⟨position, rest⟩ := step
      rw [advance_of_next?_some hNext, advance_of_next?_some hNext, advance]

theorem toList_advance (probe : ProbeSequence) (count : Nat) :
    (probe.advance count).toList = probe.toList.drop count := by
  induction count generalizing probe with
  | zero => rfl
  | succ count ih => rw [advance_succ, ih, toList_advance_one, List.drop_tail]

theorem remaining_advance (probe : ProbeSequence) (count : Nat) :
    (probe.advance count).remaining = probe.remaining - count := by
  rw [← length_toList, toList_advance, List.length_drop, length_toList]

/-- A call leaves the number of bits alone and brings no new positions. -/
theorem Addresses.advance_one (h : probe.Addresses) : (probe.advance 1).Addresses := by
  intro hRemaining
  rw [numBits_advance_one]
  apply h
  rw [remaining_advance] at hRemaining
  omega

/-- The answers are the positions to come, in order, and nothing after the last of them. -/
theorem calls?_eq (h : probe.Addresses) (count : Nat) :
    probe.calls? count =
      some ((List.range count).map fun j => probe.toList[j]?, probe.advance count) := by
  induction count generalizing probe with
  | zero => rfl
  | succ count ih =>
      have hLater : ∀ j, (probe.advance 1).toList[j]? = probe.toList[j + 1]? := by
        intro j
        rw [toList_advance_one, List.getElem?_tail]
      simp only [calls?, call?_eq h, Option.bind_eq_bind, Option.bind_some, ih h.advance_one, hLater]
      rw [List.range_succ_eq_map, List.map_cons, List.map_map, List.head?_eq_getElem?,
        advance_succ probe count]
      rfl

/-- A started sequence gives the places of its hash in order, each below the number of bits, and
nothing where there are no bits. After any number of calls it has given as many of them as there
were, the division has not failed, and what it reports to be left is what it still gives. -/
theorem start_gives_places (hash : KeyHash) (probes : UInt8) (numBits : UInt32) :
    (positions hash probes numBits).map UInt32.toNat =
        (if numBits = 0 then [] else (List.range probes.toNat).map (place hash numBits.toNat)) ∧
      (∀ position ∈ positions hash probes numBits, position < numBits) ∧
      ∀ count,
        let rest := (start hash probes numBits).advance count
        (start hash probes numBits).calls? count =
            some ((List.range count).map fun j => (positions hash probes numBits)[j]?, rest) ∧
          rest.toList = (positions hash probes numBits).drop count ∧
          rest.remaining = rest.toList.length ∧
          rest.remaining = if numBits = 0 then 0 else probes.toNat - count := by
  refine ⟨?_, fun position => lt_of_mem_positions, ?_⟩
  · by_cases hBits : numBits = 0
    · rw [if_pos hBits, positions, toList, start, if_pos hBits]
      rfl
    · rw [if_neg hBits]
      exact map_toNat_positions hBits
  · intro count
    refine ⟨calls?_eq (start_addresses hash probes numBits) count, toList_advance _ _,
      (length_toList _).symm, ?_⟩
    rw [remaining_advance, start]
    split
    · exact Nat.zero_sub count
    · rfl

/-- The second and the third position have wrapped round at 32 bits. Two calls more than there are
probes give nothing. -/
theorem start_gives_places_wrapped :
    (3557 : UInt32) ∈ positions 0xDEADBEEF 3 4099 ∧ (3557 : UInt32) < 4099 ∧
      (positions 0xDEADBEEF 3 4099).map UInt32.toNat = [1583, 3557, 1432] ∧
      let rest := (start 0xDEADBEEF 3 4099).advance 5
      (start 0xDEADBEEF 3 4099).calls? 5 =
          some ([some 1583, some 3557, some 1432, none, none], rest) ∧
        rest.toList = [] ∧ rest.remaining = 0 := by
  obtain ⟨hPlaces, hBelow, hCalls⟩ := start_gives_places 0xDEADBEEF 3 4099
  obtain ⟨hAnswers, hList, _, hRemaining⟩ := hCalls 5
  have hMem : (3557 : UInt32) ∈ positions 0xDEADBEEF 3 4099 := by decide
  exact ⟨hMem, hBelow _ hMem, hPlaces, hAnswers, hList, hRemaining⟩

/-- Without bits no probe is left, so no call divides. -/
example : (start 7 30 0).calls? 2 = some ([none, none], start 7 30 0) := by decide

end BlockFilter.ProbeSequence
