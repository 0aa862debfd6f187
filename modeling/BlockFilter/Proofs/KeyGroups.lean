import BlockFilter.KeyHash
import BlockFilter.Proofs.BurstDetection
import Mathlib.Logic.ExistsUnique

/-! Keys that differ in one group. Each step of the hash is a sum, a product with an odd constant and a
fold of the upper bits onto the lower ones, and every one of these can be undone. So a step loses nothing
of the state before it and nothing of the group that it takes in. Two keys of one length that agree
outside a group therefore have different hashes, and with all other bytes fixed a full group stands for
every hash exactly once. -/

namespace BlockFilter.KeyHash

open Function

/-! ## One step -/

/-- The last part of a step. -/
def foldUpper (fold product : UInt32) : UInt32 := product ^^^ (product >>> fold)

theorem absorb_eq (fold state word : UInt32) :
    absorb fold state word = foldUpper fold ((state + word) * multiplier) := rfl

/-- A fold by at least half of the bits moves none of them twice, so a second fold undoes it. -/
theorem foldUpper_involutive {fold : UInt32} (hHalf : 16 ≤ fold.toNat) (hBits : fold.toNat < 32) :
    Involutive (foldUpper fold) := by
  intro product
  have hTwice : (product >>> fold) >>> fold = 0 := by
    apply UInt32.toNat.inj
    have hWord : product.toNat < 2 ^ (fold.toNat + fold.toNat) :=
      Nat.lt_of_lt_of_le product.toNat_lt (Nat.pow_le_pow_right (by decide) (by omega))
    rw [UInt32.toNat_shiftRight, UInt32.toNat_shiftRight, Nat.mod_eq_of_lt hBits,
      ← Nat.shiftRight_add, Nat.shiftRight_eq_div_pow, Nat.div_eq_of_lt hWord]
    rfl
  simp only [foldUpper, UInt32.shiftRight_xor, hTwice, UInt32.xor_zero, UInt32.xor_assoc,
    UInt32.xor_self]

/-- The word that undoes the multiplier. -/
def inverse : UInt32 := 0xd8198e9b

theorem mul_multiplier_bijective : Bijective fun sum => sum * multiplier := by
  have hInverse : multiplier * inverse = 1 := by decide
  have hInverse' : inverse * multiplier = 1 := by decide
  refine bijective_iff_has_inverse.mpr ⟨fun product => product * inverse, ?_, ?_⟩
  · intro sum
    simp only [UInt32.mul_assoc, hInverse, UInt32.mul_one]
  · intro product
    simp only [UInt32.mul_assoc, hInverse', UInt32.mul_one]

theorem add_word_bijective (word : UInt32) : Bijective fun state => state + word :=
  bijective_iff_has_inverse.mpr
    ⟨fun sum => sum - word, fun state => UInt32.add_sub_cancel state word,
      fun sum => UInt32.sub_add_cancel sum word⟩

/-- What a step adds to its sum, multiplied and folded, can be told from its result. -/
theorem foldUpper_mul_bijective {fold : UInt32} (hHalf : 16 ≤ fold.toNat)
    (hBits : fold.toNat < 32) : Bijective fun sum => foldUpper fold (sum * multiplier) :=
  (foldUpper_involutive hHalf hBits).bijective.comp mul_multiplier_bijective

section Step

variable {fold : UInt32} (hHalf : 16 ≤ fold.toNat) (hBits : fold.toNat < 32)

include hHalf hBits

/-- A step loses nothing of the state. -/
theorem absorb_state_bijective (word : UInt32) : Bijective fun state => absorb fold state word :=
  (foldUpper_mul_bijective hHalf hBits).comp (add_word_bijective word)

/-- A step loses nothing of the word. -/
theorem absorb_word_bijective (state : UInt32) : Bijective fun word => absorb fold state word := by
  have hSwap : (fun word => absorb fold state word) =
      (fun sum => foldUpper fold (sum * multiplier)) ∘ fun word => word + state := by
    funext word
    rw [absorb_eq, UInt32.add_comm, comp_apply]
  rw [hSwap]
  exact (foldUpper_mul_bijective hHalf hBits).comp (add_word_bijective state)

end Step

/-! ## Groups -/

/-- A group of at most four bytes has the value of its bytes. -/
theorem toNat_word {group : Bytes} (h : group.length ≤ 4) :
    (word group).toNat = LittleEndian.toNat group := by
  have hValue := LittleEndian.toNat_lt_size group
  have hSize : LittleEndian.size group.length ≤ UInt32.size := LittleEndian.size_monotone h
  exact UInt32.toNat_ofNat_of_lt' (Nat.lt_of_lt_of_le hValue hSize)

theorem word_injective_of_length {group other : Bytes} (hLength : other.length = group.length)
    (hShort : group.length ≤ 4) (h : word other = word group) : other = group := by
  have hNumber : LittleEndian.toNat other = LittleEndian.toNat group := by
    rw [← toNat_word hShort, ← toNat_word (hLength.trans_le hShort), h]
  rw [← LittleEndian.ofNat_toNat other, ← LittleEndian.ofNat_toNat group, hNumber, hLength]

/-- Every word has a group of four bytes. -/
theorem word_uint32 (number : UInt32) : word (LittleEndian.uint32 number) = number := by
  have hSize : LittleEndian.size 4 = UInt32.size := by decide
  apply UInt32.toNat.inj
  rw [toNat_word (Nat.le_of_eq (LittleEndian.length_uint32 number)), LittleEndian.uint32,
    LittleEndian.toNat_ofNat, hSize, Nat.mod_eq_of_lt number.toNat_lt_size]

/-- A full group at the front is taken in first. -/
theorem absorbAll_append_of_length {group : Bytes} (h : group.length = 4) (state : UInt32)
    (rest : Bytes) :
    absorbAll state (group ++ rest) = absorbAll (absorb 16 state (word group)) rest := by
  match group, h with
  | [b₀, b₁, b₂, b₃], _ => exact absorbAll_group state b₀ b₁ b₂ b₃ rest

/-- A group that is not full is the last one. -/
theorem absorbAll_of_length_lt {group : Bytes} (hSome : group ≠ []) (h : group.length < 4)
    (state : UInt32) : absorbAll state group = absorb 24 state (word group) := by
  match group, hSome, h with
  | [_], _, _ | [_, _], _, _ | [_, _, _], _, _ => rfl

/-- Full groups in front of a byte string are taken in before it. -/
theorem absorbAll_append (state : UInt32) (rest : Bytes) :
    ∀ front : Bytes, 4 ∣ front.length →
      absorbAll state (front ++ rest) = absorbAll (absorbAll state front) rest := by
  intro front hAligned
  obtain ⟨groups, hGroups⟩ := hAligned
  induction groups generalizing front state with
  | zero =>
      rw [List.length_eq_zero_iff.mp hGroups]
      rfl
  | succ groups ih =>
      have hFirst : (front.take 4).length = 4 := by
        rw [List.length_take]
        omega
      have hRest : (front.drop 4).length = 4 * groups := by
        rw [List.length_drop]
        omega
      rw [← List.take_append_drop 4 front, List.append_assoc, absorbAll_append_of_length hFirst,
        absorbAll_append_of_length hFirst, ih _ _ hRest]

/-- All groups of a byte string together lose nothing of the state. -/
theorem absorbAll_bijective : ∀ bytes : Bytes, Bijective fun state => absorbAll state bytes
  | [] => bijective_id
  | [_] | [_, _] | [_, _, _] => absorb_state_bijective (by decide) (by decide) _
  | _ :: _ :: _ :: _ :: rest =>
      (absorbAll_bijective rest).comp (absorb_state_bijective (by decide) (by decide) _)

/-! ## One group of a key -/

variable {key other before : Bytes}

/-- The state before the first group depends on the length alone. -/
def start (length : Nat) : UInt32 := seed ^^^ UInt32.ofNat length * multiplier

theorem ofBytes_eq (key : Bytes) : ofBytes key = absorbAll (start key.length) key := rfl

/-- A group can be told from the hash of what it stands in front of. Only the last group may be
shorter than the others. -/
theorem eq_of_absorbAll_append_eq {group other after : Bytes} {state : UInt32}
    (hLength : other.length = group.length) (hShort : group.length ≤ 4)
    (hLast : group.length < 4 → after = [])
    (h : absorbAll state (other ++ after) = absorbAll state (group ++ after)) : other = group := by
  have hWords : word other = word group := by
    rcases Nat.lt_or_eq_of_le hShort with hLess | hFull
    · rw [hLast hLess, List.append_nil, List.append_nil] at h
      rcases eq_or_ne group [] with rfl | hSome
      · rw [List.length_eq_zero_iff.mp hLength]
      · have hOther : other ≠ [] := by
          rwa [Ne, ← List.length_eq_zero_iff, hLength, List.length_eq_zero_iff]
        rw [absorbAll_of_length_lt hSome hLess,
          absorbAll_of_length_lt hOther (hLength.trans_lt hLess)] at h
        exact (absorb_word_bijective (by decide) (by decide) state).injective h
    · rw [absorbAll_append_of_length hFull, absorbAll_append_of_length (hLength.trans hFull)] at h
      have hState := (absorbAll_bijective after).injective h
      exact (absorb_word_bijective (by decide) (by decide) state).injective hState
  exact word_injective_of_length hLength hShort hWords

/-- A burst within one group changes the hash, unless it changes nothing. -/
theorem eq_of_ofBytes_eq_of_burst {group : Nat} (hBurst : Burst key other (4 * group))
    (h : ofBytes other = ofBytes key) : other = key := by
  have hBefore := hBurst.take_eq (Nat.le_refl _)
  have hAfter := hBurst.drop_eq
  rcases Nat.lt_or_ge key.length (4 * group) with hPast | hInside
  · -- The group lies past the end, so the keys agree as far as they go.
    rwa [List.take_of_length_le (Nat.le_of_lt hPast),
      List.take_of_length_le (hBurst.length_eq.trans_le (Nat.le_of_lt hPast))] at hBefore
  have hAligned : 4 ∣ (key.take (4 * group)).length := by
    rw [List.length_take, Nat.min_eq_left hInside]
    exact Nat.dvd_mul_right ..
  apply hBurst.eq_of_window_eq
  rw [ofBytes_eq, ofBytes_eq, hBurst.length_eq] at h
  generalize start key.length = state at h
  rw [eq_take_append_window_append_drop other (4 * group),
    eq_take_append_window_append_drop key (4 * group), hBefore, hAfter, List.append_assoc,
    List.append_assoc, absorbAll_append _ _ _ hAligned, absorbAll_append _ _ _ hAligned] at h
  refine eq_of_absorbAll_append_eq ?_ ?_ ?_ h
  · rw [List.length_take, List.length_take, (hBurst.drop (Nat.le_refl _)).length_eq]
  · exact List.length_take_le ..
  · intro hLess
    rw [List.length_take, List.length_drop] at hLess
    exact List.drop_of_length_le (by omega)

/-- With all other bytes fixed the hash of a key is a bijective function of the word of one group. -/
theorem exists_bijective_of_group (hAligned : 4 ∣ before.length) (after : Bytes) :
    ∃ f : UInt32 → KeyHash, Bijective f ∧
      ∀ group : Bytes, group.length = 4 → ofBytes (before ++ group ++ after) = f (word group) := by
  let state := absorbAll (start (before.length + 4 + after.length)) before
  refine ⟨fun number => absorbAll (absorb 16 state number) after,
    (absorbAll_bijective after).comp (absorb_word_bijective (by decide) (by decide) state), ?_⟩
  intro group hGroup
  rw [ofBytes_eq, List.length_append, List.length_append, hGroup, List.append_assoc,
    absorbAll_append _ _ _ hAligned, absorbAll_append_of_length hGroup]

/-- Two keys of one length that differ, and only in one group, have different hashes. The group may be
the last one and shorter than the others. A full group in its place among other bytes stands for every
hash, and for each by four bytes of its own. -/
theorem ofBytes_separates_groups :
    (∀ (key other : Bytes) (group : Nat), Burst key other (4 * group) → other ≠ key →
        ofBytes other ≠ ofBytes key) ∧
      ∀ before after : Bytes, 4 ∣ before.length → ∀ hash,
        ∃! group : Bytes, group.length = 4 ∧ ofBytes (before ++ group ++ after) = hash := by
  constructor
  · intro key other group hBurst hDiffer h
    exact hDiffer (eq_of_ofBytes_eq_of_burst hBurst h)
  · intro before after hAligned hash
    obtain ⟨f, hBijective, hGroup⟩ := exists_bijective_of_group hAligned after
    obtain ⟨number, rfl⟩ := hBijective.surjective hash
    have hLength := LittleEndian.length_uint32 number
    refine ⟨LittleEndian.uint32 number, ⟨hLength, ?_⟩, ?_⟩
    · rw [hGroup _ hLength, word_uint32]
    · rintro group ⟨hFull, hHash⟩
      rw [hGroup group hFull] at hHash
      apply word_injective_of_length (hFull.trans hLength.symm) (Nat.le_of_eq hLength)
      rw [hBijective.injective hHash, word_uint32]

/-- The last three bytes of seven are a group. Behind four bytes and in front of a fifth there is one
group of four that gives the hash zero. -/
theorem ofBytes_separates_groups_seven :
    let key : Bytes := [107, 101, 121, 48, 49, 0, 0]
    let other := (key.set 4 48).set 6 1
    let before : Bytes := [107, 101, 121, 48]
    Burst key other (4 * 1) ∧ other ≠ key ∧ ofBytes other ≠ ofBytes key ∧ 4 ∣ before.length ∧
      ∃! group : Bytes, group.length = 4 ∧ ofBytes (before ++ group ++ [49]) = 0 := by
  intro key other before
  have hBurst : Burst key other (4 * 1) := by
    refine ⟨rfl, ?_⟩
    intro i hOutside
    rw [List.getElem?_set_ne (by omega), List.getElem?_set_ne (by omega)]
  have hDiffer : other ≠ key := by decide
  have hAligned : 4 ∣ before.length := Nat.dvd_refl 4
  obtain ⟨hSeparates, hOnto⟩ := ofBytes_separates_groups
  exact ⟨hBurst, hDiffer, hSeparates key other 1 hBurst hDiffer, hAligned,
    hOnto before [49] hAligned 0⟩

end BlockFilter.KeyHash
