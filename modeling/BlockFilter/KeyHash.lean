import BlockFilter.Bytes.LittleEndian

/-! The 32-bit hash of a key. The key is read as little-endian groups of four bytes, the last group
possibly shorter, and each group is added, multiplied by an odd constant and folded onto itself. The
hash is stored in every trained filter, so its value is fixed for good. -/

namespace BlockFilter

/-- The hash that stands for a key everywhere past the key itself. -/
abbrev KeyHash := UInt32

namespace KeyHash

def seed : UInt32 := 0xbc9f1d34

/-- The multiplier is odd, so multiplying by it loses nothing. -/
def multiplier : UInt32 := 0xc6a4a793

/-- The word that a group of at most four bytes stands for. -/
def word (group : Bytes) : UInt32 := UInt32.ofNat (LittleEndian.toNat group)

/-- Add a word, multiply, and fold the upper bits onto the lower ones. -/
def absorb (fold state word : UInt32) : UInt32 :=
  let product := (state + word) * multiplier
  product ^^^ (product >>> fold)

/-- Absorb a key group by group. A full group folds by 16 bits, a shorter last one by 24. -/
def absorbAll (state : UInt32) : Bytes → UInt32
  | b₀ :: b₁ :: b₂ :: b₃ :: rest => absorbAll (absorb 16 state (word [b₀, b₁, b₂, b₃])) rest
  | [] => state
  | short => absorb 24 state (word short)

/-- The hash of a key. Its length enters first, so keys that differ by trailing zeros differ. -/
def ofBytes (key : Bytes) : KeyHash :=
  absorbAll (seed ^^^ UInt32.ofNat key.length * multiplier) key

@[simp] theorem absorbAll_nil (state : UInt32) : absorbAll state [] = state := rfl

theorem absorbAll_group (state : UInt32) (b₀ b₁ b₂ b₃ : UInt8) (rest : Bytes) :
    absorbAll state (b₀ :: b₁ :: b₂ :: b₃ :: rest) =
      absorbAll (absorb 16 state (word [b₀, b₁, b₂, b₃])) rest := by
  rw [absorbAll]

end KeyHash

end BlockFilter
