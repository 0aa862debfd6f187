import BlockFilter.Proofs.StoredForms

/-! Fields by their places. Reading a record field by field from the front comes to the same as
looking at fixed places of it. A place that does not lie within its byte string has no value, so a
record has one exactly where all of its places do. -/

namespace BlockFilter

namespace Offset

/-- The `count` bytes from `start` on. -/
def bytes? (input : Bytes) (start count : Nat) : Option Bytes :=
  if start + count ≤ input.length then some ((input.drop start).take count) else none

theorem bytes?_eq_some_iff {input found : Bytes} {start count : Nat} :
    bytes? input start count = some found ↔
      start + count ≤ input.length ∧ found = (input.drop start).take count := by
  rw [bytes?]
  split
  · rename_i hFits
    simp [hFits, eq_comm]
  · rename_i hFits
    simp [hFits]

theorem length_of_bytes? {input found : Bytes} {start count : Nat}
    (h : bytes? input start count = some found) : found.length = count := by
  obtain ⟨hFits, rfl⟩ := bytes?_eq_some_iff.mp h
  rw [List.length_take, List.length_drop]
  omega

/-- Neighbouring places are one place. -/
theorem bytes?_add {input first second : Bytes} {start count count' : Nat}
    (hFirst : bytes? input start count = some first)
    (hSecond : bytes? input (start + count) count' = some second) :
    bytes? input start (count + count') = some (first ++ second) := by
  obtain ⟨_, rfl⟩ := bytes?_eq_some_iff.mp hFirst
  obtain ⟨hFits, rfl⟩ := bytes?_eq_some_iff.mp hSecond
  refine bytes?_eq_some_iff.mpr ⟨by omega, ?_⟩
  rw [List.take_add, List.drop_drop]

theorem bytes?_append_left (first second : Bytes) :
    bytes? (first ++ second) 0 first.length = some first := by
  simp [bytes?]

theorem bytes?_append_right (first second : Bytes) :
    bytes? (first ++ second) first.length second.length = some second := by
  simp [bytes?]

/-- The little-endian number of `width` bytes at `start`. -/
def number? (input : Bytes) (start width : Nat) : Option Nat :=
  (bytes? input start width).map LittleEndian.toNat

def uint8? (input : Bytes) (start : Nat) : Option UInt8 := (number? input start 1).map UInt8.ofNat

def uint32? (input : Bytes) (start : Nat) : Option UInt32 :=
  (number? input start 4).map UInt32.ofNat

def uint64? (input : Bytes) (start : Nat) : Option UInt64 :=
  (number? input start 8).map UInt64.ofNat

def int32? (input : Bytes) (start : Nat) : Option Int32 :=
  (uint32? input start).map UInt32.toInt32

/-! ## Written fields -/

section Written

variable {front : Bytes} {start : Nat} (hStart : front.length = start)
include hStart

theorem bytes?_append_middle (field rest : Bytes) :
    bytes? (front ++ (field ++ rest)) start field.length = some field := by
  refine bytes?_eq_some_iff.mpr ⟨?_, ?_⟩
  · simp only [List.length_append]
    omega
  · rw [List.drop_left' hStart, List.take_left]

theorem number?_append {width n : Nat} (hFits : n < LittleEndian.size width) (rest : Bytes) :
    number? (front ++ (LittleEndian.ofNat width n ++ rest)) start width = some n := by
  have hField := bytes?_append_middle hStart (LittleEndian.ofNat width n) rest
  rw [LittleEndian.length_ofNat] at hField
  rw [number?, hField, Option.map_some, LittleEndian.toNat_ofNat, Nat.mod_eq_of_lt hFits]

theorem uint32?_append (word : UInt32) (rest : Bytes) :
    uint32? (front ++ (LittleEndian.uint32 word ++ rest)) start = some word := by
  have hFits : word.toNat < LittleEndian.size 4 := word.toNat_lt
  rw [uint32?, LittleEndian.uint32, number?_append hStart hFits, Option.map_some,
    UInt32.ofNat_toNat]

end Written

end Offset

open Offset

/-- A reader of `width` bytes at any place that is left so many, and a function that finds there
what the reader reads. -/
structure ReadsAt {α : Type} (reader : ByteReader α) (width : Nat)
    (at? : Bytes → Nat → Option α) : Prop where
  isSome_iff : ∀ input start, start ≤ input.length →
    ((at? input start).isSome ↔ start + width ≤ input.length)
  run_drop : ∀ input start, start ≤ input.length →
    reader.run (input.drop start) =
      (at? input start).map fun value => (value, input.drop (start + width))

namespace ReadsAt

variable {α β : Type} {reader : ByteReader α} {width width' : Nat} {at? : Bytes → Nat → Option α}
  {input : Bytes} {start : Nat}

/-! ## Reading at a place -/

theorem run_drop_eq_none (h : ReadsAt reader width at?) (hStart : start ≤ input.length)
    (hShort : input.length < start + width) : reader.run (input.drop start) = none := by
  have hNone : at? input start = none := by
    rw [← Option.not_isSome_iff_eq_none, h.isSome_iff input start hStart]
    exact Nat.not_le_of_lt hShort
  rw [h.run_drop input start hStart, hNone]
  rfl

theorem exists_run_drop (h : ReadsAt reader width at?) (hEnough : start + width ≤ input.length) :
    ∃ value, at? input start = some value ∧
      reader.run (input.drop start) = some (value, input.drop (start + width)) := by
  have hStart : start ≤ input.length := Nat.le_of_add_right_le hEnough
  obtain ⟨value, hValue⟩ :=
    Option.isSome_iff_exists.mp ((h.isSome_iff input start hStart).mpr hEnough)
  refine ⟨value, hValue, ?_⟩
  rw [h.run_drop input start hStart, hValue]
  rfl

/-! ## Reading from the front -/

theorem readOr_of_length_lt {expected actual : Nat} (h : ReadsAt reader width at?)
    (hShort : input.length < width) :
    readOr reader expected actual input = .error (.truncated expected actual) := by
  have hFront : input.length < 0 + width := by rwa [Nat.zero_add]
  have hRun := h.run_drop_eq_none (Nat.zero_le _) hFront
  rw [List.drop_zero] at hRun
  rw [readOr, hRun]

theorem exists_readOr {expected actual : Nat} (h : ReadsAt reader width at?)
    (hEnough : width ≤ input.length) :
    ∃ value, at? input 0 = some value ∧
      readOr reader expected actual input = .ok (value, input.drop width) := by
  have hFront : 0 + width ≤ input.length := by rwa [Nat.zero_add]
  obtain ⟨value, hAt, hRun⟩ := h.exists_run_drop hFront
  rw [List.drop_zero, Nat.zero_add] at hRun
  exact ⟨value, hAt, by rw [readOr, hRun]⟩

/-! ## Composition -/

theorem pure (value : α) : ReadsAt (Pure.pure value) 0 (fun _ _ => some value) where
  isSome_iff := by
    intro input start hStart
    simpa
  run_drop := by
    intro input start _
    rfl

theorem map (h : ReadsAt reader width at?) (f : α → β) :
    ReadsAt (f <$> reader) width (fun input start => (at? input start).map f) where
  isSome_iff := by
    intro input start hStart
    rw [Option.isSome_map, h.isSome_iff input start hStart]
  run_drop := by
    intro input start hStart
    rw [StateT.run_map, h.run_drop input start hStart]
    cases at? input start with
    | none => rfl
    | some value => rfl

/-- The second reader starts where the first one ends. -/
theorem bind {next : α → ByteReader β} {next? : α → Bytes → Nat → Option β}
    (h : ReadsAt reader width at?) (hNext : ∀ value, ReadsAt (next value) width' (next? value)) :
    ReadsAt (reader >>= next) (width + width') (fun input start =>
      (at? input start).bind fun value => next? value input (start + width)) where
  isSome_iff := by
    intro input start hStart
    have hFirst := h.isSome_iff input start hStart
    cases hAt : at? input start with
    | none =>
        rw [hAt, Option.isSome_none] at hFirst
        rw [Option.bind_none, Option.isSome_none]
        refine ⟨nofun, fun hEnough => hFirst.mpr ?_⟩
        omega
    | some value =>
        rw [hAt] at hFirst
        have hPlace : start + width ≤ input.length := hFirst.mp rfl
        rw [Option.bind_some, (hNext value).isSome_iff input _ hPlace, Nat.add_assoc]
  run_drop := by
    intro input start hStart
    have hFirst := h.isSome_iff input start hStart
    rw [StateT.run_bind, h.run_drop input start hStart]
    cases hAt : at? input start with
    | none => rfl
    | some value =>
        rw [hAt] at hFirst
        have hPlace : start + width ≤ input.length := hFirst.mp rfl
        rw [← Nat.add_assoc]
        exact (hNext value).run_drop input _ hPlace

end ReadsAt

/-! ## Fields -/

namespace ByteReader

theorem bytes_readsAt (count : Nat) :
    ReadsAt (bytes count) count (fun input start => bytes? input start count) where
  isSome_iff := by
    intro input start _
    rw [bytes?, Option.isSome_ite]
  run_drop := by
    intro input start hStart
    have hFits : count ≤ input.length - start ↔ start + count ≤ input.length := by omega
    simp only [bytes_run, bytes?, List.length_drop, List.drop_drop, hFits]
    split
    · rfl
    · rfl

theorem number_readsAt (width : Nat) :
    ReadsAt (number width) width (fun input start => number? input start width) :=
  (bytes_readsAt width).map LittleEndian.toNat

theorem uint8_readsAt : ReadsAt uint8 1 uint8? := (number_readsAt 1).map UInt8.ofNat

theorem uint32_readsAt : ReadsAt uint32 4 uint32? := (number_readsAt 4).map UInt32.ofNat

theorem uint64_readsAt : ReadsAt uint64 8 uint64? := (number_readsAt 8).map UInt64.ofNat

theorem int32_readsAt : ReadsAt int32 4 int32? := uint32_readsAt.map UInt32.toInt32

end ByteReader

/-! ## Records -/

open ByteReader

def Bloom.at? (size : Nat) (input : Bytes) (start : Nat) : Option Bloom := do
  let bits ← bytes? input start size
  let probes ← uint8? input (start + size)
  return ⟨bits.toArray, probes⟩

theorem Bloom.reader_readsAt (size : Nat) : ReadsAt (reader size) (size + 1) (at? size) :=
  (bytes_readsAt size).bind fun _ => uint8_readsAt.bind fun _ => .pure _

def FittedLine.at? (input : Bytes) (start : Nat) : Option FittedLine := do
  let slope ← uint64? input start
  let intercept ← uint64? input (start + 8)
  let minError ← int32? input (start + 16)
  let maxError ← int32? input (start + 20)
  let lastBlock ← uint32? input (start + 24)
  let keyCount ← uint32? input (start + 28)
  return ⟨⟨slope⟩, ⟨intercept⟩, minError, maxError, lastBlock, keyCount⟩

theorem FittedLine.reader_readsAt : ReadsAt reader 32 at? :=
  uint64_readsAt.bind fun _ => uint64_readsAt.bind fun _ => int32_readsAt.bind fun _ =>
    int32_readsAt.bind fun _ => uint32_readsAt.bind fun _ => uint32_readsAt.bind fun _ => .pure _

def LearnedIndex.at? (size : Nat) (input : Bytes) (start : Nat) : Option LearnedIndex := do
  let filter ← Bloom.at? size input start
  let model ← FittedLine.at? input (start + size + 1)
  return ⟨filter, model⟩

theorem LearnedIndex.reader_readsAt (size : Nat) : ReadsAt (reader size) (size + 33) (at? size) :=
  (Bloom.reader_readsAt size).bind fun _ => FittedLine.reader_readsAt.bind fun _ => .pure _

def SpanFilter.at? (size : Nat) (input : Bytes) (start : Nat) : Option SpanFilter := do
  let filter ← Bloom.at? size input start
  let minHash ← uint32? input (start + size + 1)
  let maxHash ← uint32? input (start + size + 5)
  let numBlocks ← uint32? input (start + size + 9)
  let keyCount ← uint32? input (start + size + 13)
  return ⟨filter, minHash, maxHash, numBlocks, keyCount⟩

theorem SpanFilter.reader_readsAt (size : Nat) : ReadsAt (reader size) (size + 17) (at? size) :=
  (Bloom.reader_readsAt size).bind fun _ => uint32_readsAt.bind fun _ =>
    uint32_readsAt.bind fun _ => uint32_readsAt.bind fun _ => uint32_readsAt.bind fun _ => .pure _

def TableFilter.bloomAt? (size : Nat) (input : Bytes) (start : Nat) : Option TableFilter := do
  let filter ← Bloom.at? size input start
  let lastBlock ← uint32? input (start + size + 1)
  let keyCount ← uint32? input (start + size + 5)
  return .bloom filter lastBlock keyCount

theorem TableFilter.bloomReader_readsAt (size : Nat) :
    ReadsAt (bloomReader size) (size + 9) (bloomAt? size) :=
  (Bloom.reader_readsAt size).bind fun _ => uint32_readsAt.bind fun _ =>
    uint32_readsAt.bind fun _ => .pure _

end BlockFilter
