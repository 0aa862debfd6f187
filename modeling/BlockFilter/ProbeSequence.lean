import BlockFilter.KeyHash

/-! The bit positions of a key hash. The hash and its rotation by seventeen bits drive a double
hashing sequence, so a key is hashed once however many positions a filter uses. Insertion and lookup
walk the same sequence. -/

namespace BlockFilter

/-- What is left of a probe sequence: the hash that gives the next position, the step to the one
after it, the number of bits to address, and how many positions are still to come. -/
structure ProbeSequence where
  hash : UInt32
  step : UInt32
  numBits : UInt32
  remaining : Nat
  deriving DecidableEq, Repr

namespace ProbeSequence

/-- Rotation to the right by seventeen bits. -/
def rotate (hash : UInt32) : UInt32 := (hash >>> 17) ||| (hash <<< 15)

/-- A whole sequence. Where there are no bits there are no positions. -/
def start (hash : KeyHash) (probes : UInt8) (numBits : UInt32) : ProbeSequence :=
  ⟨hash, rotate hash, numBits, if numBits = 0 then 0 else probes.toNat⟩

/-- The next position and the sequence after it. -/
def next? (probe : ProbeSequence) : Option (UInt32 × ProbeSequence) :=
  match probe.remaining with
  | 0 => none
  | remaining + 1 =>
      some (probe.hash % probe.numBits,
        { probe with hash := probe.hash + probe.step, remaining := remaining })

/-- The sequence after at most `count` positions have been taken. -/
def advance : Nat → ProbeSequence → ProbeSequence
  | 0, probe => probe
  | count + 1, probe =>
      match probe.next? with
      | none => probe
      | some (_, rest) => advance count rest

/-- The first `count` positions from a hash, the hash growing by `step` each time. -/
def walk (step numBits : UInt32) : Nat → UInt32 → List UInt32
  | 0, _ => []
  | count + 1, hash => hash % numBits :: walk step numBits count (hash + step)

/-- All positions still to come. -/
def toList (probe : ProbeSequence) : List UInt32 :=
  walk probe.step probe.numBits probe.remaining probe.hash

/-- The bit positions of a key hash, in probing order. -/
def positions (hash : KeyHash) (probes : UInt8) (numBits : UInt32) : List UInt32 :=
  (start hash probes numBits).toList

theorem toList_of_next?_none {probe : ProbeSequence} (h : probe.next? = none) : probe.toList = [] := by
  cases hr : probe.remaining with
  | zero => simp [toList, hr, walk]
  | succ remaining => simp [next?, hr] at h

theorem toList_of_next?_some {probe rest : ProbeSequence} {position : UInt32}
    (h : probe.next? = some (position, rest)) : probe.toList = position :: rest.toList := by
  cases hr : probe.remaining with
  | zero => simp [next?, hr] at h
  | succ remaining =>
      simp only [next?, hr, Option.some.injEq, Prod.mk.injEq] at h
      obtain ⟨rfl, rfl⟩ := h
      simp [toList, hr, walk]

@[simp] theorem length_walk (step numBits : UInt32) (count : Nat) (hash : UInt32) :
    (walk step numBits count hash).length = count := by
  induction count generalizing hash with
  | zero => rfl
  | succ count ih => simp [walk, ih]

@[simp] theorem length_toList (probe : ProbeSequence) : probe.toList.length = probe.remaining :=
  length_walk ..

end ProbeSequence

end BlockFilter
