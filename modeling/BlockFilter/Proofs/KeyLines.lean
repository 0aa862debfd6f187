import BlockFilter.KeyFile
import Mathlib.Data.List.Sort

/-! The lines of a file of keys and the keys on them. A line is told by what stands around it: it
starts the file or follows a line feed, and it goes up to a line feed, perhaps with a carriage return
before it, or to the end of the file. The keys of a file are its lines that are not empty, each once
and in byte order, so two files with the same lines have the same keys. -/

namespace BlockFilter.KeyFile

/-! ## Lines -/

/-- A line can start after these bytes. -/
def StartsLine (before : Bytes) : Prop := ∀ byte ∈ before.getLast?, byte = 10

/-- A line of a file. A carriage return is not part of a line that it ends together with a line feed, but
it is part of a last line without a line feed. A last line is not empty. -/
inductive IsLine (contents line : Bytes) : Prop
  | fed {before after : Bytes} (start : StartsLine before) (inLine : 10 ∉ line)
      (noReturn : line.getLast? ≠ some 13) (split : contents = before ++ line ++ 10 :: after)
  | returned {before after : Bytes} (start : StartsLine before) (inLine : 10 ∉ line)
      (split : contents = before ++ line ++ 13 :: 10 :: after)
  | last {before : Bytes} (start : StartsLine before) (inLine : 10 ∉ line) (ne_nil : line ≠ [])
      (split : contents = before ++ line)

/-- The lines from within a line, whose bytes so far are given backwards. -/
def linesFrom (current : Bytes) : Bytes → List Bytes
  | [] => if current.isEmpty then [] else [current.reverse]
  | byte :: rest =>
      if byte = 10 then (dropReturn current).reverse :: linesFrom [] rest
      else linesFrom (byte :: current) rest

theorem foldl_step (contents : Bytes) (ended : List Bytes) (current : Bytes) :
    let (last, line) := contents.foldl step (ended, current)
    (if line.isEmpty then last else line.reverse :: last).reverse =
      ended.reverse ++ linesFrom current contents := by
  induction contents generalizing ended current with
  | nil =>
      cases current with
      | nil => simp [linesFrom]
      | cons byte rest => simp [linesFrom]
  | cons byte rest ih =>
      rw [List.foldl_cons, step, linesFrom]
      by_cases hFeed : byte = 10
      · simpa [hFeed] using ih ((dropReturn current).reverse :: ended) []
      · simpa [hFeed] using ih ended (byte :: current)

theorem lines_eq (contents : Bytes) : lines contents = linesFrom [] contents :=
  foldl_step contents [] []

theorem startsLine_nil : StartsLine [] := nofun

theorem startsLine_append_feed_iff (front later : Bytes) :
    StartsLine (front ++ 10 :: later) ↔ StartsLine later := by
  cases later with
  | nil => simp [StartsLine]
  | cons byte later => rw [StartsLine, StartsLine, List.getLast?_append, List.getLast?_cons_cons]; simp

/-- A cut lies either behind the first line feed or in the line before it. -/
theorem cut_cases {before tail front rest : Bytes} (h : before ++ tail = front ++ 10 :: rest) :
    (∃ later, before = front ++ 10 :: later ∧ rest = later ++ tail) ∨
      ∃ middle, front = before ++ middle ∧ tail = middle ++ 10 :: rest := by
  rcases List.append_eq_append_iff.mp h with ⟨middle, hFront, hTail⟩ | ⟨later, hBefore, hRest⟩
  · exact .inr ⟨middle, hFront, hTail⟩
  · cases later with
    | nil => exact .inr ⟨[], by simpa using hBefore.symm, by simpa using hRest.symm⟩
    | cons byte later =>
        simp only [List.cons_append, List.cons.injEq] at hRest
        obtain ⟨rfl, hRest⟩ := hRest
        exact .inl ⟨later, hBefore, hRest⟩

/-- The first line feed of a file is found in one way only. -/
theorem eq_of_append_feed {front rest before after : Bytes} (hFront : 10 ∉ front)
    (hBefore : 10 ∉ before) (h : before ++ 10 :: after = front ++ 10 :: rest) :
    before = front ∧ after = rest := by
  rcases cut_cases h with ⟨later, rfl, _⟩ | ⟨middle, rfl, hTail⟩
  · exact absurd (by simp) hBefore
  · cases middle with
    | nil => simpa using hTail
    | cons byte middle =>
        simp only [List.cons_append, List.cons.injEq] at hTail
        obtain ⟨rfl, _⟩ := hTail
        exact absurd (by simp) hFront

/-- A line starts the file or starts behind the first line feed. -/
theorem start_cases {before tail front rest : Bytes} (hStart : StartsLine before)
    (hFront : 10 ∉ front) (h : before ++ tail = front ++ 10 :: rest) :
    before = [] ∨
      ∃ later, StartsLine later ∧ before = front ++ 10 :: later ∧ rest = later ++ tail := by
  rcases cut_cases h with ⟨later, rfl, hRest⟩ | ⟨middle, rfl, _⟩
  · exact .inr ⟨later, (startsLine_append_feed_iff front later).mp hStart, rfl, hRest⟩
  · left
    rw [← List.getLast?_eq_none_iff]
    by_contra hSome
    obtain ⟨byte, hByte⟩ := Option.ne_none_iff_exists'.mp hSome
    have hFeed : 10 ∈ before := hStart byte hByte ▸ List.mem_of_getLast? hByte
    exact hFront (List.mem_append_left _ hFeed)

/-- The line that a line feed ends, read off the bytes before it. -/
theorem dropReturn_cases (front : Bytes) :
    (∃ line, front = line ++ [13] ∧ (dropReturn front.reverse).reverse = line) ∨
      front.getLast? ≠ some 13 ∧ (dropReturn front.reverse).reverse = front := by
  rcases List.eq_nil_or_concat front with rfl | ⟨line, byte, rfl⟩
  · exact .inr ⟨by simp, rfl⟩
  · rw [List.concat_eq_append, List.reverse_append, List.reverse_singleton, List.singleton_append]
    by_cases hReturn : byte = 13
    · subst hReturn
      exact .inl ⟨line, rfl, by simp [dropReturn]⟩
    · refine .inr ⟨by simpa using hReturn, ?_⟩
      have hKeep : dropReturn (byte :: line.reverse) = byte :: line.reverse := by
        unfold dropReturn
        split <;> simp_all
      simp [hKeep]

/-- What stands behind a line feed has the lines that it has on its own. -/
theorem IsLine.append_feed {rest line : Bytes} (h : IsLine rest line) (front : Bytes) :
    IsLine (front ++ 10 :: rest) line := by
  cases h with
  | @fed before after start inLine noReturn split =>
      have hStart := (startsLine_append_feed_iff front before).mpr start
      have hSplit : front ++ 10 :: rest = front ++ 10 :: before ++ line ++ 10 :: after := by
        simp [split]
      exact .fed hStart inLine noReturn hSplit
  | @returned before after start inLine split =>
      have hStart := (startsLine_append_feed_iff front before).mpr start
      have hSplit : front ++ 10 :: rest = front ++ 10 :: before ++ line ++ 13 :: 10 :: after := by
        simp [split]
      exact .returned hStart inLine hSplit
  | @last before start inLine ne_nil split =>
      have hStart := (startsLine_append_feed_iff front before).mpr start
      have hSplit : front ++ 10 :: rest = front ++ 10 :: before ++ line := by
        simp [split]
      exact .last hStart inLine ne_nil hSplit

/-- What stands before the first line feed is a line, less a carriage return at its end. -/
theorem isLine_first {front : Bytes} (hFront : 10 ∉ front) (rest : Bytes) :
    IsLine (front ++ 10 :: rest) (dropReturn front.reverse).reverse := by
  rcases dropReturn_cases front with ⟨line, rfl, hLine⟩ | ⟨hReturn, hKeep⟩
  · have hSplit : line ++ [13] ++ 10 :: rest = [] ++ line ++ 13 :: 10 :: rest := by simp
    rw [hLine]
    exact .returned startsLine_nil (by simpa using hFront) hSplit
  · rw [hKeep]
    exact .fed startsLine_nil hFront hReturn rfl

/-- The lines of a file are its first one and those behind the first line feed. -/
theorem isLine_append_feed_iff {front rest line : Bytes} (hFront : 10 ∉ front) :
    IsLine (front ++ 10 :: rest) line ↔
      line = (dropReturn front.reverse).reverse ∨ IsLine rest line := by
  constructor
  · intro h
    -- A line that starts the file ends at the first line feed; any other starts behind it.
    cases h with
    | fed start inLine noReturn split =>
        rw [List.append_assoc] at split
        rcases start_cases start hFront split.symm with rfl | ⟨later, hLater, _, hRest⟩
        · obtain ⟨rfl, _⟩ := eq_of_append_feed hFront inLine split.symm
          rcases dropReturn_cases line with ⟨shorter, hReturn, _⟩ | ⟨_, hKeep⟩
          · simp [hReturn] at noReturn
          · exact .inl hKeep.symm
        · exact .inr (.fed hLater inLine noReturn (by simpa using hRest))
    | returned start inLine split =>
        rw [List.append_assoc] at split
        rcases start_cases start hFront split.symm with rfl | ⟨later, hLater, _, hRest⟩
        · have hInLine : 10 ∉ line ++ [13] := by simpa using inLine
          obtain ⟨rfl, _⟩ := eq_of_append_feed hFront hInLine (by simpa using split.symm)
          exact .inl (by simp [dropReturn])
        · exact .inr (.returned hLater inLine (by simpa using hRest))
    | last start inLine ne_nil split =>
        rcases start_cases start hFront split.symm with rfl | ⟨later, hLater, _, hRest⟩
        · rw [List.nil_append] at split
          exact absurd (split ▸ by simp) inLine
        · exact .inr (.last hLater inLine ne_nil hRest)
  · rintro (rfl | h)
    · exact isLine_first hFront rest
    · exact h.append_feed front

/-- Bytes without a line feed are one line, or none if there are no bytes. -/
theorem isLine_iff_of_not_mem {contents line : Bytes} (h : 10 ∉ contents) :
    IsLine contents line ↔ line ≠ [] ∧ line = contents := by
  constructor
  · intro hLine
    cases hLine with
    | fed start inLine noReturn split => exact absurd (split ▸ by simp) h
    | returned start inLine split => exact absurd (split ▸ by simp) h
    | @last before start inLine ne_nil split =>
        rcases List.eq_nil_or_concat before with rfl | ⟨earlier, byte, rfl⟩
        · exact ⟨ne_nil, split.symm⟩
        · have hFeed : byte = 10 := start byte (by simp)
          exact absurd (by simp [split, hFeed]) h
  · rintro ⟨hLine, rfl⟩
    exact .last startsLine_nil h hLine rfl

theorem mem_linesFrom_iff (contents line current : Bytes) (h : 10 ∉ current) :
    line ∈ linesFrom current contents ↔ IsLine (current.reverse ++ contents) line := by
  -- The bytes of the current line move from the front of the rest to the back of `current`.
  induction contents generalizing current with
  | nil =>
      rw [List.append_nil, isLine_iff_of_not_mem (by simpa using h), linesFrom]
      cases current with
      | nil => simp +contextual
      | cons byte rest => simp +contextual
  | cons byte rest ih =>
      rw [linesFrom]
      by_cases hFeed : byte = 10
      · subst hFeed
        have hRest := ih [] (by simp)
        rw [isLine_append_feed_iff (by simpa using h)]
        simpa using or_congr_right hRest
      · have hRest := ih (byte :: current) (by simp [h, Ne.symm hFeed])
        simpa [hFeed] using hRest

/-- The lines that are read are the lines of the file. -/
theorem mem_lines_iff {contents line : Bytes} : line ∈ lines contents ↔ IsLine contents line := by
  rw [lines_eq, mem_linesFrom_iff contents line [] (by simp)]
  rfl

/-! ## Keys -/

/-- The keys of a file: its lines that are not empty, each once, in byte order. -/
structure KeysOf (contents : Bytes) (keys : List Bytes) : Prop where
  ascending : keys.Pairwise (· < ·)
  mem_iff : ∀ line, line ∈ keys ↔ line ≠ [] ∧ IsLine contents line

/-- What has been kept is given backwards and stands before what is still to be kept. -/
theorem eraseReps_loop (a : Bytes) (rest kept : List Bytes) :
    List.eraseRepsBy.loop (· == ·) a rest kept = kept.reverse ++ (a :: rest).eraseReps := by
  induction rest generalizing a kept with
  | nil => simp [List.eraseReps, List.eraseRepsBy, List.eraseRepsBy.loop]
  | cons b rest ih =>
      rw [List.eraseReps, List.eraseRepsBy, List.eraseRepsBy.loop, List.eraseRepsBy.loop]
      cases a == b with
      | true => simp only [ih, List.reverse_nil, List.nil_append]
      | false => simp [ih]

/-- A line is dropped when the next one is the same. -/
theorem eraseReps_cons_cons (a b : Bytes) (rest : List Bytes) :
    (a :: b :: rest).eraseReps =
      if a = b then (b :: rest).eraseReps else a :: (b :: rest).eraseReps := by
  rw [List.eraseReps, List.eraseRepsBy, List.eraseRepsBy.loop]
  by_cases hSame : a = b
  · simp [hSame, eraseReps_loop]
  · have hDiffer : (a == b) = false := by simpa using hSame
    simp [hSame, hDiffer, eraseReps_loop]

theorem mem_eraseReps {line : Bytes} (lines : List Bytes) :
    line ∈ lines.eraseReps ↔ line ∈ lines := by
  induction lines with
  | nil => rfl
  | cons a rest ih =>
      cases rest with
      | nil => rfl
      | cons b rest =>
          rw [eraseReps_cons_cons]
          split
          · simp_all
          · rw [List.mem_cons, ih, ← List.mem_cons]

/-- Lines in byte order without repetitions of neighbours are in strict order. -/
theorem pairwise_eraseReps {lines : List Bytes} (h : lines.Pairwise (· ≤ ·)) :
    lines.eraseReps.Pairwise (· < ·) := by
  induction lines with
  | nil => exact List.Pairwise.nil
  | cons a rest ih =>
      cases rest with
      | nil => exact List.pairwise_singleton ..
      | cons b rest =>
          obtain ⟨hFirst, hRest⟩ := List.pairwise_cons.mp h
          rw [eraseReps_cons_cons]
          split
          · exact ih hRest
          · rename_i hDiffer
            refine List.pairwise_cons.mpr ⟨?_, ih hRest⟩
            intro line hMem
            rw [mem_eraseReps] at hMem
            have hLess : a < b :=
              Std.lt_of_le_of_ne (hFirst b List.mem_cons_self) hDiffer
            rcases List.mem_cons.mp hMem with rfl | hBehind
            · exact hLess
            · exact Std.lt_of_lt_of_le hLess ((List.pairwise_cons.mp hRest).1 line hBehind)

theorem pairwise_mergeSort (lines : List Bytes) :
    (lines.mergeSort fun a b => !decide (b < a)).Pairwise (· ≤ ·) := by
  have hTrans : ∀ a b c : Bytes, (!decide (b < a)) = true → (!decide (c < b)) = true →
      (!decide (c < a)) = true := by
    intro a b c
    simpa using List.le_trans
  have hTotal : ∀ a b : Bytes, (!decide (b < a) || !decide (a < b)) = true := by
    intro a b
    rcases List.le_total a b with hLe | hLe
    · simp [List.not_lt.mpr hLe]
    · simp [List.not_lt.mpr hLe]
  simpa using List.pairwise_mergeSort hTrans hTotal lines

theorem keysOf_distinctLines (contents : Bytes) : KeysOf contents (distinctLines contents) where
  ascending := pairwise_eraseReps (pairwise_mergeSort _)
  mem_iff line := by
    rw [distinctLines, mem_eraseReps, List.mem_mergeSort, List.mem_filter, mem_lines_iff, and_comm]
    simp

/-- A file has no more keys than lines. -/
theorem KeysOf.length_le {contents : Bytes} {keys : List Bytes} (h : KeysOf contents keys) :
    keys.length ≤ (lines contents).length := by
  have hNodup : keys.Nodup := h.ascending.imp fun hLess => Std.ne_of_lt hLess
  have hSubset : keys ⊆ lines contents := by
    intro line hMem
    exact mem_lines_iff.mpr ((h.mem_iff line).mp hMem).2
  exact (List.subperm_of_subset hNodup hSubset).length_le

end BlockFilter.KeyFile
