import BlockFilter.CommandLine.Run
import Mathlib.Data.List.Basic

/-! What an inspect prints, read back. A reader that knows no more than the labels finds the kind of
the filter and each of its figures in the output. -/

namespace BlockFilter.CommandLine

/-! ## A reader of labelled lines -/

/-- A line with a label in front: the label, up to the first colon, and the value, which starts behind
the blanks that follow the colon. -/
def field? (line : List Char) : Option (String × List Char) :=
  match line.dropWhile (· ≠ ':') with
  | _ :: value => some (String.ofList (line.takeWhile (· ≠ ':')), value.dropWhile (· = ' '))
  | [] => none

/-- The labels of a text and their values. -/
def fields (text : String) : List (String × List Char) :=
  (text.toList.splitOn '\n').filterMap field?

def value? (text label : String) : Option (List Char) := (fields text).lookup label

/-- The numbers in a value, in decimal digits. -/
def numbers (value : List Char) : List Nat :=
  ((value.splitOnP fun c => !c.isDigit).filter (· ≠ [])).map fun digits =>
    Nat.ofDigitChars 10 digits 0

def numbers? (text label : String) : Option (List Nat) := (value? text label).map numbers

/-! ## Labelled lines -/

/-- Characters that neither part a value from its label nor end a line. -/
def Solid (text : List Char) : Prop := ∀ c ∈ text, c ≠ ' ' ∧ c ≠ '\n'

instance (text : List Char) : Decidable (Solid text) := List.decidableBAll _ text

/-- A value that starts with a solid part and stays on its line. -/
def OneLine (value : List Char) : Prop :=
  ∃ first rest, value = first ++ rest ∧ first ≠ [] ∧ Solid first ∧ '\n' ∉ rest

/-- A label, how the line starts with it, and the value. -/
structure Field where
  label : String
  front : String
  value : List Char

namespace Field

variable {field : Field}

def line (field : Field) : List Char := field.front.toList ++ field.value

/-- The label ends before a colon and the value starts behind blanks, both on one line. -/
structure Plain (field : Field) : Prop where
  label : ∀ c ∈ field.label.toList, c ≠ ':' ∧ c ≠ '\n'
  front : ∃ blanks, field.front.toList = field.label.toList ++ ':' :: List.replicate blanks ' '
  value : OneLine field.value

theorem plain_of {label front : String} {value : List Char} (blanks : Nat)
    (hLabel : ∀ c ∈ label.toList, c ≠ ':' ∧ c ≠ '\n')
    (hFront : front.toList = label.toList ++ ':' :: List.replicate blanks ' ')
    (hValue : OneLine value) : Plain ⟨label, front, value⟩ :=
  ⟨hLabel, ⟨blanks, hFront⟩, hValue⟩

theorem Plain.field?_line (h : field.Plain) :
    field? field.line = some (field.label, field.value) := by
  obtain ⟨blanks, hFront⟩ := h.front
  have hLabel : ∀ c ∈ field.label.toList, decide (c ≠ ':') = true := by
    intro c hMem
    exact decide_eq_true (h.label c hMem).1
  have hValue : (List.replicate blanks ' ' ++ field.value).dropWhile (· = ' ') =
      field.value := by
    obtain ⟨first, rest, hField, hSome, hSolid, _⟩ := h.value
    obtain ⟨c, first, rfl⟩ := List.exists_cons_of_ne_nil hSome
    have hBlank : c ≠ ' ' := (hSolid c List.mem_cons_self).1
    rw [List.dropWhile_append_of_pos (by simp), hField]
    simp [hBlank]
  rw [field?, line, hFront, List.append_assoc, List.dropWhile_append_of_pos hLabel,
    List.takeWhile_append_of_pos hLabel]
  simp [hValue]

theorem Plain.notMem_line (h : field.Plain) : '\n' ∉ field.line := by
  obtain ⟨blanks, hFront⟩ := h.front
  obtain ⟨first, rest, hValue, _, hSolid, hRest⟩ := h.value
  have hLabel : '\n' ∉ field.label.toList := fun hMem => (h.label _ hMem).2 rfl
  have hFirst : '\n' ∉ first := fun hMem => (hSolid _ hMem).2 rfl
  simp [line, hFront, hValue, hLabel, hFirst, hRest]

end Field

/-- Lines with labels are read field by field. -/
theorem fields_of_lines {text : String} {lines : List Field} (hPlain : ∀ field ∈ lines, field.Plain)
    (hText : text.toList = lines.flatMap fun field => field.line ++ "\n".toList) :
    fields text = lines.map fun field => (field.label, field.value) := by
  have hEnd : "\n".toList = ['\n'] := rfl
  rw [fields, hText]
  clear hText
  induction lines with
  | nil => rfl
  | cons field rest ih =>
      obtain ⟨hField, hRest⟩ := List.forall_mem_cons.mp hPlain
      rw [List.flatMap_cons, hEnd, List.append_assoc, List.singleton_append,
        List.splitOn_append_cons_self_of_not_mem hField.notMem_line, List.filterMap_cons,
        hField.field?_line, List.map_cons, ← hEnd, ih hRest]

/-! ## Numbers -/

theorem isDigit_of_mem_digits {n : Nat} {c : Char} (h : c ∈ Nat.toDigits 10 n) : c.isDigit = true :=
  Nat.isDigit_of_mem_toDigits (by decide) (by decide) h

theorem numbers_digits (n : Nat) : numbers (Nat.toDigits 10 n) = [n] := by
  have hDigits : ∀ c ∈ Nat.toDigits 10 n, (!c.isDigit) = false := by
    intro c hMem
    rw [isDigit_of_mem_digits hMem]
    rfl
  rw [numbers, List.splitOnP_eq_singleton hDigits]
  simp [Nat.toDigits_ne_nil, Nat.ofDigitChars_ten_toDigits]

theorem numbers_append_cons (text : List Char) {c : Char} (hEnd : c.isDigit = false)
    (rest : List Char) : numbers (text ++ c :: rest) = numbers text ++ numbers rest := by
  have hEnd' : (!c.isDigit) = true := by rw [hEnd]; rfl
  have hSplit := List.splitOnP_append_cons (p := fun c => !c.isDigit) text rest hEnd'
  rw [numbers, hSplit, List.filter_append, List.map_append, numbers, numbers]

theorem numbers_append {text : List Char} (hText : ∀ c ∈ text, c.isDigit = false)
    (rest : List Char) : numbers (text ++ rest) = numbers rest := by
  induction text with
  | nil => rfl
  | cons c text ih =>
      obtain ⟨hFirst, hText⟩ := List.forall_mem_cons.mp hText
      exact (numbers_append_cons [] hFirst _).trans (ih hText)

/-- A number ends where a text without digits follows it. -/
theorem numbers_digits_append (n : Nat) {text : List Char} (hText : ∀ c ∈ text, c.isDigit = false)
    (hSome : text ≠ []) (rest : List Char) :
    numbers (Nat.toDigits 10 n ++ (text ++ rest)) = n :: numbers rest := by
  obtain ⟨c, text, rfl⟩ := List.exists_cons_of_ne_nil hSome
  obtain ⟨hEnd, hText⟩ := List.forall_mem_cons.mp hText
  rw [List.cons_append, numbers_append_cons _ hEnd, numbers_digits, numbers_append hText,
    List.singleton_append]

/-! ## What an inspect prints -/

/-- What an inspect prints of a filter. -/
def inspection (filter : TableFilter) : Report where
  exitCode := 0
  output := s!"kind:            {filter.kind.name}\n" ++ filter.stats.report ++ "\n"
  events := []

/-- A text in which the kind of a filter and all its figures can be read. -/
structure Shows (text : String) (filter : TableFilter) : Prop where
  kind : value? text "kind" = some filter.kind.name.toList
  totalBytes : numbers? text "total size" = some [filter.stats.totalBytes]
  bloom : numbers? text "bloom" =
    some [filter.stats.bloomBytes, filter.stats.bloomBits, filter.stats.probes.toNat]
  modelBytes : numbers? text "model" = some [filter.stats.modelBytes]
  keyCount : numbers? text "keys" = some [filter.stats.keyCount.toNat]
  errorRange : numbers? text "error range" = some [filter.stats.errorRange.toNat]
  rate : value? text "estimated FP" =
    some ((Decimal.percent filter.stats.estimatedRate).toList ++ "%".toList)

def inspectionFields (filter : TableFilter) : List Field :=
  let digits := Nat.toDigits 10
  let stats := filter.stats
  [⟨"kind", "kind:            ", filter.kind.name.toList⟩,
    ⟨"total size", "total size:      ", digits stats.totalBytes ++ " bytes".toList⟩,
    ⟨"bloom", "bloom:           ", digits stats.bloomBytes ++ (" bytes (".toList ++
      (digits stats.bloomBits ++ (" bits, k=".toList ++
        (digits stats.probes.toNat ++ ")".toList))))⟩,
    ⟨"model", "model:           ", digits stats.modelBytes ++ " bytes".toList⟩,
    ⟨"keys", "keys:            ", digits stats.keyCount.toNat⟩,
    ⟨"error range", "error range:     ", digits stats.errorRange.toNat ++ " blocks".toList⟩,
    ⟨"estimated FP", "estimated FP:    ",
      (Decimal.percent stats.estimatedRate).toList ++ "%".toList⟩]

theorem toList_toString_byte (byte : UInt8) :
    (toString byte).toList = Nat.toDigits 10 byte.toNat := Nat.toList_repr

theorem toList_toString_word (word : UInt32) :
    (toString word).toList = Nat.toDigits 10 word.toNat := Nat.toList_repr

theorem toString_text (text : String) : toString text = text := rfl

theorem toList_inspection (filter : TableFilter) : (inspection filter).output.toList =
    (inspectionFields filter).flatMap fun field => field.line ++ "\n".toList := by
  simp only [inspection, Stats.report, inspectionFields, Field.line, toList_toString_byte,
    toList_toString_word, toString_text, String.toList_append, String.toList_intercalate,
    List.map_cons, List.map_nil, List.flatMap_cons, List.flatMap_nil, List.append_assoc,
    List.append_nil, List.intercalate_cons_cons, List.intercalate_singleton, Nat.toString_eq_repr,
    Nat.toList_repr]

theorem solid_append {first second : List Char} (hFirst : Solid first) (hSecond : Solid second) :
    Solid (first ++ second) := by
  intro c hMem
  exact (List.mem_append.mp hMem).elim (hFirst c) (hSecond c)

theorem solid_of_isDigit {text : List Char} (h : ∀ c ∈ text, c.isDigit = true) : Solid text := by
  intro c hMem
  have hDigit := h c hMem
  constructor
  · rintro rfl
    exact absurd hDigit (by decide)
  · rintro rfl
    exact absurd hDigit (by decide)

theorem solid_digits (n : Nat) : Solid (Nat.toDigits 10 n) :=
  solid_of_isDigit fun _ => isDigit_of_mem_digits

theorem solid_pointed (places digits : Nat) : Solid (Decimal.pointed places digits).toList := by
  have hPadded (count : Nat) : Solid (List.replicate count '0' ++ Nat.toDigits 10 digits) := by
    apply solid_append _ (solid_digits digits)
    intro c hMem
    rw [List.eq_of_mem_replicate hMem]
    decide
  rw [Decimal.pointed, String.toList_ofList]
  apply solid_append
  · intro c hMem
    exact hPadded _ c (List.mem_of_mem_take hMem)
  · split
    · exact nofun
    · intro c hMem
      rcases List.mem_cons.mp hMem with rfl | hMem
      · decide
      · exact hPadded _ c (List.mem_of_mem_drop hMem)

theorem solid_percent (share : Binary64) : Solid (Decimal.percent share).toList := by
  have hSign (negative : Bool) : Solid (if negative then "-" else "").toList := by
    cases negative <;> simp [Solid]
  rw [Decimal.percent, Decimal.fixed, Decimal.signed]
  split
  · simp [Solid]
  · rw [String.toList_append]
    exact solid_append (hSign _) (by simp [Solid])
  · rw [String.toList_append]
    exact solid_append (hSign _) (solid_pointed _ _)

theorem oneLine_of_solid {value : List Char} (hSome : value ≠ []) (hSolid : Solid value) :
    OneLine value :=
  ⟨value, [], (List.append_nil value).symm, hSome, hSolid, List.not_mem_nil⟩

theorem oneLine_digits_append (n : Nat) {rest : List Char} (hRest : '\n' ∉ rest) :
    OneLine (Nat.toDigits 10 n ++ rest) :=
  ⟨_, rest, rfl, Nat.toDigits_ne_nil, solid_digits n, hRest⟩

theorem plain_of_mem_inspectionFields {filter : TableFilter} {field : Field}
    (h : field ∈ inspectionFields filter) : field.Plain := by
  have hDigits {n : Nat} : '\n' ∉ Nat.toDigits 10 n := fun hMem => (solid_digits n _ hMem).2 rfl
  have hBloom {n m : Nat} : '\n' ∉ " bytes (".toList ++ (Nat.toDigits 10 n ++
      (" bits, k=".toList ++ (Nat.toDigits 10 m ++ ")".toList))) := by
    simp [hDigits]
  have hKind : OneLine filter.kind.name.toList := by
    apply oneLine_of_solid
    · cases filter.kind <;> simp [FilterKind.name]
    · cases filter.kind <;> simp [FilterKind.name, Solid]
  have hRate (share : Binary64) : OneLine ((Decimal.percent share).toList ++ "%".toList) :=
    oneLine_of_solid (by simp) (solid_append (solid_percent share) (by simp [Solid]))
  simp only [inspectionFields, List.mem_cons, List.not_mem_nil, or_false] at h
  rcases h with rfl | rfl | rfl | rfl | rfl | rfl | rfl
  · exact Field.plain_of 12 (by simp) rfl hKind
  · exact Field.plain_of 6 (by simp) rfl (oneLine_digits_append _ (by simp))
  · exact Field.plain_of 11 (by simp) rfl (oneLine_digits_append _ hBloom)
  · exact Field.plain_of 11 (by simp) rfl (oneLine_digits_append _ (by simp))
  · exact Field.plain_of 12 (by simp) rfl
      (oneLine_of_solid Nat.toDigits_ne_nil (solid_digits _))
  · exact Field.plain_of 5 (by simp) rfl (oneLine_digits_append _ (by simp))
  · exact Field.plain_of 4 (by simp) rfl (hRate _)

/-- The output of an inspect shows its filter. -/
theorem shows_inspection (filter : TableFilter) : Shows (inspection filter).output filter := by
  have hFields := fields_of_lines (fun _ => plain_of_mem_inspectionFields) (toList_inspection filter)
  have hNumber (n : Nat) {text : List Char} (hText : ∀ c ∈ text, c.isDigit = false)
      (hSome : text ≠ []) : numbers (Nat.toDigits 10 n ++ text) = [n] := by
    have hEnd := numbers_digits_append n hText hSome []
    rwa [List.append_nil] at hEnd
  have hFound {label : String} {value : List Char}
      (h : ((inspectionFields filter).map fun field => (field.label, field.value)).lookup label =
        some value) : numbers? (inspection filter).output label = some (numbers value) := by
    rw [numbers?, value?, hFields, h, Option.map_some]
  exact {
    kind := by rw [value?, hFields]; rfl
    totalBytes := by rw [hFound rfl, hNumber _ (by simp) (by simp)]
    bloom := by
      rw [hFound rfl, numbers_digits_append _ (by simp) (by simp),
        numbers_digits_append _ (by simp) (by simp), hNumber _ (by simp) (by simp)]
    modelBytes := by rw [hFound rfl, hNumber _ (by simp) (by simp)]
    keyCount := by rw [hFound rfl, numbers_digits]
    errorRange := by rw [hFound rfl, hNumber _ (by simp) (by simp)]
    rate := by rw [value?, hFields]; rfl }

end BlockFilter.CommandLine
