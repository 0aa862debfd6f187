import BlockFilter.Directory
import BlockFilter.Proofs.Outcomes

/-! Paths and the files that they lead to. A file has no way on, so the way to a folder leads through
folders and does not depend on the files. Thus a path keeps its target through every write. A path
reads the file that it would write, so what has been written is read by every path with the same
target. -/

namespace BlockFilter.Directory

variable {directory after : Directory} {place next other : Place} {path name : String}
  {names more : List String} {contents : Bytes}

/-! ## Folders -/

theorem isFolder_start (directory : Directory) (path : String) :
    directory.isFolder (directory.start path) = true := by
  simp only [start]
  split
  · simp [isFolder]
  · simp [isFolder]

/-- What lies above a folder is a folder. -/
theorem isFolder_dropLast (h : directory.isFolder place = true) :
    directory.isFolder place.dropLast = true := by
  simp only [isFolder, List.any_eq_true, List.isPrefixOf_iff_prefix] at h ⊢
  obtain ⟨folder, hMem, hPrefix⟩ := h
  exact ⟨folder, hMem, (List.dropLast_prefix place).trans hPrefix⟩

/-! ## Steps -/

theorem walk_cons : directory.walk place (name :: names) =
    (do directory.walk (← directory.step place name) names) := rfl

theorem walk_concat_eq_ok_iff : directory.walk place (names ++ [name]) = .ok next ↔
    ∃ mid, directory.walk place names = .ok mid ∧ directory.step mid name = .ok next := by
  have hSingle (mid : Place) : directory.walk mid [name] = directory.step mid name :=
    bind_pure (directory.step mid name)
  rw [walk, List.foldlM_append, bind_eq_ok_iff]
  exact exists_congr fun mid => and_congr_right fun _ => by rw [← hSingle, walk]

theorem isFolder_of_step (h : directory.step place name = .ok next) :
    directory.isFolder place = true := by
  by_contra hFile
  rw [step, if_pos hFile] at h
  cases h

theorem isFolder_of_walk (h : directory.walk place names = .ok next)
    (hNext : directory.isFolder next = true) : directory.isFolder place = true := by
  cases names with
  | nil =>
      cases h
      exact hNext
  | cons name names =>
      obtain ⟨_, hStep, _⟩ := bind_eq_ok_iff.mp (walk_cons ▸ h)
      exact isFolder_of_step hStep

/-- A step to a folder does not depend on the files. -/
theorem step_put_eq_ok_iff (hNext : directory.isFolder next = true) :
    (directory.put other contents).step place name = .ok next ↔
      directory.step place name = .ok next := by
  simp only [step, isFolder_put]
  grind

/-- Nor does a way to a folder. -/
theorem walk_put_eq_ok_iff (hNext : directory.isFolder next = true) :
    (directory.put other contents).walk place names = .ok next ↔
      directory.walk place names = .ok next := by
  induction names generalizing place with
  | nil => exact Iff.rfl
  | cons name names ih =>
      rw [walk_cons, walk_cons, bind_eq_ok_iff, bind_eq_ok_iff]
      apply exists_congr
      intro mid
      rw [ih, and_congr_left_iff]
      intro hRest
      exact step_put_eq_ok_iff (isFolder_of_walk hRest hNext)

/-! ## Targets -/

/-- A file can be put where no folder stands. -/
theorem placeIn_eq_ok_iff : directory.placeIn place name = .ok next ↔
    directory.isFolder place = true ∧ name ∉ ["", ".", ".."] ∧ name.utf8ByteSize ≤ maxNameBytes ∧
      directory.isFolder next = false ∧ place ++ [name] = next := by
  grind [placeIn]

theorem target_eq_ok_iff : directory.target path = .ok place ↔
    checkPath path = .ok () ∧ ∃ folder,
      directory.walk (directory.start path) (stepsBefore path) = .ok folder ∧
        directory.placeIn folder ((steps path).getLastD "") = .ok place := by
  rw [target, bind_eq_ok_iff]
  constructor
  · rintro ⟨_, hCheck, hPlace⟩
    exact ⟨hCheck, bind_eq_ok_iff.mp hPlace⟩
  · rintro ⟨hCheck, hPlace⟩
    exact ⟨(), hCheck, bind_eq_ok_iff.mpr hPlace⟩

/-- A path to a file ends in its name. -/
theorem steps_eq_append (h : (steps path).getLastD "" ≠ "") :
    steps path = stepsBefore path ++ [(steps path).getLastD ""] := by
  rcases List.eq_nil_or_concat (steps path) with hNil | ⟨before, last, hSteps⟩
  · simp [hNil] at h
  · rw [List.concat_eq_append] at hSteps
    have hLast : last ≠ "" := by simpa [hSteps] using h
    simp [stepsBefore, hSteps, hLast]

/-- A write leaves the targets of all paths. -/
theorem target_put_eq_ok_iff : (directory.put other contents).target path = .ok place ↔
    directory.target path = .ok place := by
  rw [target_eq_ok_iff, target_eq_ok_iff, and_congr_right_iff]
  intro _
  apply exists_congr
  intro folder
  have hPlace : (directory.put other contents).placeIn folder = directory.placeIn folder := rfl
  rw [hPlace, and_congr_left_iff]
  intro hIn
  exact walk_put_eq_ok_iff (placeIn_eq_ok_iff.mp hIn).1

/-- The steps that lead to a file are those that could write it. -/
theorem step_eq_ok_iff_of_file (hFile : directory.isFolder next = false) :
    directory.step place name = .ok next ↔
      directory.placeIn place name = .ok next ∧ (directory.find? next).isSome = true := by
  have hUp : directory.isFolder place = true → directory.isFolder place.dropLast = true :=
    isFolder_dropLast
  simp only [step, placeIn]
  grind

theorem read_eq_ok_iff_walk : directory.read path = .ok contents ↔
    checkPath path = .ok () ∧ ∃ place,
      directory.walk (directory.start path) (steps path) = .ok place ∧
        directory.isFolder place = false ∧ directory.find? place = some contents := by
  rw [read, bind_eq_ok_iff]
  simp only [bind_eq_ok_iff]
  constructor
  · rintro ⟨_, hCheck, place, hWalk, hRead⟩
    refine ⟨hCheck, place, hWalk, ?_⟩
    split at hRead
    · cases hRead
    · split at hRead
      · cases hRead
        simp_all
      · cases hRead
  · rintro ⟨hCheck, place, hWalk, hFile, hFind⟩
    refine ⟨(), hCheck, place, hWalk, ?_⟩
    simp [hFile, hFind, pure, Except.pure]

/-- A path reads the file in the place that it would write. -/
theorem read_eq_ok_iff : directory.read path = .ok contents ↔
    ∃ place, directory.target path = .ok place ∧ directory.find? place = some contents := by
  rw [read_eq_ok_iff_walk]
  constructor
  · rintro ⟨hCheck, place, hWalk, hFile, hFind⟩
    refine ⟨place, target_eq_ok_iff.mpr ⟨hCheck, ?_⟩, hFind⟩
    rcases List.eq_nil_or_concat (steps path) with hNil | ⟨before, last, hSteps⟩
    · rw [hNil] at hWalk
      cases hWalk
      simp [isFolder_start] at hFile
    · rw [List.concat_eq_append] at hSteps
      rw [hSteps] at hWalk
      obtain ⟨folder, hFolder, hStep⟩ := walk_concat_eq_ok_iff.mp hWalk
      have hIn := ((step_eq_ok_iff_of_file hFile).mp hStep).1
      obtain ⟨_, hName, _⟩ := placeIn_eq_ok_iff.mp hIn
      have hLast : (steps path).getLastD "" = last := by simp [hSteps]
      have hEnd : steps path = stepsBefore path ++ [last] :=
        hLast ▸ steps_eq_append (by simp_all)
      rw [List.append_cancel_right (hEnd.symm.trans hSteps), hLast]
      exact ⟨folder, hFolder, hIn⟩
  · rintro ⟨place, hTarget, hFind⟩
    obtain ⟨hCheck, folder, hFolder, hIn⟩ := target_eq_ok_iff.mp hTarget
    obtain ⟨_, hName, _, hFile, _⟩ := placeIn_eq_ok_iff.mp hIn
    refine ⟨hCheck, place, ?_, hFile, hFind⟩
    have hSteps : steps path = stepsBefore path ++ [_] := steps_eq_append (by simp_all)
    rw [hSteps, walk_concat_eq_ok_iff]
    exact ⟨folder, hFolder, (step_eq_ok_iff_of_file hFile).mpr ⟨hIn, by simp [hFind]⟩⟩

theorem write_eq_ok_iff : directory.write path contents = .ok after ↔
    ∃ place, directory.target path = .ok place ∧ directory.put place contents = after :=
  map_eq_ok_iff

theorem write_of_target (h : directory.target path = .ok place) (contents : Bytes) :
    directory.write path contents = .ok (directory.put place contents) :=
  write_eq_ok_iff.mpr ⟨place, h, rfl⟩

/-- A file that has been written reads back. -/
theorem read_of_write (h : directory.write path contents = .ok after) :
    after.read path = .ok contents := by
  obtain ⟨place, hTarget, rfl⟩ := write_eq_ok_iff.mp h
  exact read_eq_ok_iff.mpr ⟨place, target_put_eq_ok_iff.mpr hTarget, find?_put ..⟩

end BlockFilter.Directory
