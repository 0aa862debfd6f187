import BlockFilter.Proofs.BuildCommand
import BlockFilter.Proofs.FooterDamage
import BlockFilter.Proofs.Reports

/-! Sessions of commands. Each command starts from the files that the ones before it have left, so
the output of one may be the input of another, or the same file. Whatever can fail comes before the
one write of a build. So a command changes no file unless it is a build that succeeds, and such a
build changes its output alone. -/

namespace BlockFilter

namespace CommandLine

variable {options : BuildOptions} {command : Command} {directory start last : Directory}
  {contents block : Bytes} {keys : List Bytes} {filter : TableFilter} {path : String}
  {place other : Place}

/-! ## What a command decides -/

theorem Report.exitCode_failure_ne (events : List Event) (error : FilterError) :
    (Report.failure events error).exitCode ≠ 0 := Nat.one_ne_zero

/-- A build fails before its write, or its settings are good, its input is text, and it has made a
filter of the keys in there. -/
theorem BuildOptions.act_cases (options : BuildOptions) (source : Except FileFault Bytes) :
    (∃ events error, options.act source = .error (Report.failure events error)) ∨
      ∃ contents keys filter block, source = .ok contents ∧ options.config.check = .ok () ∧
        KeyFile.keys? contents = some keys ∧ options.Makes keys filter block ∧
        options.act source = .ok (.save options.output block (options.outcome keys filter)) := by
  -- The cases come in the order of the steps, and each step that fails ends the build.
  cases hSettings : options.config.check with
  | error fault =>
      refine .inl ⟨[], .config fault, ?_⟩
      simp only [act, hSettings, Except.mapError, bind, Except.bind]
  | ok =>
  cases source with
  | error fault =>
      refine .inl ⟨[], .file fault, ?_⟩
      simp only [act, hSettings, Except.mapError, bind, Except.bind]
  | ok contents =>
  cases hKeys : KeyFile.keys? contents with
  | none =>
      refine .inl ⟨[], .file .notText, ?_⟩
      simp only [act, hSettings, hKeys, Except.mapError, bind, Except.bind]
      rfl
  | some keys =>
  obtain ⟨set, refused, hPush⟩ : ∃ set refused,
      TableKeys.empty.pushKeys (KeyFile.inBlocks options.blockKeys keys) = (set, refused) :=
    ⟨_, _, rfl⟩
  cases refused with
  | some error =>
      refine .inl ⟨[], error, ?_⟩
      simp only [blockKeys] at hPush
      simp only [act, hSettings, hKeys, hPush, Except.mapError, bind, Except.bind]
      rfl
  | none =>
  have hAct := BuildOptions.act_of_accepted hSettings hKeys hPush
  cases hTrain : set.train (options.totalBlocks keys.length) options.config with
  | error error =>
      refine .inl ⟨[.trainingStarted options.config.kind keys.length
        (options.totalBlocks keys.length)], error, ?_⟩
      simp only [hAct, hTrain, Except.mapError, bind, Except.bind]
  | ok filter =>
  cases hStored : FooterBlock.encode filter with
  | error error =>
      refine .inl ⟨options.trainEvents keys filter, error, ?_⟩
      simp only [hAct, hTrain, hStored, Except.mapError, bind, Except.bind]
  | ok block =>
      have hMakes := makes_of_trained hPush hTrain hStored
      refine .inr ⟨contents, keys, filter, block, rfl, rfl, hKeys, hMakes, ?_⟩
      simp only [hAct, hTrain, hStored, Except.mapError, bind, Except.bind, pure, Except.pure]

/-- What stops a build before its write: bad settings, an input that cannot be read or is not text,
or keys of which no filter can be trained and stored. -/
inductive BuildOptions.Stopped (options : BuildOptions) (before : Directory) : Prop
  | settings {fault : ConfigFault} (refused : options.config.check = .error fault)
  | input {fault : FileFault} (unread : before.read options.input = .error fault)
  | text {contents : Bytes} (read : before.read options.input = .ok contents)
      (noText : KeyFile.keys? contents = none)
  | training {contents : Bytes} {keys : List Bytes}
      (read : before.read options.input = .ok contents)
      (found : KeyFile.keys? contents = some keys)
      (unmade : ∀ filter block, ¬options.Makes keys filter block)

/-- A command that is not a build writes nothing. -/
theorem Command.exists_finish (hCommand : ∀ options, command ≠ .build options)
    (source : Except FileFault Bytes) : ∃ report, command.act source = .finish report := by
  cases command with
  | build options => exact absurd rfl (hCommand options)
  | inspect path =>
      cases hLoad : load source with
      | error report => exact ⟨report, by simp only [act, hLoad, bind, Except.bind]⟩
      | ok filter => exact ⟨_, by simp only [act, hLoad, bind, Except.bind]; rfl⟩
  | query path key ordinal =>
      cases hLoad : load source with
      | error report => exact ⟨report, by simp only [act, hLoad, bind, Except.bind]⟩
      | ok filter => exact ⟨_, by simp only [act, hLoad, bind, Except.bind]; rfl⟩

/-- The block of a stored form whose length does not fit 32 bits cannot be read. -/
theorem BuildOptions.Makes.exists_error (h : options.Makes keys filter block)
    (hSize : UInt32.size ≤ filter.sizeBytes) : ∃ error, FooterBlock.decode block = .error error := by
  apply FooterBlock.exists_error_of_not_ok
  intro other hDecode
  have hFits := ((FooterBlock.decode_eq_ok_iff_of_encode h.stored).mp hDecode).2
  exact Nat.not_lt.mpr hSize hFits

theorem act_inspect_fault {error : FilterError} (hDecode : FooterBlock.decode block = .error error) :
    (Command.inspect path).act (.ok block) =
      .finish (Report.failure (FooterBlock.decodeEvents (.error error)) error) := by
  have hLoad : load (.ok block) =
      .error (Report.failure (FooterBlock.decodeEvents (.error error)) error) := by
    simp only [load, hDecode, Except.mapError, bind, Except.bind]
  simp only [Command.act, hLoad, bind, Except.bind]

theorem act_inspect (hDecode : FooterBlock.decode block = .ok filter) :
    (Command.inspect path).act (.ok block) = .finish (inspection filter) := by
  have hLoad : load (.ok block) = .ok filter := by
    simp only [load, hDecode, Except.mapError, bind, Except.bind]
  simp only [Command.act, hLoad, bind, Except.bind]
  rfl

/-! ## One command -/

/-- A command that has been carried out: the files before it, its report and the files after it. -/
structure Turn where
  command : Command
  before : Directory
  report : Report
  after : Directory

namespace Turn

/-- What remains to be done once the command has read its source. -/
def action (turn : Turn) : Action := turn.command.act (turn.before.read turn.command.source)

/-- The ways a turn can go. A write takes the whole contents, or it fails and changes nothing. It
may also fail where the path could be written, for any fault. -/
inductive Taken (turn : Turn) : Prop
  | finished (action_eq : turn.action = .finish turn.report) (same : turn.after = turn.before)
  | saved {path : String} {contents : Bytes} {report : Except FileFault Unit → Report}
      (action_eq : turn.action = .save path contents report)
      (written : turn.before.write path contents = .ok turn.after)
      (reported : turn.report = report (.ok ()))
  | unsaved {path : String} {contents : Bytes} {report : Except FileFault Unit → Report}
      (fault : FileFault) (action_eq : turn.action = .save path contents report)
      (same : turn.after = turn.before) (reported : turn.report = report (.error fault))

variable {turn : Turn}

theorem Taken.of_finish {report : Report} (h : turn.Taken)
    (hAction : turn.action = .finish report) : turn.report = report ∧ turn.after = turn.before := by
  cases h with
  | finished action_eq same =>
      rw [hAction] at action_eq
      exact ⟨(Action.finish.inj action_eq).symm, same⟩
  | saved action_eq => exact nomatch hAction.symm.trans action_eq
  | unsaved fault action_eq => exact nomatch hAction.symm.trans action_eq

theorem Taken.of_save {report : Except FileFault Unit → Report} (h : turn.Taken)
    (hAction : turn.action = .save path contents report) :
    (turn.before.write path contents = .ok turn.after ∧ turn.report = report (.ok ())) ∨
      ∃ fault, turn.after = turn.before ∧ turn.report = report (.error fault) := by
  cases h with
  | finished action_eq => exact nomatch hAction.symm.trans action_eq
  | saved action_eq written reported =>
      obtain ⟨rfl, rfl, rfl⟩ := Action.save.inj (hAction.symm.trans action_eq)
      exact .inl ⟨written, reported⟩
  | unsaved fault action_eq same reported =>
      obtain ⟨rfl, rfl, rfl⟩ := Action.save.inj (hAction.symm.trans action_eq)
      exact .inr ⟨fault, same, reported⟩

/-- A build that has succeeded. Its input was read before anything was written, and the file that
its output leads to is all that it has changed. -/
structure Saves (turn : Turn) (options : BuildOptions) (place : Place) (keys : List Bytes)
    (filter : TableFilter) (block : Bytes) : Prop where
  command_eq : turn.command = .build options
  settings : options.config.check = .ok ()
  input : ∃ contents, turn.before.read options.input = .ok contents ∧
    KeyFile.keys? contents = some keys
  makes : options.Makes keys filter block
  target : turn.before.target options.output = .ok place
  after_eq : turn.after = turn.before.put place block
  report_eq : turn.report = options.report keys filter

/-- A turn of a build fails and changes nothing, or it saves a filter. -/
theorem Taken.of_build (h : turn.Taken) (hBuild : turn.command = .build options) :
    (turn.report.exitCode ≠ 0 ∧ turn.after = turn.before) ∨
      ∃ place keys filter block, turn.Saves options place keys filter block := by
  obtain ⟨events, error, hAct⟩ |
      ⟨contents, keys, filter, block, hRead, hSettings, hKeys, hMakes, hAct⟩ :=
    options.act_cases (turn.before.read options.input)
  · have hAction : turn.action = .finish (Report.failure events error) := by
      simp only [action, hBuild, Command.source, Command.act, hAct]
    obtain ⟨hReport, hSame⟩ := h.of_finish hAction
    exact .inl ⟨by rw [hReport]; exact Report.exitCode_failure_ne _ _, hSame⟩
  · have hAction : turn.action = .save options.output block (options.outcome keys filter) := by
      simp only [action, hBuild, Command.source, Command.act, hAct]
    obtain ⟨hWrite, hReport⟩ | ⟨fault, hSame, hReport⟩ := h.of_save hAction
    · obtain ⟨place, hTarget, hAfter⟩ := Directory.write_eq_ok_iff.mp hWrite
      exact .inr ⟨place, keys, filter, block, hBuild, hSettings, ⟨contents, hRead, hKeys⟩, hMakes,
        hTarget, hAfter.symm, hReport⟩
    · exact .inl ⟨by rw [hReport]; exact Report.exitCode_failure_ne _ _, hSame⟩

/-- A turn that is not a build changes nothing, whether it succeeds or fails. -/
theorem Taken.same_of_not_build (h : turn.Taken)
    (hCommand : ∀ options, turn.command ≠ .build options) : turn.after = turn.before := by
  obtain ⟨report, hAction⟩ := Command.exists_finish hCommand (turn.before.read turn.command.source)
  exact (h.of_finish hAction).2

/-- An inspect of a file that holds a filter prints its kind and figures. -/
theorem Taken.of_inspect (h : turn.Taken) (hInspect : turn.command = .inspect path)
    (hRead : turn.before.read path = .ok block) (hDecode : FooterBlock.decode block = .ok filter) :
    turn.report = inspection filter := by
  have hAction : turn.action = .finish (inspection filter) := by
    rw [action, hInspect, Command.source, hRead, act_inspect hDecode]
  exact (h.of_finish hAction).1

/-- An inspect of a file that holds no filter fails. -/
theorem Taken.of_inspect_fault {error : FilterError} (h : turn.Taken)
    (hInspect : turn.command = .inspect path) (hRead : turn.before.read path = .ok block)
    (hDecode : FooterBlock.decode block = .error error) : turn.report.exitCode ≠ 0 := by
  have hAction : turn.action = .finish
      (Report.failure (FooterBlock.decodeEvents (.error error)) error) := by
    rw [action, hInspect, Command.source, hRead, act_inspect_fault hDecode]
  rw [(h.of_finish hAction).1]
  exact Report.exitCode_failure_ne _ _

/-- A build that succeeded, with an output that leads to a place. -/
def Writes (turn : Turn) (place : Place) : Prop :=
  ∃ options, turn.command = .build options ∧ turn.report.exitCode = 0 ∧
    turn.before.target options.output = .ok place

namespace Saves

variable (h : turn.Saves options place keys filter block)
include h

theorem not_stopped : ¬options.Stopped turn.before := by
  obtain ⟨contents, hRead, hKeys⟩ := h.input
  intro hStopped
  cases hStopped with
  | settings refused => exact nomatch h.settings.symm.trans refused
  | input unread => exact nomatch hRead.symm.trans unread
  | text read noText =>
      obtain rfl := Except.ok.inj (hRead.symm.trans read)
      exact nomatch hKeys.symm.trans noText
  | training read found unmade =>
      obtain rfl := Except.ok.inj (hRead.symm.trans read)
      obtain rfl := Option.some.inj (hKeys.symm.trans found)
      exact unmade filter block h.makes

theorem exitCode_eq : turn.report.exitCode = 0 := by
  rw [h.report_eq, BuildOptions.report]

theorem find?_eq : turn.after.find? place = some block := by
  rw [h.after_eq, Directory.find?_put]

theorem read_output : turn.after.read options.output = .ok block := by
  rw [h.after_eq]
  exact Directory.read_eq_ok_iff.mpr
    ⟨place, Directory.target_put_eq_ok_iff.mpr h.target, Directory.find?_put ..⟩

theorem find?_of_ne (hOther : other ≠ place) :
    turn.after.find? other = turn.before.find? other := by
  rw [h.after_eq, Directory.find?_put_of_ne _ _ hOther]

/-- A build that succeeded writes one file. -/
theorem writes_iff : turn.Writes other ↔ other = place := by
  constructor
  · rintro ⟨options', hCommand, _, hTarget⟩
    obtain rfl := Command.build.inj (h.command_eq.symm.trans hCommand)
    exact Except.ok.inj (hTarget.symm.trans h.target)
  · rintro rfl
    exact ⟨options, h.command_eq, h.exitCode_eq, h.target⟩

end Saves

/-- A turn leaves a file as it was, or it is a build that has put its block there. -/
theorem Taken.find?_cases (h : turn.Taken) (place : Place) :
    (¬turn.Writes place ∧ turn.after.find? place = turn.before.find? place) ∨
      ∃ options keys filter block, turn.Saves options place keys filter block := by
  by_cases hCommand : ∃ options, turn.command = .build options
  · obtain ⟨options, hBuild⟩ := hCommand
    obtain ⟨hCode, hSame⟩ | ⟨saved, keys, filter, block, hSaves⟩ := h.of_build hBuild
    · exact .inl ⟨fun ⟨_, _, hZero, _⟩ => hCode hZero, by rw [hSame]⟩
    · by_cases hPlace : place = saved
      · exact .inr ⟨options, keys, filter, block, hPlace ▸ hSaves⟩
      · exact .inl ⟨fun hWrites => hPlace (hSaves.writes_iff.mp hWrites), hSaves.find?_of_ne hPlace⟩
  · have hOther : ∀ options, turn.command ≠ .build options := by simpa using hCommand
    exact .inl ⟨fun ⟨options, hBuild, _⟩ => hOther options hBuild,
      by rw [h.same_of_not_build hOther]⟩

end Turn

/-! ## Any number of commands -/

/-- Turns one after the other, each on the files that the turn before it has left. -/
inductive Session : Directory → List Turn → Directory → Prop
  | nil (directory : Directory) : Session directory [] directory
  | cons {turn : Turn} {later : List Turn} {last : Directory} (first : turn.Taken)
      (rest : Session turn.after later last) : Session turn.before (turn :: later) last

namespace Session

variable {earlier later turns : List Turn} {turn : Turn}

/-- Each turn of a session is taken between the turns before and after it. -/
theorem of_append_cons (h : Session start (earlier ++ turn :: later) last) :
    Session start earlier turn.before ∧ turn.Taken ∧ Session turn.after later last := by
  induction earlier generalizing start with
  | nil =>
      cases h with
      | cons first rest => exact ⟨.nil _, first, rest⟩
  | cons head earlier ih =>
      cases h with
      | cons first rest =>
          obtain ⟨hEarlier, hTaken, hLater⟩ := ih rest
          exact ⟨.cons first hEarlier, hTaken, hLater⟩

/-- A file holds what it held at the start, or the block of the last build that has written it. -/
theorem find?_cases (h : Session start turns last) (place : Place) :
    ((∀ turn ∈ turns, ¬turn.Writes place) ∧ last.find? place = start.find? place) ∨
      ∃ (earlier : List Turn) (turn : Turn) (later : List Turn),
        turns = earlier ++ turn :: later ∧ (∀ other ∈ later, ¬other.Writes place) ∧
        ∃ options keys filter block, turn.Saves options place keys filter block ∧
          last.find? place = some block := by
  induction h with
  | nil directory => exact .inl ⟨by simp, rfl⟩
  | @cons turn later last first rest ih =>
      obtain ⟨hNone, hSame⟩ | ⟨earlier, writer, after, hTurns, hWriter⟩ := ih
      · obtain ⟨hNot, hStep⟩ | ⟨options, keys, filter, block, hSaves⟩ := first.find?_cases place
        · exact .inl ⟨List.forall_mem_cons.mpr ⟨hNot, hNone⟩, hSame.trans hStep⟩
        · exact .inr ⟨[], turn, later, rfl, hNone, options, keys, filter, block, hSaves,
            hSame.trans hSaves.find?_eq⟩
      · exact .inr ⟨turn :: earlier, writer, after, congrArg (turn :: ·) hTurns, hWriter⟩

theorem find?_of_not_writes (h : Session start turns last)
    (hNone : ∀ turn ∈ turns, ¬turn.Writes place) : last.find? place = start.find? place := by
  obtain ⟨_, hSame⟩ | ⟨earlier, turn, later, rfl, _, options, keys, filter, block, hSaves, _⟩ :=
    h.find?_cases place
  · exact hSame
  · exact absurd (hSaves.writes_iff.mpr rfl) (hNone turn (by simp))

end Session

/-- An inspect after a build, with no build of the same file in between, prints the filter that was
saved, or fails because its block cannot be read. -/
theorem Turn.Saves.of_inspect {turn look : Turn} {between rest : List Turn}
    (h : turn.Saves options place keys filter block)
    (hSession : Session turn.after (between ++ look :: rest) last)
    (hBetween : ∀ other ∈ between, ¬other.Writes place) (hInspect : look.command = .inspect path)
    (hTarget : look.before.target path = .ok place) :
    (filter.sizeBytes < UInt32.size → look.report = inspection filter) ∧
      (UInt32.size ≤ filter.sizeBytes → look.report.exitCode ≠ 0) := by
  obtain ⟨hEarlier, hTaken, _⟩ := hSession.of_append_cons
  have hFind : look.before.find? place = some block :=
    (hEarlier.find?_of_not_writes hBetween).trans h.find?_eq
  have hRead := Directory.read_eq_ok_iff.mpr ⟨place, hTarget, hFind⟩
  constructor
  · intro hSize
    exact hTaken.of_inspect hInspect hRead (FooterBlock.decode_of_encode h.makes.stored hSize)
  · intro hSize
    obtain ⟨error, hFault⟩ := h.makes.exists_error hSize
    exact hTaken.of_inspect_fault hInspect hRead hFault

/-- The turn of a command as it is carried out. -/
def Command.turn (command : Command) (directory : Directory) : Turn :=
  ⟨command, directory, (command.run directory).1, (command.run directory).2⟩

theorem Command.taken_turn (command : Command) (directory : Directory) :
    (command.turn directory).Taken := by
  cases hAct : command.act (directory.read command.source) with
  | finish report =>
      exact .finished (by simp [turn, run, Turn.action, hAct]) (by simp [turn, run, hAct])
  | save path contents report =>
      cases hWrite : directory.write path contents with
      | ok after =>
          exact .saved hAct (by simp [turn, run, hAct, hWrite]) (by simp [turn, run, hAct, hWrite])
      | error fault =>
          exact .unsaved fault hAct (by simp [turn, run, hAct, hWrite])
            (by simp [turn, run, hAct, hWrite])

/-- Carry commands out one after the other. -/
def runAll : List Command → Directory → List Turn × Directory
  | [], directory => ([], directory)
  | command :: rest, directory =>
      let turn := command.turn directory
      let (later, last) := runAll rest turn.after
      (turn :: later, last)

theorem session_runAll (commands : List Command) (directory : Directory) :
    Session directory (runAll commands directory).1 (runAll commands directory).2 := by
  induction commands generalizing directory with
  | nil => exact .nil directory
  | cons command rest ih => exact .cons (command.taken_turn directory) (ih _)

/-- Sessions of any commands from any files, where a write may also fail and then changes nothing.
A turn that is not a build changes no file. Nor does a build that fails, as it does with bad
settings, without a text to read, or with keys of which no filter is made. A build that succeeds
has read its input before its write, also where both are one file. It changes its output alone, and
leaves there the block of the filter of the keys that it read. Up to the next build of that file an
inspect of it shows the kind and all figures of the filter, where the size of the stored form fits 32
bits, as it does for every bit array below 512 MB. Where it does not, the inspect fails. So a file
holds what it held at the start, or the block of the last build that wrote it. -/
theorem session_keeps_files {turns : List Turn} (h : Session start turns last) :
    (∀ (earlier : List Turn) (turn : Turn) (later : List Turn), turns = earlier ++ turn :: later →
      ((∀ options, turn.command ≠ .build options) → turn.after = turn.before) ∧
      ∀ options, turn.command = .build options →
        (turn.report.exitCode ≠ 0 → turn.after = turn.before) ∧
        (options.Stopped turn.before → turn.report.exitCode ≠ 0) ∧
        (turn.report.exitCode = 0 → ∃ place keys filter block,
          turn.Saves options place keys filter block ∧
          turn.after.read options.output = .ok block ∧
          (∀ other, other ≠ place → turn.after.find? other = turn.before.find? other) ∧
          ∀ (between : List Turn) (look : Turn) (rest : List Turn),
            later = between ++ look :: rest → (∀ other ∈ between, ¬other.Writes place) →
              ∀ path, look.command = .inspect path → look.before.target path = .ok place →
                (filter.sizeBytes < UInt32.size →
                  look.report = inspection filter ∧ Shows look.report.output filter) ∧
                (UInt32.size ≤ filter.sizeBytes → look.report.exitCode ≠ 0))) ∧
    ∀ place, ((∀ turn ∈ turns, ¬turn.Writes place) ∧ last.find? place = start.find? place) ∨
      ∃ (earlier : List Turn) (turn : Turn) (later : List Turn),
        turns = earlier ++ turn :: later ∧ (∀ other ∈ later, ¬other.Writes place) ∧
        ∃ options keys filter block, turn.Saves options place keys filter block ∧
          last.find? place = some block := by
  refine ⟨?_, h.find?_cases⟩
  rintro earlier turn later rfl
  obtain ⟨_, hTaken, hLater⟩ := h.of_append_cons
  refine ⟨hTaken.same_of_not_build, ?_⟩
  intro options hBuild
  obtain ⟨hCode, hSame⟩ | ⟨place, keys, filter, block, hSaves⟩ := hTaken.of_build hBuild
  · exact ⟨fun _ => hSame, fun _ => hCode, fun hZero => absurd hZero hCode⟩
  · refine ⟨fun hCode => absurd hSaves.exitCode_eq hCode,
      fun hStopped => absurd hStopped hSaves.not_stopped, fun _ => ?_⟩
    refine ⟨place, keys, filter, block, hSaves, hSaves.read_output, fun _ => hSaves.find?_of_ne, ?_⟩
    rintro between look rest rfl hBetween path hInspect hTarget
    obtain ⟨hPrints, hFails⟩ := hSaves.of_inspect hLater hBetween hInspect hTarget
    refine ⟨fun hSize => ⟨hPrints hSize, ?_⟩, hFails⟩
    rw [hPrints hSize]
    exact shows_inspection filter

/-- A build over its own input, and then an inspect of what it has left there by another path. -/
theorem session_keeps_files_own_input :
    let options : BuildOptions := ⟨"tables/keys", "tables/keys", 1, {}⟩
    let start : Directory :=
      { files := [(["home", "tables", "keys"], utf8 "b\na\n")]
        folders := [["home", "tables"]] }
    let session := runAll [.build options, .inspect "/home/tables/keys"] start
    Session start session.1 session.2 ∧ ∃ keys filter block, options.Makes keys filter block ∧
      session.1.map (·.report) = [options.report keys filter, inspection filter] ∧
      Shows (inspection filter).output filter ∧ session.2.read "tables/keys" = .ok block := by
  intro options start session
  have hSession : Session start session.1 session.2 := session_runAll _ start
  obtain ⟨hTurns, _⟩ := session_keeps_files hSession
  let build : Turn := (Command.build options).turn start
  let look : Turn := (Command.inspect "/home/tables/keys").turn build.after
  have hSettings : options.config.check = .ok () := by decide +kernel
  have hSize (keys : Nat) :
      options.config.bitArrayBytes keys + LearnedIndex.trailerBytes < UInt32.size := by
    show 64 + 33 < UInt32.size
    decide
  have hKeys : KeyFile.keys? (utf8 "b\na\n") = some (KeyFile.distinctLines (utf8 "b\na\n")) :=
    KeyFile.keys?_of_isText ⟨_, rfl⟩
  have hCount : (KeyFile.distinctLines (utf8 "b\na\n")).length < UInt32.size := by
    refine Nat.lt_of_le_of_lt (KeyFile.keysOf_distinctLines _).length_le ?_
    show 2 < UInt32.size
    decide
  have hTarget : start.target "tables/keys" = .ok ["home", "tables", "keys"] := by decide +kernel
  have hAround : start.target "/home/tables/keys" = .ok ["home", "tables", "keys"] := by
    decide +kernel
  have hCode : build.report.exitCode = 0 := by
    obtain ⟨filter, block, hMakes⟩ := BuildOptions.exists_makes hSettings hCount
      (Nat.lt_of_le_of_lt (Nat.le_add_right ..) (hSize _))
    have hRead : start.read "tables/keys" = .ok (utf8 "b\na\n") :=
      Directory.read_eq_ok_iff.mpr ⟨_, hTarget, rfl⟩
    have hWrite := Directory.write_of_target hTarget block
    have hRun := hMakes.run_eq hSettings hKeys hCount hRead hWrite
    show ((Command.build options).run start).1.exitCode = 0
    rw [hRun, BuildOptions.report]
  obtain ⟨place, keys, filter, block, hSaves, hRead, _, hInspect⟩ :=
    ((hTurns [] build [look] rfl).2 options rfl).2.2 hCode
  have hSame : look.after = build.after :=
    (hTurns [build] look [] rfl).1 (by simp [look, Command.turn])
  have hPlace : place = ["home", "tables", "keys"] :=
    Except.ok.inj (hSaves.target.symm.trans hTarget)
  have hBefore : look.before.target "/home/tables/keys" = .ok place := by
    show build.after.target "/home/tables/keys" = .ok place
    rw [hSaves.after_eq, Directory.target_put_eq_ok_iff, hPlace]
    exact hAround
  obtain ⟨hReport, hShows⟩ := (hInspect [] look [] rfl (by simp) _ rfl hBefore).1
    (hSaves.makes.sizeBytes_lt (hSize _))
  refine ⟨hSession, keys, filter, block, hSaves.makes, ?_, hReport ▸ hShows, ?_⟩
  · show [build.report, look.report] = _
    rw [hSaves.report_eq, hReport]
  · show look.after.read "tables/keys" = .ok block
    rw [hSame]
    exact hRead

/-- A build that leaves a block which cannot be read, and an inspect of it. -/
theorem runAll_of_wide {after : Directory} (h : options.Makes keys filter block)
    (hSettings : options.config.check = .ok ()) (hKeys : KeyFile.keys? contents = some keys)
    (hCount : keys.length < UInt32.size) (hSize : UInt32.size ≤ filter.sizeBytes)
    (hRead : directory.read options.input = .ok contents)
    (hWrite : directory.write options.output block = .ok after) :
    let session := runAll [.build options, .inspect options.output] directory
    session.1.map (·.report.exitCode) = [0, 1] ∧ session.2.read options.output = .ok block := by
  have hBuild := h.run_eq hSettings hKeys hCount hRead hWrite
  have hFound : after.read options.output = .ok block := Directory.read_of_write hWrite
  obtain ⟨error, hFault⟩ := h.exists_error hSize
  have hLook : (Command.inspect options.output).run after =
      (Report.failure (FooterBlock.decodeEvents (.error error)) error, after) := by
    simp only [Command.run, Command.source, hFound, act_inspect_fault hFault]
  simp only [runAll, Command.turn, hBuild, hLook]
  exact ⟨rfl, hFound⟩

/-- A build whose filter has one byte too many for a 32-bit length succeeds, and the inspect that
follows it fails on what it has written. -/
theorem inspect_of_wide_build :
    let options : BuildOptions := ⟨"keys", "filter", 1, { bloomBytes := 4294967263 }⟩
    let start : Directory := { files := [(["home", "keys"], [])] }
    let session := runAll [.build options, .inspect "filter"] start
    ∃ filter block, options.Makes [] filter block ∧
      session.1.map (·.report.exitCode) = [0, 1] ∧ session.2.read "filter" = .ok block := by
  intro options start session
  have hSettings : options.config.check = .ok () := by decide +kernel
  have hMax : max 4294967263 minBloomBytes = 4294967263 := Nat.max_eq_left (by decide)
  have hBits : options.config.bitArrayBytes 0 = 4294967263 := hMax
  have hTrailer : options.config.kind.trailerBytes = 33 := rfl
  have hCount : ([] : List Bytes).length < UInt32.size := by decide
  obtain ⟨filter, block, hMakes⟩ := BuildOptions.exists_makes hSettings hCount
    (by rw [List.length_nil, hBits]; decide)
  have hSize : UInt32.size ≤ filter.sizeBytes := by
    rw [hMakes.sizeBytes_eq, List.length_nil, hBits, hTrailer]
  have hKeys : KeyFile.keys? [] = some [] := by decide +kernel
  have hInput : start.target "keys" = .ok ["home", "keys"] := by decide +kernel
  have hOutput : start.target "filter" = .ok ["home", "filter"] := by decide +kernel
  have hRead := Directory.read_eq_ok_iff.mpr ⟨_, hInput, rfl⟩
  have hWrite := Directory.write_of_target hOutput block
  exact ⟨filter, block, hMakes, runAll_of_wide hMakes hSettings hKeys hCount hSize hRead hWrite⟩

end CommandLine

end BlockFilter
