import FluidSizing.CommandLine.Run
import FluidSizing.Proofs.Files

/-! A run on a directory. The settings and the input are read and nothing is written until both are there
(`settings_run`, `input_run`), so a run that fails before that leaves the directory alone. Then the style
sheet is processed, and the directory changes only in the file that the result is written to, which may be
the input (`delivered_deliver`). -/

namespace FluidSizing

namespace CommandLine

/-- The settings before the options: those of the file, or the defaults if no file is named. -/
def Options.Configured (options : Options) (files : Directory) (settings : Settings) : Prop :=
  match options.config with
  | none => settings = {
      warnings := false
      minWidth := Binary64.ofNat 768
      maxWidth := Binary64.ofNat 1536
      baseFontSize := Binary64.ofNat 16 }
  | some path => ∃ bytes text, files.read path = .ok bytes ∧ decodeUtf8 bytes = some text ∧
      Settings.ofText text = .ok settings

/-- The style sheet of a run: the text of the named file, or of the standard input if none is named or
the name is a hyphen. -/
def Options.Inputs (options : Options) (files : Directory)
    (standardInput : Except FileError ByteArray) (css : Text) : Prop :=
  ∃ bytes, decodeUtf8 bytes = some css ∧
    match options.input with
    | none => standardInput = .ok bytes
    | some path =>
      if path = ['-'] then standardInput = .ok bytes else files.read path = .ok bytes

variable {files : Directory} {standardInput : Except FileError ByteArray} {options : Options}

/-- A step on a directory, and what is done with its result. -/
theorem run_bind {α β : Type} {step : StateM Directory α} {result : α} {after : Directory}
    (h : step.run files = (result, after)) (next : α → StateM Directory β) :
    (step >>= next).run files = (next result).run after := by
  show (next (step.run files).1).run (step.run files).2 = _
  rw [h]

theorem textOf_eq_ok_iff {message text : Text} {bytes : Except FileError ByteArray} :
    textOf message bytes = .ok text ↔
      ∃ content, bytes = .ok content ∧ decodeUtf8 content = some text := by
  cases bytes with
  | error error => simp [textOf]
  | ok content =>
      cases hdecode : decodeUtf8 content with
      | none => simp [textOf, hdecode]
      | some decoded => simp [textOf, hdecode]

theorem settingsOf_eq_ok_iff {path : Text} {bytes : Except FileError ByteArray} {settings : Settings} :
    settingsOf path bytes = .ok settings ↔
      ∃ content text, bytes = .ok content ∧ decodeUtf8 content = some text ∧
        Settings.ofText text = .ok settings := by
  unfold settingsOf
  constructor
  · intro h
    split at h
    · cases h
    · rename_i text htext
      obtain ⟨content, hbytes, hdecode⟩ := textOf_eq_ok_iff.mp htext
      split at h
      · cases h
      · rename_i found hread
        exact ⟨content, text, hbytes, hdecode, by rw [hread, Except.ok.inj h]⟩
  · rintro ⟨content, text, hbytes, hdecode, hread⟩
    have htext : textOf ("failed to read configuration ".toList ++ path) bytes = .ok text :=
      textOf_eq_ok_iff.mpr ⟨content, hbytes, hdecode⟩
    rw [htext]
    simp only [hread]

/-- Reading the settings leaves the directory alone, and gives the configured ones with the options. -/
theorem settings_run (files : Directory) (standardInput : Except FileError ByteArray)
    (options : Options) :
    ∃ result, (settings (Directory.access standardInput) options).run files = (result, files) ∧
      ∀ given, result = .ok given ↔
        ∃ settings, options.Configured files settings ∧ options.override settings = given := by
  cases hconfig : options.config with
  | none =>
      refine ⟨.ok (options.override Settings.default), ?_, fun given => ?_⟩
      · simp only [settings, hconfig]
        rfl
      · simp [Options.Configured, hconfig, Settings.default]
  | some path =>
      refine ⟨(settingsOf path (files.read path)).map options.override, ?_, fun given => ?_⟩
      · simp only [settings, hconfig]
        rfl
      · have hloaded : ∀ settings, options.Configured files settings ↔
            settingsOf path (files.read path) = .ok settings := by
          intro settings
          rw [settingsOf_eq_ok_iff, Options.Configured, hconfig]
        simp only [hloaded]
        cases settingsOf path (files.read path) <;> simp [Except.map]

theorem Options.inputs_of_none (h : options.inputPath? = none) (css : Text) :
    options.Inputs files standardInput css ↔
      ∃ bytes, standardInput = .ok bytes ∧ decodeUtf8 bytes = some css := by
  unfold Options.Inputs
  cases hinput : options.input with
  | none => simp only [and_comm]
  | some path =>
      have hhyphen : path = ['-'] := by simpa [Options.inputPath?, hinput] using h
      simp only [if_pos hhyphen, and_comm]

theorem Options.inputs_of_some {path : Text} (h : options.inputPath? = some path) (css : Text) :
    options.Inputs files standardInput css ↔
      ∃ bytes, files.read path = .ok bytes ∧ decodeUtf8 bytes = some css := by
  unfold Options.Inputs
  obtain ⟨hinput, hhyphen⟩ := Option.filter_eq_some_iff.mp h
  have hne : path ≠ ['-'] := by simpa using hhyphen
  simp only [hinput, if_neg hne, and_comm]

/-- Reading the input leaves the directory alone. -/
theorem input_run (files : Directory) (standardInput : Except FileError ByteArray)
    (options : Options) :
    ∃ result, (input (Directory.access standardInput) options).run files = (result, files) ∧
      ∀ css, result = .ok css ↔ options.Inputs files standardInput css := by
  cases hpath : options.inputPath? with
  | none =>
      refine ⟨textOf "failed to read stdin".toList standardInput, ?_, fun css => ?_⟩
      · simp only [input, hpath]
        rfl
      · rw [textOf_eq_ok_iff, Options.inputs_of_none hpath]
  | some path =>
      refine ⟨textOf ("failed to read ".toList ++ path) (files.read path), ?_, fun css => ?_⟩
      · simp only [input, hpath]
        rfl
      · rw [textOf_eq_ok_iff, Options.inputs_of_some hpath]

/-- What a failed run leaves: no output, and the directory as it was. -/
structure Refused (files : Directory) (report : Report) (after : Directory) : Prop where
  exitCode : report.exitCode = 1
  output : report.output = []
  after_eq : after = files

/-- What a run leaves that holds the new sheet in a file of the directory. -/
structure Written (files : Directory) (path name : Text) (css : Text) (report : Report)
    (after : Directory) : Prop where
  exitCode : report.exitCode = 0
  output : report.output = []
  read : after.read path = .ok (encodeUtf8 css)
  content : after.content? name = some (encodeUtf8 css)
  others : ∀ other, other ≠ name → after.content? other = files.content? other

/-- What a run leaves that has processed a style sheet. The warnings are reported first, one in a line and
in order, and there is nothing else to report unless the run fails, which it does only if it cannot
write. -/
structure Delivered (options : Options) (files : Directory) (processed : Processed) (report : Report)
    (after : Directory) : Prop where
  warnings : (processed.warnings.flatMap fun warning => warning.render ++ ['\n']) <+: report.messages
  messages : report.exitCode = 0 →
    report.messages = processed.warnings.flatMap fun warning => warning.render ++ ['\n']
  printed : options.output = none →
    report.exitCode = 0 ∧ report.output = processed.css ∧ after = files
  written : ∀ path name, options.output = some path → files.Writable path name →
    Written files path name processed.css report after
  refused : ∀ path, options.output = some path → (¬ ∃ name, files.Writable path name) →
    Refused files report after

theorem delivered_of_no_output (h : options.output = none) (processed : Processed) :
    ∃ report after,
      (deliver (Directory.access standardInput) options processed).run files = (report, after) ∧
        Delivered options files processed report after := by
  refine ⟨⟨0, processed.css, warningLines processed.warnings⟩, files, ?_, ?_⟩
  · simp only [deliver, h]
    rfl
  · exact {
      warnings := List.prefix_rfl
      messages := fun _ => rfl
      printed := fun _ => ⟨rfl, rfl, rfl⟩
      written := fun path name hpath => by rw [h] at hpath; cases hpath
      refused := fun path hpath => by rw [h] at hpath; cases hpath }

/-- Where the result is to be written, only the path of the output matters. -/
theorem Delivered.of_output {path : Text} (h : options.output = some path) {processed : Processed}
    {report : Report} {after : Directory}
    (warnings : warningLines processed.warnings <+: report.messages)
    (messages : report.exitCode = 0 → report.messages = warningLines processed.warnings)
    (written : ∀ name, files.Writable path name → Written files path name processed.css report after)
    (refused : (¬ ∃ name, files.Writable path name) → Refused files report after) :
    Delivered options files processed report after where
  warnings := warnings
  messages := messages
  printed hnone := by
    rw [h] at hnone
    cases hnone
  written path' name hpath := by
    obtain rfl := Option.some.inj (h.symm.trans hpath)
    exact written name
  refused path' hpath := by
    obtain rfl := Option.some.inj (h.symm.trans hpath)
    exact refused

theorem delivered_of_writable {path name : Text} (h : options.output = some path)
    (hpath : files.Writable path name) (processed : Processed) :
    ∃ report after,
      (deliver (Directory.access standardInput) options processed).run files = (report, after) ∧
        Delivered options files processed report after := by
  have hwrite : ((Directory.access standardInput).write path (encodeUtf8 processed.css)).run files =
      (.ok (), files.put name (encodeUtf8 processed.css)) := by
    simp [Directory.access, Directory.write_of_writable hpath]
    rfl
  refine ⟨⟨0, [], warningLines processed.warnings⟩, files.put name (encodeUtf8 processed.css), ?_, ?_⟩
  · simp only [deliver, h]
    rw [run_bind hwrite]
    rfl
  · refine .of_output h List.prefix_rfl (fun _ => rfl) (fun name' hwritable => ?_)
      (fun hnone => absurd ⟨name, hpath⟩ hnone)
    obtain rfl : name = name' := hpath.name_eq hwritable
    exact {
      exitCode := rfl
      output := rfl
      read := Directory.read_put hpath _
      content := Directory.content?_put_self files name _
      others := fun other hother => Directory.content?_put_of_ne hother files _ }

theorem delivered_of_not_writable {path : Text} (h : options.output = some path)
    (hpath : ¬ ∃ name, files.Writable path name) (processed : Processed) :
    ∃ report after,
      (deliver (Directory.access standardInput) options processed).run files = (report, after) ∧
        Delivered options files processed report after := by
  cases hcase : files.write path (encodeUtf8 processed.css) with
  | ok after => exact absurd (Directory.exists_writable_of_write hcase) hpath
  | error error =>
      have hwrite : ((Directory.access standardInput).write path (encodeUtf8 processed.css)).run files =
          (.error error, files) := by
        simp [Directory.access, hcase]
        rfl
      refine ⟨.failed (warningLines processed.warnings)
        ⟨"failed to write ".toList ++ path, [error.message]⟩, files, ?_, ?_⟩
      · simp only [deliver, h]
        rw [run_bind hwrite]
        rfl
      · exact .of_output h (List.prefix_append _ _) nofun
          (fun name hwritable => absurd ⟨name, hwritable⟩ hpath) (fun _ => ⟨rfl, rfl, rfl⟩)

/-- A processed sheet is printed, or written, or the run fails. -/
theorem delivered_deliver (options : Options) (files : Directory)
    (standardInput : Except FileError ByteArray) (processed : Processed) : ∃ report after,
      (deliver (Directory.access standardInput) options processed).run files = (report, after) ∧
        Delivered options files processed report after := by
  cases houtput : options.output with
  | none => exact delivered_of_no_output houtput processed
  | some path =>
      by_cases hpath : ∃ name, files.Writable path name
      · obtain ⟨name, hpath⟩ := hpath
        exact delivered_of_writable houtput hpath processed
      · exact delivered_of_not_writable houtput hpath processed

/-- The report of the program on a directory, and the directory behind it, if the arguments are
accepted. -/
def outcome (files : Directory) (standardInput : Except FileError ByteArray) (arguments : List Text) :
    Except ArgumentError (Report × Directory) :=
  (read arguments).map fun invocation =>
    (invocation.perform (Directory.access standardInput)).run files

/-- A run for which the settings or the input cannot be had fails, and the directory is left alone. Any
other run delivers the input processed under the configured settings, each of which an option overrides if
it is given: it prints it, or writes it to a file and changes no other one, or fails where the path leads
to no file and leaves the directory alone. -/
theorem outcome_of_run {arguments : List Text} {options : Options}
    (h : read arguments = .ok (.run options)) (files : Directory)
    (standardInput : Except FileError ByteArray) :
    ∃ report after, outcome files standardInput arguments = .ok (report, after) ∧
      ((¬ ∃ settings, options.Configured files settings) ∨
          (¬ ∃ css, options.Inputs files standardInput css) → Refused files report after) ∧
      ∀ settings css, options.Configured files settings → options.Inputs files standardInput css →
        Delivered options files
          (process
            { warnings := settings.warnings || options.warnings
              minWidth := options.minWidth.getD settings.minWidth
              maxWidth := options.maxWidth.getD settings.maxWidth
              baseFontSize := options.baseFontSize.getD settings.baseFontSize }
            css)
          report after := by
  have houtcome : outcome files standardInput arguments =
      .ok ((run (Directory.access standardInput) options).run files) := by
    rw [outcome, h]
    rfl
  obtain ⟨loaded, hloaded, hconfigured⟩ := settings_run files standardInput options
  obtain ⟨entered, hentered, hinputs⟩ := input_run files standardInput options
  rw [houtcome, run, run_bind hloaded]
  cases loaded with
  | error failure =>
      have hnone : ¬ ∃ settings, options.Configured files settings := by
        rintro ⟨settings, hsettings⟩
        cases (hconfigured _).mpr ⟨settings, hsettings, rfl⟩
      exact ⟨.failed [] failure, files, rfl, fun _ => ⟨rfl, rfl, rfl⟩,
        fun settings _ hsettings _ => absurd ⟨settings, hsettings⟩ hnone⟩
  | ok given =>
      dsimp only
      rw [run_bind hentered]
      cases entered with
      | error failure =>
          have hnone : ¬ ∃ css, options.Inputs files standardInput css := by
            rintro ⟨css, hcss⟩
            cases (hinputs css).mpr hcss
          exact ⟨.failed [] failure, files, rfl, fun _ => ⟨rfl, rfl, rfl⟩,
            fun _ css _ hcss => absurd ⟨css, hcss⟩ hnone⟩
      | ok css =>
          obtain ⟨settings, hsettings, -⟩ := (hconfigured given).mp rfl
          have hcss := (hinputs css).mp rfl
          obtain ⟨report, after, hdeliver, hdelivered⟩ :=
            delivered_deliver options files standardInput (process given css)
          refine ⟨report, after, congrArg Except.ok hdeliver, ?_, ?_⟩
          · rintro (hnone | hnone)
            · exact absurd ⟨settings, hsettings⟩ hnone
            · exact absurd ⟨css, hcss⟩ hnone
          · intro settings' css' hsettings' hcss'
            obtain rfl := Except.ok.inj ((hconfigured _).mpr ⟨settings', hsettings', rfl⟩)
            obtain rfl := Except.ok.inj ((hinputs css').mpr hcss')
            exact hdelivered

/-- A run that writes the new sheet in place and reports a warning, with a settings file all of whose
values the options override. -/
theorem outcome_of_run_inPlace :
    let css := "a\x7bb:clamp(1rem,@fluid(),2rem) clamp(1px,@fluid(9,9),2px)\x7d".toList
    let given :=
      "\x7b\x22warnings\x22:false,\x22minWidth\x22:400,\x22maxWidth\x22:1200,\x22baseFontSize\x22:20\x7d".toList
    let files : Directory :=
      [⟨"in.css".toList, encodeUtf8 css⟩, ⟨"c.json".toList, encodeUtf8 given⟩]
    let arguments := ["-wcc.json".toList, "in.css".toList, "--output=in.css".toList,
      "--min-width".toList, "320".toList, "--max-width=1280".toList, "--base-font-size=18".toList]
    ∃ report after, outcome files ByteArray.empty arguments = .ok (report, after) ∧
      report.exitCode = 0 ∧ report.output = [] ∧
      report.messages = ("fluid-clamp: 1:3: minScreen (9px) and maxScreen (9px) are equal. " ++
        "Using minSize (18px). (b)\n").toList ∧
      after.read "in.css".toList = .ok (encodeUtf8
        "a\x7bb:clamp(1rem,calc(10.66667px + 1.66667vw),2rem) clamp(1px,18px,2px)\x7d".toList) := by
  intro css given files arguments
  let options : Options := {
    input := "in.css".toList
    output := "in.css".toList
    config := "c.json".toList
    warnings := true
    minWidth := Binary64.ofNat 320
    maxWidth := Binary64.ofNat 1280
    baseFontSize := Binary64.ofNat 18 }
  let loaded : Settings := {
    minWidth := Binary64.ofNat 400
    maxWidth := Binary64.ofNat 1200
    baseFontSize := Binary64.ofNat 20 }
  have hread : read arguments = .ok (.run options) := by decide +kernel
  have hconfigured : options.Configured files loaded :=
    ⟨encodeUtf8 given, given, rfl, decodeUtf8_encodeUtf8 given, by decide +kernel⟩
  have hinputs : options.Inputs files ByteArray.empty css :=
    ⟨encodeUtf8 css, decodeUtf8_encodeUtf8 css, rfl⟩
  have hwritable : files.Writable "in.css".toList "in.css".toList := ⟨rfl, by decide⟩
  obtain ⟨report, after, houtcome, -, hdelivered⟩ := outcome_of_run hread files ByteArray.empty
  have hprocessed : process ⟨true, Binary64.ofNat 320, Binary64.ofNat 1280, Binary64.ofNat 18⟩ css =
      ⟨"a\x7bb:clamp(1rem,calc(10.66667px + 1.66667vw),2rem) clamp(1px,18px,2px)\x7d".toList,
        [⟨['b'], ⟨1, 3⟩, .equalWidths (Binary64.ofNat 9) (Binary64.ofNat 9) (Binary64.ofNat 18)⟩]⟩ := by
    decide +kernel
  have hresult := hdelivered loaded css hconfigured hinputs
  simp only [options, loaded, Bool.or_true, Option.getD_some, hprocessed] at hresult
  have hwritten := hresult.written _ _ rfl hwritable
  refine ⟨report, after, houtcome, hwritten.exitCode, hwritten.output, ?_, hwritten.read⟩
  rw [hresult.messages hwritten.exitCode]
  decide +kernel

end CommandLine

end FluidSizing
