import Lox.Cli.Run
import Lox.Proofs.Files
import Lox.Proofs.Image

/-!
# Building a program and running what was built

A program can be run from its source, or it can be built first and run from its image. The two come
to the same. If the source has errors, both ways end in the same complaint and no file is touched.
Otherwise building writes the image and does nothing else, and running the image shows what running
the source would have shown: the same output, log and exit status.

Four facts are put together here. The arguments that choose the settings are read in the same way
whatever follows them (`Flags.parseFrom_append`). Writing the image leaves the source and the
settings as they were (`Flags.settings_write`). The image holds the chunk that was compiled
(`load_save_of_le`). And a run shows nothing of where its chunk came from, as long as the log does
not list the code (`Work.outcome_runChunk`).
-/

namespace Lox

open Directory (components)

namespace Cli

/-! ## Arguments -/

namespace Flags

variable {fs fs' : Flags} {files files' arguments : List String} {file img : String}

/-- Arguments that were read without an end of the flags are read in the same way when others
follow them. -/
theorem parseFrom_append (h : parseFrom fs files arguments = .ok (fs', files'.reverse))
    (hopen : "--" ∉ arguments) (rest : List String) :
    parseFrom fs files (arguments ++ rest) = parseFrom fs' files' rest := by
  fun_induction parseFrom fs files arguments with
  | case1 fs files =>
    simp only [Except.ok.injEq, Prod.mk.injEq, List.reverse_inj] at h
    rw [h.1, h.2, List.nil_append]
  | case2 fs files rest' hstep => simp at hopen
  | case3 fs files argument more hstep hne ih =>
    rw [List.mem_cons, not_or] at hopen
    rw [List.cons_append, parseFrom, hstep]
    simp only [if_neg hne]
    exact ih h hopen.2
  | case4 => cases h
  | case5 fs files argument more fs₁ hstep ih =>
    rw [List.mem_cons, not_or] at hopen
    rw [List.cons_append, parseFrom, hstep]
    exact ih h hopen.2
  | case6 => cases h
  | case7 => cases h
  | case8 fs files argument fs₁ f orElse hstep value more fs₂ hset ih =>
    rw [List.mem_cons, not_or, List.mem_cons, not_or] at hopen
    rw [List.cons_append, List.cons_append, parseFrom, hstep]
    simp only [hset]
    exact ih h hopen.2.2

/-- An argument that does not begin with a hyphen is not a flag. -/
theorem step?_eq_none (h : file.toList.head? ≠ some '-') : fs.step? file = none := by
  unfold step?
  split
  · rename_i heq
    simp [heq] at h
  · rename_i heq
    simp [heq] at h
  · rfl

/-- Such an argument, as the last one, is a file. -/
theorem parseFrom_file (h : file.toList.head? ≠ some '-') :
    parseFrom fs files [file] = .ok (fs, (file :: files).reverse) := by
  have hne : file ≠ "--" := by
    rintro rfl
    exact h rfl
  rw [parseFrom, step?_eq_none h]
  simp only [if_neg hne]
  rfl

/-- Arguments that choose settings and nothing else. -/
structure Choose (arguments : List String) (fs : Flags) : Prop where
  /-- They are accepted, and no file is among them. -/
  parse : Flags.parse arguments = .ok (fs, [])
  /-- They do not end the flags. -/
  unended : "--" ∉ arguments
  emit : fs.emit = ""
  image : fs.image = false
  disassemble : fs.disassemble = false
  help : fs.help = false

namespace Choose

/-- The arguments that follow a choice are read from the flags chosen. -/
theorem parse_append (h : Choose arguments fs) (rest : List String) :
    Flags.parse (arguments ++ rest) = parseFrom fs [] rest := by
  unfold Flags.parse
  apply parseFrom_append _ h.unended
  exact h.parse

/-- A file may follow the choice. -/
theorem parse_file (h : Choose arguments fs) (hfile : file.toList.head? ≠ some '-') :
    Flags.parse (arguments ++ [file]) = .ok (fs, [file]) := by
  rw [h.parse_append, parseFrom_file hfile]
  rfl

/-- The path of an image to be written, and a file, may follow the choice. -/
theorem parse_emit (h : Choose arguments fs) (hfile : file.toList.head? ≠ some '-')
    (img : String) :
    Flags.parse (arguments ++ ["-o", img, file]) = .ok ({ fs with emit := img }, [file]) := by
  rw [h.parse_append]
  show parseFrom { fs with emit := img } [] [file] = _
  exact parseFrom_file hfile

/-- An image to be run may follow the choice. -/
theorem parse_image (h : Choose arguments fs) (himg : img.toList.head? ≠ some '-') :
    Flags.parse (arguments ++ ["--image", img]) = .ok ({ fs with image := true }, [img]) := by
  rw [h.parse_append]
  show parseFrom { fs with image := true } [] [img] = _
  exact parseFrom_file himg

end Choose

end Flags

end Cli

/-! ## Settings -/

variable {d d' : Directory} {img : String} {b : Bytes} {s : Settings}

/-- The settings are not affected by writing a file other than the one they come from. -/
theorem Settings.load_write {path : String} (h : d.write img b = .ok d')
    (hne : components img ≠ components (placeOf path)) (hload : load d path = .ok s) :
    load d' path = .ok s := by
  have hread : d'.read (placeOf path) = d.read (placeOf path) := by
    cases hread : d.read (placeOf path) with
    | ok content => exact Directory.read_write_of_read h hread hne.symm
    | error fault =>
      -- the settings were found without a file, so there is none at the default path
      simp only [load, hread] at hload
      split at hload
      · rename_i hdefault
        have hempty : path.isEmpty = true := by simp_all
        have hplace : components (placeOf path) = ["loxide.toml"] := by
          simp only [placeOf, hempty, if_true]
          rfl
        rw [hplace] at hne
        rw [Directory.read_write_of_apart h, hread]
        intro hway
        obtain ⟨⟨-, -, hroom⟩, -⟩ := Directory.write_eq_ok_iff.mp h
        rw [hplace, List.prefix_cons_iff] at hway
        obtain hnil | ⟨rest, heq, hrest⟩ := hway
        · exact hroom.ne_nil hnil
        · rw [List.prefix_nil.mp hrest] at heq
          exact hne heq
      · cases hload
  rw [← hload]
  simp only [load, hread]

namespace Cli

/-- The settings under some flags are not affected by writing a file other than the one they come
from. -/
theorem Flags.settings_write {fs : Flags} (h : d.write img b = .ok d')
    (hne : components img ≠ components (Settings.placeOf fs.config))
    (hsettings : fs.settings d = .ok s) : fs.settings d' = .ok s := by
  cases hload : Settings.load d fs.config with
  | error e => simp [settings, hload] at hsettings
  | ok s' =>
    rw [← hsettings]
    simp only [settings, hload, Settings.load_write h hne hload]

/-! ## The work on a file -/

variable {fs : Flags} {path : String} {source : Bytes} {c : Chunk} {ds : List Diagnostic}

/-- With a file, the outcome of the command is that of the work on the file. -/
theorem run_of_file {arguments : List String} (hparse : Flags.parse arguments = .ok (fs, [path]))
    (hhelp : fs.help = false) (hsettings : fs.settings d = .ok s) (input : Bytes) :
    run arguments d input =
      ({ directory := d : Work }.onFile fs s path).outcome (verbosityOf s) := by
  simp [run, plan, hparse, hhelp, dispatch, hsettings]

namespace Work

variable {w : Work} {o : Machine.Options} {verbosity : Log.Level}

/-- A source with errors is not run, and not written either. -/
theorem onFile_of_error (himage : fs.image = false) (hread : w.directory.read path = .ok source)
    (hcompile : compile source = .error ds) : w.onFile fs s path =
      (w.logged [(Compilation.ofSource source).listingEntry]).fail (.ofDiagnostics ds) := by
  unfold compile at hcompile
  simp [onFile, hread, himage, hcompile]

/-- A source without errors is logged, and then run or written. -/
theorem onFile_of_compile (himage : fs.image = false) (hdisassemble : fs.disassemble = false)
    (hread : w.directory.read path = .ok source) (hcompile : compile source = .ok c) :
    w.onFile fs s path =
      let w := w.logged [(Compilation.ofSource source).listingEntry]
      if fs.emit.isEmpty then w.runChunk (machineOptions s) c else w.writeImage c fs.emit := by
  unfold compile at hcompile
  simp [onFile, hread, himage, hcompile, withChunk, hdisassemble]

/-- An image is run as the chunk that it holds. -/
theorem onFile_of_load (himage : fs.image = true) (hdisassemble : fs.disassemble = false)
    (hemit : fs.emit = "") (hread : w.directory.read path = .ok source)
    (hload : Chunk.load source = .ok c) :
    w.onFile fs s path = w.runChunk (machineOptions s) c := by
  simp [onFile, hread, himage, hload, withChunk, hdisassemble, hemit]

/-- Entries of the log that are not shown, and the directory, make no difference to what is seen of
a run. -/
theorem outcome_runChunk {w w' : Work} (hfailure : w.failure = w'.failure)
    (houtput : w.output = w'.output)
    (hlog : Log.shown verbosity w.log = Log.shown verbosity w'.log) :
    (w.runChunk o c).outcome verbosity =
      { (w'.runChunk o c).outcome verbosity with directory := w.directory } := by
  have hshown : ∀ es, Log.shown verbosity (w.log ++ es) = Log.shown verbosity (w'.log ++ es) := by
    intro es
    simp only [Log.shown, List.filter_append] at hlog ⊢
    rw [hlog]
  cases hresult : (Interpretation.ofCall o ({} : Console) (.run (some c))).result with
  | ok v =>
    cases hw : w'.failure with
    | none => simp [runChunk, hresult, outcome, printed, logged, hfailure, hw, houtput, hshown]
    | some f => simp [runChunk, hresult, outcome, printed, logged, hfailure, hw, houtput, hshown]
  | error f => simp [runChunk, hresult, outcome, printed, logged, fail, houtput, hshown]

/-- Work that fails logs the failure last and has its exit status. -/
theorem outcome_fail (f : Failure) : (w.fail f).outcome verbosity =
    ⟨f.exitStatus, w.output, Log.shown verbosity (w.log ++ [⟨.error, f.text⟩]), w.directory⟩ :=
  rfl

/-- Work that writes an image succeeds, with one more entry in the log and the image in the
directory. -/
theorem outcome_writeImage (hfailure : w.failure = none)
    (hwrite : w.directory.write img c.save = .ok d') : ∃ entry,
      (w.writeImage c img).outcome verbosity =
        ⟨0, w.output, Log.shown verbosity (w.log ++ [entry]), d'⟩ := by
  simp only [writeImage, hwrite, outcome, logged, hfailure]
  exact ⟨_, rfl⟩

/-- Running a chunk changes no file. -/
theorem directory_runChunk : (w.runChunk o c).directory = w.directory := by
  unfold runChunk
  dsimp only
  split <;> rfl

/-- The outcome of some work has the directory that the work left. -/
theorem directory_outcome : (w.outcome verbosity).directory = w.directory := by
  unfold outcome
  dsimp only
  split <;> rfl

end Work

/-! ## Building -/

/-- Errors in the source have an exit status of their own. -/
theorem exitStatus_ofDiagnostics (h : ds ≠ []) : (Failure.ofDiagnostics ds).exitStatus = 65 := by
  obtain ⟨x, xs, rfl⟩ := List.exists_cons_of_ne_nil h
  have hcauses : (Failure.ofDiagnostics (x :: xs)).causes.contains .source = true := by
    simp [Failure.ofDiagnostics, Failure.causes, Failure.causesOfAll]
  simp only [Failure.exitStatus, Failure.statuses, List.find?_cons, hcauses]

/-- A source that is not compiled has at least one error. -/
theorem ne_nil_of_compile (h : compile source = .error ds) : ds ≠ [] := by
  rw [compile_eq] at h
  split at h
  · cases h
  · rename_i hne
    cases h
    simpa using hne

/-- A place to build a program in, under some flags. -/
structure Site (d : Directory) (fs : Flags) (s : Settings) (file img : String)
    (source : Bytes) : Prop where
  settings : fs.settings d = .ok s
  /-- The log does not show listings of the code. -/
  quiet : (verbosityOf s).shows .debug = false
  read_file : d.read file = .ok source
  writable : ∃ b d', d.write img b = .ok d'
  file_dash : file.toList.head? ≠ some '-'
  img_dash : img.toList.head? ≠ some '-'
  /-- The image does not take the place of the source, or of the settings. -/
  ne_file : components img ≠ components file
  ne_settings : components img ≠ components (Settings.placeOf fs.config)

namespace Site

variable {arguments : List String} {file : String}

/-- At such a place the log does not show the listing of the code. -/
theorem shown_listingEntry (h : Site d fs s file img source) (x : Compilation) :
    Log.shown (verbosityOf s) [x.listingEntry] = [] := by
  simp [Log.shown, Compilation.listingEntry, h.quiet]

/-- Writing the image leaves the rest of the place as it was. -/
theorem write (h : Site d fs s file img source) (hwrite : d.write img b = .ok d') :
    Site d' fs s file img source where
  settings := Flags.settings_write hwrite h.ne_settings h.settings
  quiet := h.quiet
  read_file := Directory.read_write_of_read hwrite h.read_file h.ne_file.symm
  writable := ⟨b, Directory.exists_write_again hwrite b⟩
  file_dash := h.file_dash
  img_dash := h.img_dash
  ne_file := h.ne_file
  ne_settings := h.ne_settings

/-- Running the source comes to running its chunk, after an entry of the log that is not shown. -/
theorem run_source (h : Site d fs s file img source) (hchoose : Flags.Choose arguments fs)
    (hcompile : compile source = .ok c) (input : Bytes) :
    run (arguments ++ [file]) d input =
      (({ directory := d : Work }.logged [(Compilation.ofSource source).listingEntry]).runChunk
        (machineOptions s) c).outcome (verbosityOf s) := by
  rw [run_of_file (hchoose.parse_file h.file_dash) hchoose.help h.settings,
    Work.onFile_of_compile hchoose.image hchoose.disassemble h.read_file hcompile]
  simp [hchoose.emit]

/-- Running an image comes to running its chunk. -/
theorem run_image (h : Site d fs s file img source) (hchoose : Flags.Choose arguments fs)
    (hread : d.read img = .ok b) (hload : Chunk.load b = .ok c) (input : Bytes) :
    run (arguments ++ ["--image", img]) d input =
      ({ directory := d : Work }.runChunk (machineOptions s) c).outcome (verbosityOf s) := by
  have hsettings : { fs with image := true }.settings d = .ok s := h.settings
  have hdisassemble : { fs with image := true }.disassemble = false := hchoose.disassemble
  have hemit : { fs with image := true }.emit = "" := hchoose.emit
  rw [run_of_file (hchoose.parse_image h.img_dash) hchoose.help hsettings,
    Work.onFile_of_load rfl hdisassemble hemit hread hload]

/-- The outcome of running the source, whether or not its image has been written. -/
theorem run_source_eq (h : Site d fs s file img source) (h' : Site d' fs s file img source)
    (hchoose : Flags.Choose arguments fs) (hcompile : compile source = .ok c)
    (input input' : Bytes) : run (arguments ++ [file]) d' input' =
      { run (arguments ++ [file]) d input with directory := d' } := by
  rw [h.run_source hchoose hcompile, h'.run_source hchoose hcompile]
  exact Work.outcome_runChunk rfl rfl rfl

/-- An image that holds the chunk of the source is run as the source is. -/
theorem run_image_eq (h : Site d fs s file img source) (h' : Site d' fs s file img source)
    (hchoose : Flags.Choose arguments fs) (hcompile : compile source = .ok c)
    (hread : d'.read img = .ok b) (hload : Chunk.load b = .ok c) (input input' : Bytes) :
    run (arguments ++ ["--image", img]) d' input' =
      { run (arguments ++ [file]) d input with directory := d' } := by
  rw [h.run_source hchoose hcompile, h'.run_image hchoose hread hload]
  apply Work.outcome_runChunk
  · rfl
  · rfl
  · exact (h.shown_listingEntry _).symm

/-- Building writes the image of the chunk, and logs that it did. -/
theorem run_emit (h : Site d fs s file img source) (hchoose : Flags.Choose arguments fs)
    (hcompile : compile source = .ok c) (hwrite : d.write img c.save = .ok d') (input : Bytes) :
    ∃ log, run (arguments ++ ["-o", img, file]) d input = ⟨0, [], log, d'⟩ := by
  have hsettings : { fs with emit := img }.settings d = .ok s := h.settings
  have himage : { fs with emit := img }.image = false := hchoose.image
  have hnamed : img.isEmpty = false := (Directory.write_eq_ok_iff.mp hwrite).1.1
  rw [run_of_file (hchoose.parse_emit h.file_dash img) hchoose.help hsettings,
    Work.onFile_of_compile himage hchoose.disassemble h.read_file hcompile]
  simp only [hnamed]
  obtain ⟨entry, houtcome⟩ := Work.outcome_writeImage
    (w := { directory := d : Work }.logged [(Compilation.ofSource source).listingEntry]) rfl hwrite
  exact ⟨_, houtcome⟩

/-- A source with errors is reported in the same way, whether it is to be run or to be built. -/
theorem run_of_error (h : Site d fs s file img source) (hchoose : Flags.Choose arguments fs)
    (hcompile : compile source = .error ds) (input : Bytes) :
    ∃ log, run (arguments ++ [file]) d input = ⟨65, [], log, d⟩ ∧
      run (arguments ++ ["-o", img, file]) d input = ⟨65, [], log, d⟩ := by
  have hsettings : { fs with emit := img }.settings d = .ok s := h.settings
  have himage : { fs with emit := img }.image = false := hchoose.image
  have hstatus := exitStatus_ofDiagnostics (ne_nil_of_compile hcompile)
  rw [run_of_file (hchoose.parse_file h.file_dash) hchoose.help h.settings,
    run_of_file (hchoose.parse_emit h.file_dash img) hchoose.help hsettings,
    Work.onFile_of_error hchoose.image h.read_file hcompile,
    Work.onFile_of_error himage h.read_file hcompile]
  rw [Work.outcome_fail, hstatus]
  exact ⟨_, rfl, rfl⟩

end Site

/-- Building an image and running it is the same as running the source. Let some arguments choose
the settings, let the source be in a file, and let there be room for the image elsewhere. If the
source has errors, running it and building it end in the same way, and the directory stays as it is.
Otherwise building prints nothing and changes the directory at the path of the image alone; running
the image afterwards has the output, the log and the exit status that running the source has, before
the image was written or after. The code of the program may have as many bytes as an array in an
image may have elements, and the source is not so long that a line number or the length of a text
would not fit into a word of the image. -/
theorem run_image_eq_run_source {arguments : List String} {file : String}
    (hchoose : Flags.Choose arguments fs) (hsite : Site d fs s file img source)
    (hlength : source.length < Nat.pow 2 60)
    (hsize : ∀ c, compile source = .ok c → c.size ≤ Cbor.maxElements) (input input' : Bytes) :
    (∀ ds, compile source = .error ds → ∃ log,
      run (arguments ++ [file]) d input = ⟨65, [], log, d⟩ ∧
      run (arguments ++ ["-o", img, file]) d input = ⟨65, [], log, d⟩) ∧
    ∀ c, compile source = .ok c → ∃ log d',
      run (arguments ++ ["-o", img, file]) d input = ⟨0, [], log, d'⟩ ∧
      (∀ parts, parts ≠ components img → d'.kind? parts = d.kind? parts) ∧
      (run (arguments ++ [file]) d input).directory = d ∧
      run (arguments ++ ["--image", img]) d' input' =
        { run (arguments ++ [file]) d input with directory := d' } ∧
      run (arguments ++ [file]) d' input' =
        { run (arguments ++ [file]) d input with directory := d' } := by
  refine ⟨fun ds herror => hsite.run_of_error hchoose herror input, ?_⟩
  intro c hcompile
  obtain ⟨b, d₀, hwritable⟩ := hsite.writable
  obtain ⟨d', hwrite⟩ := Directory.exists_write_of_write hwritable c.save
  obtain ⟨log, hemit⟩ := hsite.run_emit hchoose hcompile hwrite input
  have hafter := hsite.write hwrite
  have hread := Directory.read_write hwrite
  have hload := load_save_of_le hcompile hlength (hsize c hcompile)
  obtain ⟨⟨-, -, hroom⟩, rfl⟩ := Directory.write_eq_ok_iff.mp hwrite
  refine ⟨log, _, hemit, fun parts hne => hroom.kind?_put_of_ne hne, ?_,
    hsite.run_image_eq hafter hchoose hcompile hread hload input input',
    hsite.run_source_eq hafter hchoose hcompile input input'⟩
  rw [hsite.run_source hchoose hcompile, Work.directory_outcome, Work.directory_runChunk]
  rfl

/-- A program that prints a number and then divides by zero. -/
def dividing : Bytes :=
  Utf8.ofString "print 6 / 2;\n1 / 0;"

/-- A directory with the program, a file of settings, and a folder for images. -/
def workplace : Directory where
  entries :=
    [(["loxide.toml"], .file (Utf8.ofString "verbosity = \"error\"\n")),
      (["div.lox"], .file dividing), (["bin"], .folder)]

/-- The flags that ask for a stack of two values and for strict division. -/
def strictFlags : Flags where
  strictDivision := some true
  stackMax := some 2

/-- These flags choose settings and nothing else. -/
theorem choose_strictFlags : Flags.Choose ["--strict-div", "--stack-max=2"] strictFlags :=
  ⟨rfl, by decide, rfl, rfl, rfl, rfl⟩

/-- The directory is a place to build the program in, under these flags. -/
theorem site_workplace :
    ∃ s, Site workplace strictFlags s "div.lox" "bin/div.img" dividing := by
  have hsettings : (strictFlags.settings workplace).toOption =
      some { verbosity := "error", stackMax := 2, strictDivision := true,
             origin := "loxide.toml" } := by decide +kernel
  cases h : strictFlags.settings workplace with
  | error e =>
    rw [h] at hsettings
    cases hsettings
  | ok s =>
    rw [h] at hsettings
    cases hsettings
    exact ⟨_, h, by decide, rfl, ⟨[], _, rfl⟩, by decide, by decide, by decide, by decide⟩

/-- The program, built for a stack of two values and strict division, fails from its image as it
does from its source. -/
theorem run_image_eq_run_source_workplace :
    (run ["--strict-div", "--stack-max=2", "div.lox"] workplace []).status = 70 ∧
    ∃ log d', run ["--strict-div", "--stack-max=2", "-o", "bin/div.img", "div.lox"] workplace [] =
        ⟨0, [], log, d'⟩ ∧
      run ["--strict-div", "--stack-max=2", "--image", "bin/div.img"] d' [] =
        { run ["--strict-div", "--stack-max=2", "div.lox"] workplace [] with directory := d' } := by
  refine ⟨by decide +kernel, ?_⟩
  obtain ⟨s, hsite⟩ := site_workplace
  have hcompile : compile dividing = .ok (Compilation.ofSource dividing).chunk := by
    rw [compile_eq, if_pos (by decide +kernel)]
  have hsize : ∀ c, compile dividing = .ok c → c.size ≤ Cbor.maxElements := by
    intro c hc
    rw [hcompile] at hc
    cases hc
    decide +kernel
  obtain ⟨log, d', hemit, -, -, himage, -⟩ :=
    (run_image_eq_run_source choose_strictFlags hsite (by decide) hsize [] []).2 _ hcompile
  exact ⟨log, d', hemit, himage⟩

end Cli

end Lox
