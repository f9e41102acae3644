import Beethoven.Cli.Template

/-!
# Scaffolding a project

The commands `new` and `init` write the template of a project into a new directory or into the
working directory (`cli/src/commands/new.rs`, `init.rs`, `scaffold.rs`). The template is a tree of
directories and files that is walked in order (`cli/src/template.rs`); the placeholders are replaced
in the names and, in files that end with `.tmpl`, in the contents. A file that exists stops the
walk.

The walk never changes what was there, but what it has written before it stops stays. The name of
the accelerator is substituted in names of files unchecked, and a file goes to wherever the path
leads then. A name that does not lead upwards as a path keeps the files in the destination
(`scaffold_stays_inside`).
-/

namespace Beethoven.Cli

open Lib

/-! ### The embedded templates -/

/-- An entry of an embedded directory, with its path from the root of the template. -/
inductive Entry (C : Type*)
  | dir (path : Text) (entries : List (Entry C))
  | file (path : Text) (contents : C)

/-- A file whose contents are given by its path. -/
def Entry.of {C : Type*} (contents : Text → C) (path : String) : Entry C :=
  .file path.toList (contents path.toList)

/-- `Flavor::tree`, for the contents of the files. Siblings stand in the order in which
`include_dir` embeds them, by their names. -/
def Flavor.tree {C : Type*} (contents : Flavor → Text → C) (flavor : Flavor) : List (Entry C) :=
  let of := Entry.of (contents flavor)
  match flavor with
  | .chisel =>
    [of ".gitignore", of ".scalafmt.conf", of "Beethoven.toml.tmpl", of "build.sbt.tmpl",
      .dir "hw".toList
        [of "hw/\x7b\x7baccel\x7d\x7d.scala.tmpl", of "hw/\x7b\x7baccel\x7d\x7dConfig.scala.tmpl",
          of "hw/\x7b\x7baccel\x7d\x7dCore.scala.tmpl"],
      .dir "sw".toList
        [of "sw/CMakeLists.txt.tmpl", of "sw/\x7b\x7bname_snake\x7d\x7d_tb.cc.tmpl"]]
  | .verilog =>
    [of ".gitignore", of ".scalafmt.conf", of "Beethoven.toml.tmpl", of "build.sbt.tmpl",
      .dir "hw".toList
        [of "hw/\x7b\x7baccel\x7d\x7dCmd.scala.tmpl",
          of "hw/\x7b\x7baccel\x7d\x7dConfig.scala.tmpl",
          of "hw/\x7b\x7baccel\x7d\x7dCore.v.tmpl"],
      .dir "sw".toList
        [of "sw/CMakeLists.txt.tmpl", of "sw/\x7b\x7bname_snake\x7d\x7d_tb.cc.tmpl"]]

/-! ### Extracting a template -/

section Extract

variable {C : Type*} (env : Env C) (vars : Vars)

/-- The suffix of files in which the placeholders are replaced. -/
def tmplSuffix : Text := ".tmpl".toList

/-- Where a file goes whose name has been substituted: without the suffix. -/
def fileDestination (dest name : Text) : Text :=
  joinPath dest (if tmplSuffix <:+ name then name.take (name.length - tmplSuffix.length) else name)

/-- What is written for a file of the template; nothing if it should be text and is not. -/
def rendered (name : Text) (contents : C) : Option C :=
  if tmplSuffix <:+ name then
    (env.decode contents).map fun body => env.encode (vars.substitute body)
  else some contents

/-- `extract_dir`, for a file. The text of the error in the contents is left out. -/
def extractFile (dest path : Text) (contents : C) (disk : Disk C) :
    Except CliError Unit × Disk C :=
  match fileName path with
  | none => (.error (.config ("template file without a name: ".toList ++ path)), disk)
  | some rawName =>
    let name := vars.substitute rawName
    let dst := fileDestination dest name
    if pathExists disk env.cwd dst then
      (.error (.config ("destination file already exists: ".toList ++ dst)), disk)
    else
      match rendered env vars name contents with
      | none => (.error (.config ("non-UTF8 .tmpl file ".toList ++ path)), disk)
      | some body =>
        orConfig (fun e => "cannot write ".toList ++ dst ++ ": ".toList ++ e)
          (writeFile env.faults disk env.cwd dst body)

/-- Create a directory and those that lead to it. -/
def makeDir (dst : Text) (disk : Disk C) : Except CliError Unit × Disk C :=
  orConfig (fun e => "cannot create ".toList ++ dst ++ ": ".toList ++ e)
    (createDirAll env.faults env.cwd (pathComponents dst).reverse disk)

mutual

/-- The body of the loop of `extract_dir`. -/
def extractEntry (dest : Text) : Entry C → Disk C → Except CliError Unit × Disk C
  | .file path contents, disk => extractFile env vars dest path contents disk
  | .dir path entries, disk =>
    match fileName path with
    | none => (.error (.config ("template dir without a name: ".toList ++ path)), disk)
    | some rawName =>
      let dst := joinPath dest (vars.substitute rawName)
      andThen (makeDir env dst disk) (extractDir dst entries)

/-- `extract_dir`. -/
def extractDir (dest : Text) : List (Entry C) → Disk C → Except CliError Unit × Disk C
  | [], disk => (.ok (), disk)
  | entry :: entries, disk => andThen (extractEntry dest entry disk) (extractDir dest entries)

end

/-- `extract_to`. -/
def extractTo (contents : Flavor → Text → C) (dest : Text) (flavor : Flavor) (disk : Disk C) :
    Except CliError Unit × Disk C :=
  andThen (makeDir env dest disk) (extractDir env vars dest (flavor.tree contents))

end Extract

/-! ### The commands -/

/-- `Platform`. -/
inductive Platform
  | defaultTarget
  | kria
  | kria2
  | aupzu3
  | awsF1
  | awsF2
  | u200
  | u250
  | u280
  | baremetal
  deriving DecidableEq, Repr

/-- `Platform::target_name`. -/
def Platform.targetName : Platform → Text
  | defaultTarget => "default".toList
  | kria => "kria".toList
  | kria2 => "kria2".toList
  | aupzu3 => "aupzu3".toList
  | awsF1 => "aws-f1".toList
  | awsF2 => "aws-f2".toList
  | u200 => "u200".toList
  | u250 => "u250".toList
  | u280 => "u280".toList
  | baremetal => "baremetal".toList

/-- `resolve_target`. -/
def resolveTarget (platform : Option Platform) (cfg : UserConfig) : Text :=
  match platform, cfg.defaultPlatform with
  | some p, _ => p.targetName
  | none, some p => p
  | none, none => "default".toList

/-- `hardware_coords_from_cfg`. -/
def hardwareCoordsFromCfg (cfg : UserConfig) : Option HardwareCoords :=
  match cfg.hardwareOrganization, cfg.hardwareArtifact, cfg.hardwareVersion with
  | some organization, some artifact, some version => some ⟨organization, artifact, version⟩
  | _, _, _ => none

/-- What `new` and `init` are given besides the name. -/
structure ScaffoldArgs where
  platform : Option Platform
  accel : Option Text
  verilog : Bool
  deriving DecidableEq, Repr

/-- The template that is chosen. -/
def ScaffoldArgs.flavor (args : ScaffoldArgs) : Flavor := if args.verilog then .verilog else .chisel

section Commands

variable {C : Type*} (env : Env C) (contents : Flavor → Text → C) (args : ScaffoldArgs)

/-- The variables of `scaffold::run`, after the name has been checked and the configuration has been
read. -/
def Scaffold.vars (name : Text) (disk : Disk C) : Except CliError Vars :=
  match validateProjectName name, UserConfig.load env disk with
  | .error e, _ => .error e
  | .ok (), .error e => .error e
  | .ok (), .ok cfg =>
    .ok (Vars.new name args.accel (resolveTarget args.platform cfg) (hardwareCoordsFromCfg cfg)
      args.flavor)

/-- `scaffold::run`, without the repository that is initialized behind the extraction. -/
def Scaffold.run (name dest : Text) (disk : Disk C) : Except CliError Unit × Disk C :=
  match Scaffold.vars env args name disk with
  | .error e => (.error e, disk)
  | .ok vars => extractTo env vars contents dest args.flavor disk

/-- `new::run`. -/
def New.run (name : Text) (disk : Disk C) : Except CliError Unit × Disk C :=
  match validateProjectName name, env.currentDir disk with
  | .error e, _ => (.error e, disk)
  | .ok (), .error e => (.error e, disk)
  | .ok (), .ok cwd =>
    let dest := joinPath cwd name
    if pathExists disk env.cwd dest then
      (.error (.config ("destination already exists: ".toList ++ dest)), disk)
    else Scaffold.run env contents args name dest disk

/-- `init::run`. -/
def Init.run (disk : Disk C) : Except CliError Unit × Disk C :=
  match env.currentDir disk with
  | .error e => (.error e, disk)
  | .ok dest =>
    match fileName dest with
    | none => (.error (.config ("cwd has no usable basename: ".toList ++ dest)), disk)
    | some name =>
      match validateProjectName name with
      | .error e => (.error e, disk)
      | .ok () =>
        if pathExists disk env.cwd (joinPath dest "Beethoven.toml".toList) then
          (.error (.config "Beethoven.toml already exists in this directory".toList), disk)
        else Scaffold.run env contents args name dest disk

end Commands

/-! ### What is created -/

/-- What a walk through a template creates. -/
inductive Creation
  | dir (path : Text)
  | file (path : Text)
  deriving DecidableEq, Repr

/-- The places at which something may appear: the directories on the way to a directory, or the
file. -/
def Creation.Makes (cwd : List Text) : Creation → List Text → Prop
  | dir path, p => OnTheWay cwd (pathComponents path) p
  | file path, p => p = place cwd path

section Creations

variable {C : Type*} (vars : Vars)

mutual

/-- What an entry creates, in the order of the walk. -/
def Entry.creations (dest : Text) : Entry C → List Creation
  | .file path _ =>
    match fileName path with
    | none => []
    | some rawName => [.file (fileDestination dest (vars.substitute rawName))]
  | .dir path entries =>
    match fileName path with
    | none => []
    | some rawName =>
      .dir (joinPath dest (vars.substitute rawName)) ::
        creations (joinPath dest (vars.substitute rawName)) entries

/-- What the entries of a directory create, in the order of the walk. -/
def creations (dest : Text) : List (Entry C) → List Creation
  | [] => []
  | entry :: entries => entry.creations dest ++ creations dest entries

end

variable {vars} (env : Env C)

/-- Something is created at the place. -/
def Creates (cwd : List Text) (cs : List Creation) (p : List Text) : Prop := ∃ c ∈ cs, c.Makes cwd p

theorem Creates.append_left {cwd : List Text} {cs : List Creation} (cs' : List Creation)
    (p : List Text) (h : Creates cwd cs p) : Creates cwd (cs ++ cs') p :=
  h.imp fun _ hc => ⟨List.mem_append_left cs' hc.1, hc.2⟩

theorem Creates.append_right {cwd : List Text} (cs : List Creation) {cs' : List Creation}
    (p : List Text) (h : Creates cwd cs' p) : Creates cwd (cs ++ cs') p :=
  h.imp fun _ hc => ⟨List.mem_append_right cs hc.1, hc.2⟩

theorem adds_makeDir (dst : Text) (disk : Disk C) :
    FileTree.Adds (Creates env.cwd [.dir dst]) disk (makeDir env dst disk).2 := by
  have hadds : FileTree.Adds (OnTheWay env.cwd (pathComponents dst).reverse.reverse) disk
      (createDirAll env.faults env.cwd (pathComponents dst).reverse disk).2 :=
    adds_createDirAll env.faults _ disk
  rw [List.reverse_reverse] at hadds
  rw [makeDir, orConfig_snd]
  exact hadds.mono fun p hp => ⟨_, List.mem_singleton_self _, hp⟩

theorem adds_extractFile (dest path : Text) (contents : C) (disk : Disk C) :
    FileTree.Adds (Creates env.cwd ((Entry.file path contents).creations vars dest)) disk
      (extractFile env vars dest path contents disk).2 := by
  rw [extractFile, Entry.creations]
  split
  next => exact FileTree.Adds.refl disk
  next rawName _ =>
    simp only
    split_ifs with hexists
    · exact FileTree.Adds.refl disk
    · split
      · exact FileTree.Adds.refl disk
      · rw [orConfig_snd]
        exact (adds_writeFile env.faults (Bool.eq_false_iff.mpr hexists) _).mono
          fun p hp => ⟨_, List.mem_singleton_self _, hp⟩

mutual

theorem adds_extractEntry (dest : Text) (entry : Entry C) (disk : Disk C) :
    FileTree.Adds (Creates env.cwd (entry.creations vars dest)) disk
      (extractEntry env vars dest entry disk).2 := by
  match entry with
  | .file path contents =>
    rw [extractEntry]
    exact adds_extractFile env dest path contents disk
  | .dir path entries =>
    rw [extractEntry, Entry.creations]
    split
    next => exact FileTree.Adds.refl disk
    next =>
      exact adds_andThen ((adds_makeDir env _ disk).mono (Creates.append_left _))
        fun disk => (adds_extractDir _ entries disk).mono (Creates.append_right [_])

theorem adds_extractDir (dest : Text) (entries : List (Entry C)) (disk : Disk C) :
    FileTree.Adds (Creates env.cwd (creations vars dest entries)) disk
      (extractDir env vars dest entries disk).2 := by
  match entries with
  | [] =>
    rw [extractDir]
    exact FileTree.Adds.refl disk
  | entry :: entries =>
    rw [extractDir, creations]
    exact adds_andThen ((adds_extractEntry dest entry disk).mono (Creates.append_left _))
      fun disk => (adds_extractDir dest entries disk).mono (Creates.append_right _)

end

/-- Extracting a template adds at most the directory and what the template creates in it. -/
theorem adds_extractTo (contents : Flavor → Text → C) (dest : Text) (flavor : Flavor)
    (disk : Disk C) :
    FileTree.Adds (Creates env.cwd (.dir dest :: creations vars dest (flavor.tree contents))) disk
      (extractTo env vars contents dest flavor disk).2 :=
  adds_andThen ((adds_makeDir env dest disk).mono (Creates.append_left _))
    fun disk => (adds_extractDir env dest _ disk).mono (Creates.append_right [_])

end Creations

/-! ### Collisions -/

section Collisions

variable {C : Type*} (env : Env C) (vars : Vars)

/-- The walk has been stopped by a file that exists. -/
def Collides (result : Except CliError Unit) : Prop :=
  ∃ path, result = .error (.config ("destination file already exists: ".toList ++ path))

/-- The first file of both templates. -/
def gitignore : Text := ".gitignore".toList

theorem plain_gitignore : Plain gitignore := by decide

theorem extractTo_eq (contents : Flavor → Text → C) (dest : Text) (flavor : Flavor)
    (disk : Disk C) :
    extractTo env vars contents dest flavor disk = andThen (makeDir env dest disk) fun disk =>
      andThen (extractFile env vars dest gitignore (contents flavor gitignore) disk)
        (extractDir env vars dest (flavor.tree contents).tail) := by
  cases flavor <;> rfl

theorem extractFile_gitignore (dest : Text) (contents : C) (disk : Disk C) :
    extractFile env vars dest gitignore contents disk =
      if pathExists disk env.cwd (joinPath dest gitignore) then
        (.error (.config ("destination file already exists: ".toList ++ joinPath dest gitignore)),
          disk)
      else
        orConfig (fun e => "cannot write ".toList ++ joinPath dest gitignore ++ ": ".toList ++ e)
          (writeFile env.faults disk env.cwd (joinPath dest gitignore) contents) := by
  have hname : fileName gitignore = some gitignore := by decide
  have hsuffix : ¬ tmplSuffix <:+ gitignore := by decide
  simp only [extractFile, hname, vars.substitute_eq_self (by decide : '\x7b' ∉ gitignore),
    fileDestination, rendered, if_neg hsuffix]

theorem not_collides_orConfig {describe : Text → Text}
    (hdescribe : ∀ e, (describe e).head? ≠ some 'd') (result : Except IoError Unit × Disk C) :
    ¬ Collides (orConfig describe result).1 := by
  rintro ⟨path, h⟩
  obtain ⟨e | _, disk⟩ := result
  · have hmsg := CliError.config.inj (Except.error.inj h)
    exact hdescribe (ioErrorText e) (congrArg List.head? hmsg)
  · cases h

theorem not_collides_makeDir (dest : Text) (disk : Disk C) :
    ¬ Collides (makeDir env dest disk).1 :=
  not_collides_orConfig (fun e => by simp) _

/-- If the first file does not exist, it is written or its writing fails. -/
theorem extractFile_gitignore_of_none {destText : Text} {dest : List Text}
    (hdest : Normalized destText dest) {disk : Disk C}
    (hnone : disk.lookup (dest ++ [gitignore]) = none) (contents : C) :
    let result := extractFile env vars destText gitignore contents disk
    ¬ Collides result.1 ∧ (result.1 = .ok () → result.2.lookup (dest ++ [gitignore]) ≠ none) := by
  have hfile := hdest.join plain_gitignore
  have hexists : ¬ pathExists disk env.cwd (joinPath destText gitignore) = true := by
    rwa [hfile.pathExists_iff, not_not]
  intro result
  have hresult : result = _ := extractFile_gitignore env vars destText contents disk
  rw [if_neg hexists] at hresult
  rw [hresult]
  refine ⟨not_collides_orConfig (fun e => by simp) _, fun hok => ?_⟩
  match hwrite : writeFile env.faults disk env.cwd (joinPath destText gitignore) contents with
  | (.error e, disk') =>
    rw [hwrite] at hok
    cases hok
  | (.ok (), disk') =>
    have hlookup := hfile.lookup_writeFile (by simp) hwrite
    rw [orConfig_snd, hlookup]
    simp

theorem makeDir_of_isDir {destText : Text} {dest : List Text} (hdest : Normalized destText dest)
    {disk : Disk C} (hdir : disk.IsDir dest) : makeDir env destText disk = (.ok (), disk) := by
  have hresolve : resolveComponents disk env.cwd (pathComponents destText).reverse.reverse =
      .ok dest := by
    rw [List.reverse_reverse, hdest.pathComponents_eq, resolveComponents_absolute]
    rcases disk.walk_names [] dest with hok | ⟨-, hnone⟩
    · exact hok
    · rw [List.nil_append] at hnone
      rw [FileTree.IsDir, hnone] at hdir
      cases hdir
  rw [makeDir, createDirAll_of_isDir env.faults hresolve hdir]
  rfl

theorem lookup_makeDir {destText : Text} {dest : List Text} (hdest : Normalized destText dest)
    (disk : Disk C) (name : Text) :
    (makeDir env destText disk).2.lookup (dest ++ [name]) = disk.lookup (dest ++ [name]) := by
  refine (adds_makeDir env destText disk (dest ++ [name])).resolve_right ?_
  rintro ⟨-, c, hc, hmakes⟩
  obtain rfl := List.mem_singleton.mp hc
  rw [Creation.Makes, hdest.pathComponents_eq] at hmakes
  have hlen := (prefix_of_onTheWay hmakes).length_le
  rw [List.length_append, List.length_singleton] at hlen
  omega

/-- If the walk is stopped by a file that exists, then the first file exists afterwards: it has been
written, and nothing removes it. -/
theorem lookup_extractTo_of_collides (contents : Flavor → Text → C) (flavor : Flavor)
    {destText : Text} {dest : List Text} (hdest : Normalized destText dest) {disk : Disk C}
    (hnone : disk.lookup (dest ++ [gitignore]) = none)
    (hcollides : Collides (extractTo env vars contents destText flavor disk).1) :
    (extractTo env vars contents destText flavor disk).2.lookup (dest ++ [gitignore]) ≠ none := by
  rw [extractTo_eq] at hcollides ⊢
  have hmake := lookup_makeDir env hdest disk gitignore
  have hcreate := not_collides_makeDir env destText disk
  match hmade : makeDir env destText disk with
  | (.error e, disk') =>
    rw [hmade] at hcreate hcollides
    exact absurd hcollides hcreate
  | (.ok (), disk') =>
    rw [hmade, andThen_ok] at hcollides
    rw [andThen_ok]
    rw [hmade, hnone] at hmake
    obtain ⟨hfirst, hwritten⟩ :=
      extractFile_gitignore_of_none env vars hdest hmake (contents flavor gitignore)
    match hfile : extractFile env vars destText gitignore (contents flavor gitignore) disk' with
    | (.error e, disk'') =>
      rw [hfile] at hfirst hcollides
      exact absurd hcollides hfirst
    | (.ok (), disk'') =>
      rw [hfile] at hwritten
      rw [andThen_ok]
      exact mt (adds_extractDir env destText _ disk'').lookup_eq_none (hwritten rfl)

/-- If a template is extracted and the walk is stopped by a file that exists, then the destination
is as it was before if and only if the first file of the template existed. No outcome changes a file
that was there. -/
theorem extract_all_or_nothing (contents : Flavor → Text → C) (flavor : Flavor) {destText : Text}
    {dest : List Text} (hdest : Normalized destText dest) (disk : Disk C) :
    let result := extractTo env vars contents destText flavor disk
    (Collides result.1 →
      ((∀ p, dest <+: p → result.2.lookup p = disk.lookup p) ↔
        disk.lookup (dest ++ [gitignore]) ≠ none)) ∧
      ∀ p c, disk.lookup p = some (.file c) → result.2.lookup p = some (.file c) := by
  intro result
  refine ⟨fun hcollides => ⟨fun hsame hnone => ?_, fun hexists _ _ => ?_⟩, fun p c hp =>
    (adds_extractTo env contents destText flavor disk).lookup_eq_some hp⟩
  · have hwritten := lookup_extractTo_of_collides env vars contents flavor hdest hnone hcollides
    exact hwritten ((hsame _ (List.prefix_append dest [gitignore])).trans hnone)
  · have hdir : disk.IsDir dest := disk.lookup_parent hexists
    have hpath : pathExists disk env.cwd (joinPath destText gitignore) = true :=
      ((hdest.join plain_gitignore).pathExists_iff disk env.cwd).mpr hexists
    have hsame : result.2 = disk := by
      have hresult : result = _ := extractTo_eq env vars contents destText flavor disk
      rw [hresult, makeDir_of_isDir env hdest hdir, andThen_ok, extractFile_gitignore,
        if_pos hpath]
      rfl
    rw [hsame]

theorem extract_all_or_nothing_gitignore :
    let disk : Disk Text := FileTree.empty |>.put ["d".toList] .dir
      |>.put ["d".toList, gitignore] (.file "target/".toList)
    let vars := Vars.new "demo".toList none "default".toList none .chisel
    let result := extractTo (Env.plain [] (by simp)) vars (fun _ _ => []) "/d".toList .chisel disk
    Collides result.1 ∧
      (∀ p, ["d".toList] <+: p → result.2.lookup p = disk.lookup p) ∧
      ∀ p c, disk.lookup p = some (.file c) → result.2.lookup p = some (.file c) := by
  intro disk vars result
  have hdest : Normalized "/d".toList ["d".toList] := ⟨by decide, by decide⟩
  have hcollides : Collides result.1 := ⟨"/d/.gitignore".toList, by decide +kernel⟩
  obtain ⟨hsame, hfiles⟩ := extract_all_or_nothing (Env.plain [] (by simp)) vars (fun _ _ => [])
    .chisel hdest disk
  exact ⟨hcollides, (hsame hcollides).mpr (by decide), hfiles⟩

/-- A configuration of the formatter that is already there stops the walk, and what has been written
before it stays. -/
theorem not_extract_all_or_nothing :
    let disk : Disk Text := FileTree.empty |>.put ["d".toList] .dir
      |>.put ["d".toList, ".scalafmt.conf".toList] (.file [])
    let vars := Vars.new "demo".toList none "default".toList none .chisel
    let result := extractTo (Env.plain [] (by simp)) vars (fun _ _ => []) "/d".toList .chisel disk
    Collides result.1 ∧ disk.lookup ["d".toList, gitignore] = none ∧
      result.2.lookup ["d".toList, gitignore] = some (.file []) :=
  ⟨⟨"/d/.scalafmt.conf".toList, by decide +kernel⟩, by decide +kernel, by decide +kernel⟩

end Collisions

/-! ### Where the files go -/

/-- The commands that scaffold a project. -/
inductive ScaffoldCommand
  | new (name : Text)
  | init
  deriving DecidableEq, Repr

section Containment

variable {C : Type*} (env : Env C) (contents : Flavor → Text → C) (args : ScaffoldArgs)

namespace ScaffoldCommand

/-- Run a command. -/
def run (command : ScaffoldCommand) (disk : Disk C) : Except CliError Unit × Disk C :=
  match command with
  | new name => New.run env contents args name disk
  | init => Init.run env contents args disk

/-- The destination of a command. -/
def dest : ScaffoldCommand → List Text
  | new name => env.cwd ++ [name]
  | init => env.cwd

/-- The name of the project. -/
def projectName : ScaffoldCommand → Text
  | new name => name
  | init => (fileName (absoluteText env.cwd)).getD []

end ScaffoldCommand

/-- Followed as a path, the text does not begin at the root and does not lead upwards. What stands
behind its last slash is the beginning of a name. -/
def LeadsDown (path : Text) : Prop :=
  path.head? ≠ some '/' ∧ "..".toList ∉ (path.splitOn '/').dropLast

instance (path : Text) : Decidable (LeadsDown path) := inferInstanceAs (Decidable (_ ∧ _))

theorem normalized_absoluteText {names : List Text} (h : ∀ name ∈ names, Plain name) :
    Normalized (absoluteText names) names := ⟨h, rfl⟩

theorem plain_of_validateProjectName {name : Text} (h : validateProjectName name = .ok ()) :
    Plain name ∧ ∀ c ∈ name, nameChar c := by
  cases name with
  | nil => cases h
  | cons first rest =>
    rw [validateProjectName] at h
    split_ifs at h with hdots hslash hfirst hchars
    rw [not_or] at hdots hslash
    refine ⟨⟨List.cons_ne_nil _ _, hdots.1, hdots.2, hslash.1⟩, ?_⟩
    simpa using hchars

theorem currentDir_eq_ok {disk : Disk C} {cwd : Text} (h : env.currentDir disk = .ok cwd) :
    disk.IsDir env.cwd ∧ cwd = absoluteText env.cwd := by
  rw [Env.currentDir] at h
  split_ifs at h with hdir
  exact ⟨hdir, (Except.ok.inj h).symm⟩

theorem Scaffold.run_cases (name dest : Text) (disk : Disk C) :
    (Scaffold.run env contents args name dest disk).2 = disk ∨
      ∃ vars, Scaffold.vars env args name disk = .ok vars ∧
        Scaffold.run env contents args name dest disk =
          extractTo env vars contents dest args.flavor disk := by
  rw [Scaffold.run]
  split
  next => exact .inl rfl
  next vars hvars => exact .inr ⟨vars, hvars, rfl⟩

/-- A command leaves the files alone, or it extracts the template into its destination. -/
theorem ScaffoldCommand.run_cases (command : ScaffoldCommand) (disk : Disk C) :
    (command.run env contents args disk).2 = disk ∨
      ∃ vars, Scaffold.vars env args (command.projectName env) disk = .ok vars ∧
        disk.IsDir env.cwd ∧ (∀ name ∈ command.dest env, Plain name) ∧
        command.run env contents args disk =
          extractTo env vars contents (absoluteText (command.dest env)) args.flavor disk := by
  cases command with
  | new name =>
    rw [run, New.run]
    split
    next => exact .inl rfl
    next => exact .inl rfl
    next cwd hname hcwd =>
      obtain ⟨hdir, rfl⟩ := currentDir_eq_ok env hcwd
      have hplain := (plain_of_validateProjectName hname).1
      have hjoin := (normalized_absoluteText env.cwd_plain).join hplain
      simp only
      split_ifs
      · exact .inl rfl
      · refine (Scaffold.run_cases env contents args name _ disk).imp_right ?_
        rintro ⟨vars, hvars, hrun⟩
        refine ⟨vars, hvars, hdir, hjoin.plain, ?_⟩
        rw [hrun, hjoin.path_eq]
        rfl
  | init =>
    rw [run, Init.run]
    split
    next => exact .inl rfl
    next dest hcwd =>
      obtain ⟨hdir, rfl⟩ := currentDir_eq_ok env hcwd
      split
      next => exact .inl rfl
      next name hname =>
        split
        next => exact .inl rfl
        next =>
          split_ifs
          · exact .inl rfl
          · refine (Scaffold.run_cases env contents args name _ disk).imp_right ?_
            rintro ⟨vars, hvars, hrun⟩
            refine ⟨vars, ?_, hdir, env.cwd_plain, hrun⟩
            rwa [projectName, hname]

/-- The names of the files at the top of both templates. -/
def topNames : List Text :=
  [gitignore, ".scalafmt.conf".toList, "Beethoven.toml.tmpl".toList, "build.sbt.tmpl".toList]

/-- What follows the name of the accelerator in the names of the files in `hw`. -/
def hwSuffixes : Flavor → List Text
  | .chisel => [".scala.tmpl".toList, "Config.scala.tmpl".toList, "Core.scala.tmpl".toList]
  | .verilog => ["Cmd.scala.tmpl".toList, "Config.scala.tmpl".toList, "Core.v.tmpl".toList]

/-- The names of the files in `sw`. -/
def swNames : List Text :=
  ["CMakeLists.txt.tmpl".toList, braced "name_snake" ++ "_tb.cc.tmpl".toList]

theorem creations_tree (vars : Vars) (dest : Text) (flavor : Flavor) :
    creations vars dest (flavor.tree contents) =
      let file := fun dest name => Creation.file (fileDestination dest (vars.substitute name))
      let hw := joinPath dest (vars.substitute "hw".toList)
      let sw := joinPath dest (vars.substitute "sw".toList)
      topNames.map (file dest) ++
        (.dir hw :: (hwSuffixes flavor).map (fun s => file hw (braced "accel" ++ s))) ++
        (.dir sw :: swNames.map (file sw)) := by
  cases flavor <;> rfl

theorem dir_mem_creations {vars : Vars} {dest path : Text} {flavor : Flavor}
    (h : Creation.dir path ∈ creations vars dest (flavor.tree contents)) :
    ∃ name, Plain name ∧ path = joinPath dest name := by
  have hhw : vars.substitute "hw".toList = "hw".toList := vars.substitute_eq_self (by decide)
  have hsw : vars.substitute "sw".toList = "sw".toList := vars.substitute_eq_self (by decide)
  rw [creations_tree, hhw, hsw] at h
  simp only [List.mem_append, List.mem_cons, List.mem_map, Creation.dir.injEq, reduceCtorEq,
    and_false, exists_false, false_or, or_false] at h
  rcases h with rfl | rfl
  · exact ⟨"hw".toList, by decide, rfl⟩
  · exact ⟨"sw".toList, by decide, rfl⟩

/-- What is new on the way to something in the destination lies in the destination. -/
theorem ScaffoldCommand.dest_isPrefix {command : ScaffoldCommand} {disk : Disk C}
    (hdir : disk.IsDir env.cwd) {p names : List Text} (hnone : disk.lookup p = none)
    (hp : p <+: command.dest env ++ names) : command.dest env <+: p := by
  have hcwd : ¬ p <+: env.cwd := by
    intro hbelow
    have hnone' := disk.lookup_below_eq_none hnone hbelow
    rw [FileTree.IsDir, hnone'] at hdir
    cases hdir
  rcases List.prefix_or_prefix_of_prefix hp (List.prefix_append _ names) with h | h
  · cases command with
    | new name =>
      rcases List.prefix_concat_iff.mp h with h | h
      · rw [h]
        exact List.prefix_refl _
      · exact absurd h hcwd
    | init => exact absurd h hcwd
  · exact h

theorem leadsDown_of_notMem {path : Text} (h : '/' ∉ path) : LeadsDown path := by
  refine ⟨fun hhead => h (List.mem_of_head? hhead), ?_⟩
  rw [List.splitOn_eq_singleton h]
  exact List.not_mem_nil

/-- A file whose name is a text that leads down and a long enough text without a slash goes to a
place below the directory. -/
theorem dest_prefix_fileDestination {dest names : List Text} {destText value s : Text}
    (hdest : Normalized destText names) (hbelow : dest <+: names) (hvalue : LeadsDown value)
    (hlen : 7 < s.length) (hslash : '/' ∉ s) :
    dest <+: place env.cwd (fileDestination destText (value ++ s)) := by
  obtain ⟨stem, hlong, hstem, hdst⟩ : ∃ stem, 2 < stem.length ∧ '/' ∉ stem ∧
      fileDestination destText (value ++ s) = joinPath destText (value ++ stem) := by
    have hsuffix : tmplSuffix.length = 5 := rfl
    rw [fileDestination]
    split_ifs
    · refine ⟨s.take (s.length - 5), ?_, fun h => hslash (List.mem_of_mem_take h), ?_⟩
      · rw [List.length_take]
        omega
      · rw [hsuffix, List.length_append, Nat.add_sub_assoc (by omega), List.take_length_add_append]
    · exact ⟨s, by omega, hslash, rfl⟩
  have hhead : (value ++ stem).head? ≠ some '/' := by
    cases value with
    | nil => exact fun hhead => hstem (List.mem_of_head? hhead)
    | cons c value => exact hvalue.1
  obtain ⟨pieces, last, hpieces, happend⟩ := splitOn_append_of_notMem value hstem
  have hdown : Component.up ∉ osComponents (value ++ stem) := by
    have hup : ∀ piece, toComponent piece = .up → piece = "..".toList := by
      intro piece hpiece
      rw [toComponent] at hpiece
      split_ifs at hpiece with _ hdots
      exact hdots
    rw [osComponents, happend, List.mem_map]
    rintro ⟨piece, hmem, hpiece⟩
    obtain rfl := hup piece hpiece
    rcases List.mem_append.mp hmem with hmem | hmem
    · refine hvalue.2 ?_
      rwa [hpieces, List.dropLast_concat]
    · -- the last piece is too long
      have hdots : "..".toList.length = 2 := rfl
      rw [List.mem_singleton.mp hmem, List.length_append] at hdots
      omega
  rw [hdst, place_joinPath env.cwd destText hhead, hdest.place_eq]
  exact hbelow.trans (Component.isPrefix_follow names hdown)

theorem leadsDown_of_harmless {v : Text} (h : ∀ c ∈ v, Harmless c) :
    '\x7b' ∉ v ∧ LeadsDown v :=
  ⟨fun hbrace => (h _ hbrace).2 rfl, leadsDown_of_notMem fun hslash => (h _ hslash).1 rfl⟩

section

variable (vars : Vars) {dest names : List Text} {destText : Text}
  (hdest : Normalized destText names) (hbelow : dest <+: names)

include hdest hbelow

/-- A file with a fixed name. -/
theorem dest_prefix_substitute {n : Text} (hn : '\x7b' ∉ n ∧ 7 < n.length ∧ '/' ∉ n) :
    dest <+: place env.cwd (fileDestination destText (vars.substitute n)) := by
  rw [vars.substitute_eq_self hn.1, ← List.nil_append n]
  exact dest_prefix_fileDestination env hdest hbelow (by decide) hn.2.1 hn.2.2

/-- A file whose name begins with a placeholder. -/
theorem dest_prefix_substitute_text {p : Placeholder}
    (hp : '\x7b' ∉ vars.value p ∧ LeadsDown (vars.value p)) {s : Text}
    (hs : '\x7b' ∉ s ∧ 7 < s.length ∧ '/' ∉ s) :
    dest <+: place env.cwd (fileDestination destText (vars.substitute (p.text ++ s))) := by
  rw [vars.substitute_text_append p hp.1 hs.1]
  exact dest_prefix_fileDestination env hdest hbelow hp.2 hs.2.1 hs.2.2

end

/-- The files of the template go to places in the destination if the accelerator is named after the
project, or by a text without braces that leads down. -/
theorem dest_prefix_of_accel {name : Text} (hname : validateProjectName name = .ok ())
    {accel : Option Text} (haccel : ∀ a ∈ accel, '\x7b' ∉ a ∧ LeadsDown a) (target : Text)
    (hardware : Option HardwareCoords) (flavor : Flavor) {dest : List Text}
    (hplain : ∀ n ∈ dest, Plain n) {path : Text}
    (hpath : Creation.file path ∈ creations (Vars.new name accel target hardware flavor)
      (absoluteText dest) (flavor.tree contents)) : dest <+: place env.cwd path := by
  let vars := Vars.new name accel target hardware flavor
  have hdest := normalized_absoluteText hplain
  have hhw : vars.substitute "hw".toList = "hw".toList := vars.substitute_eq_self (by decide)
  have hsw : vars.substitute "sw".toList = "sw".toList := vars.substitute_eq_self (by decide)
  rw [creations_tree, hhw, hsw] at hpath
  simp only [List.mem_append, List.mem_cons, List.mem_map, Creation.file.injEq, reduceCtorEq,
    false_or] at hpath
  rcases hpath with (⟨n, hn, rfl⟩ | ⟨s, hs, rfl⟩) | ⟨n, hn, rfl⟩
  · have htop : ∀ n ∈ topNames, '\x7b' ∉ n ∧ 7 < n.length ∧ '/' ∉ n := by decide
    exact dest_prefix_substitute env vars hdest (List.prefix_refl _) (htop n hn)
  · have hvalue : '\x7b' ∉ vars.value .accel ∧ LeadsDown (vars.value .accel) := by
      cases accel with
      | none =>
        exact leadsDown_of_harmless (harmless_toPascalCase (plain_of_validateProjectName hname).2)
      | some a => exact haccel a rfl
    have hsuffixes : ∀ flavor, ∀ s ∈ hwSuffixes flavor, '\x7b' ∉ s ∧ 7 < s.length ∧ '/' ∉ s := by
      intro flavor
      cases flavor <;> decide
    exact dest_prefix_substitute_text env vars (hdest.join (by decide)) (List.prefix_append _ _)
      hvalue (hsuffixes flavor s hs)
  · have hsoftware : Plain "sw".toList := by decide
    have hbelow := hdest.join hsoftware
    simp only [swNames, List.mem_cons, List.not_mem_nil, or_false] at hn
    rcases hn with rfl | rfl
    · exact dest_prefix_substitute env vars hbelow (List.prefix_append _ _) (by decide)
    · have hvalue : '\x7b' ∉ vars.value .nameSnake ∧ LeadsDown (vars.value .nameSnake) :=
        leadsDown_of_harmless harmless_toSnakeCase
      exact dest_prefix_substitute_text env vars hbelow (List.prefix_append _ _) hvalue (by decide)

theorem Scaffold.vars_eq_ok {name : Text} {disk : Disk C} {vars : Vars}
    (h : Scaffold.vars env args name disk = .ok vars) :
    validateProjectName name = .ok () ∧ ∃ target hardware,
      vars = Vars.new name args.accel target hardware args.flavor := by
  rw [Scaffold.vars] at h
  split at h
  next => cases h
  next => cases h
  next hname _ => exact ⟨hname, _, _, (Except.ok.inj h).symm⟩

/-- Whatever `new` and `init` create or write lies in the destination, if the name of the
accelerator is not given, or has no opening brace and does not lead upwards. -/
theorem scaffold_stays_inside (command : ScaffoldCommand) (disk : Disk C)
    (haccel : ∀ a ∈ args.accel, '\x7b' ∉ a ∧ LeadsDown a) (p : List Text)
    (hp : (command.run env contents args disk).2.lookup p ≠ disk.lookup p) :
    command.dest env <+: p := by
  rcases command.run_cases env contents args disk with hsame | ⟨vars, hvars, hdir, hplain, hrun⟩
  · rw [hsame] at hp
    exact absurd rfl hp
  · obtain ⟨hname, target, hardware, rfl⟩ := Scaffold.vars_eq_ok env args hvars
    have hdest := normalized_absoluteText hplain
    have hadds := hrun ▸ adds_extractTo env contents (absoluteText (command.dest env)) args.flavor
      disk
    obtain ⟨hnone, c, hc, hmakes⟩ := (hadds p).resolve_left hp
    have hway : ∀ {path : Text} (names : List Text), Normalized path (command.dest env ++ names) →
        (Creation.dir path).Makes env.cwd p → command.dest env <+: p := by
      intro path names hpath hmakes
      rw [Creation.Makes, hpath.pathComponents_eq] at hmakes
      exact command.dest_isPrefix env hdir hnone (prefix_of_onTheWay hmakes)
    rcases List.mem_cons.mp hc with rfl | hc
    · exact hway [] (by rwa [List.append_nil]) hmakes
    · cases c with
      | file path =>
        obtain rfl : p = place env.cwd path := hmakes
        exact dest_prefix_of_accel env contents hname haccel target hardware _ hplain hc
      | dir path =>
        obtain ⟨name, hname, rfl⟩ := dir_mem_creations contents hc
        exact hway _ (hdest.join hname) hmakes

/-- The name of the accelerator has a slash, and the files stay in the destination. -/
theorem scaffold_stays_inside_demo :
    let env := Env.plain ["w".toList] (by decide)
    let disk : Disk Text := FileTree.empty |>.put ["w".toList] .dir
    let args : ScaffoldArgs := ⟨none, some "./Adder".toList, false⟩
    ∀ p, ((ScaffoldCommand.new "demo".toList).run env (fun _ _ => []) args disk).2.lookup p ≠
        disk.lookup p → ["w".toList, "demo".toList] <+: p := by
  intro env disk args
  exact scaffold_stays_inside env (fun _ _ => []) args (.new "demo".toList) disk (by decide)

/-- An accelerator whose name leads upwards: a file is written beside the destination. -/
theorem not_scaffold_stays_inside :
    let env := Env.plain ["w".toList] (by decide)
    let disk : Disk Text := FileTree.empty |>.put ["w".toList] .dir
    let args : ScaffoldArgs := ⟨none, some "../../evil".toList, false⟩
    let command := ScaffoldCommand.new "demo".toList
    validateProjectName "demo".toList = .ok () ∧
      (command.run env (fun _ _ => []) args disk).2.lookup ["w".toList, "evil.scala".toList] ≠
        disk.lookup ["w".toList, "evil.scala".toList] ∧
      ¬ command.dest env <+: ["w".toList, "evil.scala".toList] := by
  refine ⟨by decide, by decide +kernel, by decide⟩

end Containment

end Beethoven.Cli
