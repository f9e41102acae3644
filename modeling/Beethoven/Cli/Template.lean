import Beethoven.Lib.Replace
import Beethoven.Cli.Files
import Mathlib.Data.Fintype.Basic

/-!
# The variables of a project template

A new project is made from a template in which ten placeholders stand for the name of the project,
the accelerator, the target and the blocks that depend on them (`cli/src/template.rs`). The name is
checked (`cli/src/commands/scaffold.rs`); the accelerator, the target and the coordinates of the
hardware library are taken as they are. The placeholders are replaced one after the other, each in
what the replacements before it have left.

A value that contains a placeholder is replaced in turn, or not, depending on the order. As long as
the values of the other placeholders create no occurrence of a placeholder, all orders agree with
the replacement of all placeholders at once.
-/

namespace Beethoven.Cli

open Lib

/-! ### Names -/

/-- What a project name consists of. -/
def nameChar (c : Char) : Bool := c.isAlphanum || c == '-' || c == '_'

/-- `validate_project_name`. -/
def validateProjectName (name : Text) : Except CliError Unit :=
  match name with
  | [] => .error (.usage "project name is empty".toList)
  | first :: _ =>
    if name = ".".toList ∨ name = "..".toList then
      .error (.usage ("invalid project name '".toList ++ name ++ "'".toList))
    else if '/' ∈ name ∨ '\x5c' ∈ name then
      .error (.usage ("project name '".toList ++ name ++ "' contains a path separator".toList))
    else if !first.isAlpha then
      .error (.usage ("project name '".toList ++ name ++
        "' must start with an ASCII letter".toList))
    else if !name.all nameChar then
      .error (.usage ("project name '".toList ++ name ++
        "' may only contain ASCII letters, digits, '-', and '_'".toList))
    else .ok ()

/-- `to_snake_case`. -/
def toSnakeCase (s : Text) : Text :=
  (s.map fun c => if c = '-' then '_' else c.toLower).filter fun c => c.isAlphanum || c == '_'

/-- The first letter in upper case, the others in lower case. The names are ASCII. -/
def capitalize : Text → Text
  | [] => []
  | first :: rest => first.toUpper :: rest.map Char.toLower

/-- `to_pascal_case`. -/
def toPascalCase (s : Text) : Text :=
  ((s.splitOnP fun c => c == '-' || c == '_' || c == '.').filter (· ≠ [])).flatMap capitalize

/-! ### Values -/

/-- Which template is used. -/
inductive Flavor
  | chisel
  | verilog
  deriving DecidableEq, Repr

/-- `Flavor::system_name`. -/
def Flavor.systemName (flavor : Flavor) (accel : Text) : Text :=
  match flavor with
  | .chisel => "my".toList ++ accel
  | .verilog => accel ++ "Core".toList

/-- The coordinates of the published hardware library. -/
structure HardwareCoords where
  organization : Text
  artifact : Text
  version : Text
  deriving DecidableEq, Repr

/-- The values of the placeholders. -/
structure Vars where
  name : Text
  nameSnake : Text
  accel : Text
  system : Text
  target : Text
  platformSpecific : Text
  hardwareDepToml : Text
  hardwareSbtLazyVal : Text
  hardwareSbtDependsOn : Text
  hardwareSbtExtraSettings : Text
  deriving DecidableEq, Repr

/-- The texts of `render_hardware_blocks`. -/
structure HardwareBlocks where
  toml : Text
  lazyVal : Text
  dependsOn : Text
  extraSettings : Text
  deriving DecidableEq, Repr

/-- `render_hardware_blocks`. -/
def renderHardwareBlocks : Option HardwareCoords → HardwareBlocks
  | some c =>
    { toml :=
        ("[hardware.beethoven-hardware]\n" ++
          "version = \"latest.integration\"   # always resolves the newest published artifact\n" ++
          "# version = \"").toList ++ c.version ++
        ("\"          # uncomment to pin to the version captured by `beethoven setup`\n" ++
          "# path = \"../Beethoven-Hardware\"   # uncomment to source-link a sibling checkout\n"
          ).toList
      lazyVal := []
      dependsOn := []
      extraSettings :=
        "      libraryDependencies += \"".toList ++ c.organization ++ "\" %% \"".toList ++
          c.artifact ++ "\" % \"latest.integration\",\n".toList }
  | none =>
    { toml :=
        ("[hardware.beethoven-hardware]\n" ++ "path = \"../Beethoven-Hardware\"\n" ++
          "# version = \"0.1.7-dev12\"          # uncomment after `beethoven setup`\n").toList
      lazyVal :=
        ("lazy val beethovenHardware = ProjectRef(file(\"../Beethoven-Hardware\"), " ++
          "\"beethoven\")\n").toList
      dependsOn := "    .dependsOn(beethovenHardware)\n".toList
      extraSettings := [] }

/-- `platform_specific_block`. -/
def platformSpecificBlock (target : Text) : Text :=
  if target = "aupzu3".toList then "[platform.aupzu3]\ndram-size-gb = 8\n".toList else []

/-- `Vars::new`. -/
def Vars.new (name : Text) (accel : Option Text) (target : Text)
    (hardware : Option HardwareCoords) (flavor : Flavor) : Vars :=
  let accel := accel.getD (toPascalCase name)
  let blocks := renderHardwareBlocks hardware
  { name := name
    nameSnake := toSnakeCase name
    accel := accel
    system := flavor.systemName accel
    target := target
    platformSpecific := platformSpecificBlock target
    hardwareDepToml := blocks.toml
    hardwareSbtLazyVal := blocks.lazyVal
    hardwareSbtDependsOn := blocks.dependsOn
    hardwareSbtExtraSettings := blocks.extraSettings }

/-- A word between double braces. -/
def braced (word : String) : Text :=
  "\x7b\x7b".toList ++ word.toList ++ "\x7d\x7d".toList

/-- `Vars::substitute`. -/
def Vars.substitute (vars : Vars) (s : Text) : Text :=
  let s := replaceAll (braced "name_snake") vars.nameSnake s
  let s := replaceAll (braced "name") vars.name s
  let s := replaceAll (braced "accel") vars.accel s
  let s := replaceAll (braced "system") vars.system s
  let s := replaceAll (braced "target") vars.target s
  let s := replaceAll (braced "platform_specific") vars.platformSpecific s
  let s := replaceAll (braced "hardware_dep_toml") vars.hardwareDepToml s
  let s := replaceAll (braced "hardware_sbt_lazy_val") vars.hardwareSbtLazyVal s
  let s := replaceAll (braced "hardware_sbt_depends_on") vars.hardwareSbtDependsOn s
  replaceAll (braced "hardware_sbt_extra_settings") vars.hardwareSbtExtraSettings s

/-! ### Placeholders -/

/-- What is replaced, in the order of the replacements. -/
inductive Placeholder
  | nameSnake
  | name
  | accel
  | system
  | target
  | platformSpecific
  | hardwareDepToml
  | hardwareSbtLazyVal
  | hardwareSbtDependsOn
  | hardwareSbtExtraSettings
  deriving DecidableEq, Repr

namespace Placeholder

/-- The placeholders in the order in which they are replaced. -/
def all : List Placeholder :=
  [.nameSnake, .name, .accel, .system, .target, .platformSpecific, .hardwareDepToml,
    .hardwareSbtLazyVal, .hardwareSbtDependsOn, .hardwareSbtExtraSettings]

theorem nodup_all : all.Nodup := by decide

theorem mem_all (p : Placeholder) : p ∈ all := by
  cases p <;> decide

instance : Fintype Placeholder := ⟨⟨all, nodup_all⟩, mem_all⟩

/-- How a placeholder is written. -/
def text : Placeholder → Text
  | nameSnake => braced "name_snake"
  | name => braced "name"
  | accel => braced "accel"
  | system => braced "system"
  | target => braced "target"
  | platformSpecific => braced "platform_specific"
  | hardwareDepToml => braced "hardware_dep_toml"
  | hardwareSbtLazyVal => braced "hardware_sbt_lazy_val"
  | hardwareSbtDependsOn => braced "hardware_sbt_depends_on"
  | hardwareSbtExtraSettings => braced "hardware_sbt_extra_settings"

end Placeholder

/-- What is put in the place of a placeholder. -/
def Vars.value (vars : Vars) : Placeholder → Text
  | .nameSnake => vars.nameSnake
  | .name => vars.name
  | .accel => vars.accel
  | .system => vars.system
  | .target => vars.target
  | .platformSpecific => vars.platformSpecific
  | .hardwareDepToml => vars.hardwareDepToml
  | .hardwareSbtLazyVal => vars.hardwareSbtLazyVal
  | .hardwareSbtDependsOn => vars.hardwareSbtDependsOn
  | .hardwareSbtExtraSettings => vars.hardwareSbtExtraSettings

theorem Placeholder.disjoint : ∀ j k : Placeholder, ∀ i < j.text.length, (i = 0 → j ≠ k) →
    ¬ k.text <+: j.text.drop i ∧ ¬ j.text.drop i <+: k.text := by
  decide +kernel

/-- The ten placeholders as markers: no two of them overlap. -/
def placeholders : Markers Char Placeholder where
  all := Placeholder.all
  nodup_all := Placeholder.nodup_all
  mem_all := Placeholder.mem_all
  text := Placeholder.text
  text_ne_nil := by decide
  disjoint := Placeholder.disjoint

theorem Vars.substitute_eq_oneByOne (vars : Vars) (s : Text) :
    vars.substitute s = placeholders.oneByOne vars.value Placeholder.all s := rfl

theorem brace_mem_text (p : Placeholder) : '\x7b' ∈ p.text := by
  cases p <;> decide

theorem Vars.substitute_eq_self (vars : Vars) {s : Text} (hs : '\x7b' ∉ s) :
    vars.substitute s = s := by
  rw [substitute_eq_oneByOne]
  exact placeholders.oneByOne_eq_self brace_mem_text _ _ hs

/-- A placeholder before a text without braces, with a value that has none. -/
theorem Vars.substitute_text_append (vars : Vars) (p : Placeholder) {s : Text}
    (hvalue : '\x7b' ∉ vars.value p) (hs : '\x7b' ∉ s) :
    vars.substitute (p.text ++ s) = vars.value p ++ s := by
  rw [substitute_eq_oneByOne]
  exact placeholders.oneByOne_text_append brace_mem_text (Placeholder.mem_all p) hvalue hs

/-! ### The letters of names -/

/-- A letter that is neither a slash nor a brace. -/
def Harmless (c : Char) : Prop := c ≠ '/' ∧ c ≠ '\x7b'

instance (c : Char) : Decidable (Harmless c) := inferInstanceAs (Decidable (_ ∧ _))

theorem toNat_lt_of_nameChar {c : Char} (h : nameChar c) : c.toNat < 128 := by
  rw [nameChar, Bool.or_eq_true, Bool.or_eq_true, beq_iff_eq, beq_iff_eq] at h
  rcases h with (h | rfl) | rfl
  · have hval : c.val < 128 := by
      delta Char.isAlphanum Char.isAlpha Char.isUpper Char.isLower Char.isDigit at h
      grind
    exact UInt32.lt_iff_toNat_lt.mp hval
  · decide
  · decide

theorem harmless_of_nameChar {c : Char} (h : nameChar c) :
    Harmless c.toUpper ∧ Harmless c.toLower := by
  have hascii : ∀ n < 128, nameChar (Char.ofNat n) →
      Harmless (Char.ofNat n).toUpper ∧ Harmless (Char.ofNat n).toLower := by
    decide
  have hlt := toNat_lt_of_nameChar h
  rw [← Char.ofNat_toNat c] at h ⊢
  exact hascii c.toNat hlt h

theorem harmless_toSnakeCase {name : Text} : ∀ c ∈ toSnakeCase name, Harmless c := by
  intro c hc
  have hkept := (List.mem_filter.mp hc).2
  constructor <;> rintro rfl <;> revert hkept <;> decide

theorem subset_of_mem_splitOnP {α : Type*} {p : α → Bool} {l piece : List α}
    (h : piece ∈ l.splitOnP p) : piece ⊆ l := by
  induction l generalizing piece with
  | nil =>
    rw [List.splitOnP_nil, List.mem_singleton] at h
    rw [h]
    exact List.nil_subset _
  | cons a l ih =>
    rw [List.splitOnP_cons_eq_if_modifyHead] at h
    split_ifs at h
    · rcases List.mem_cons.mp h with rfl | h
      · exact List.nil_subset _
      · exact List.Subset.trans (ih h) (List.subset_cons_self a l)
    · match hsplit : l.splitOnP p with
      | [] =>
        rw [hsplit] at h
        exact absurd h List.not_mem_nil
      | first :: pieces =>
        rw [hsplit] at h
        rcases List.mem_cons.mp h with rfl | h
        · exact List.cons_subset_cons a (ih (by rw [hsplit]; exact List.mem_cons_self))
        · exact List.Subset.trans (ih (by rw [hsplit]; exact List.mem_cons_of_mem _ h))
            (List.subset_cons_self a l)

theorem harmless_toPascalCase {name : Text} (hname : ∀ c ∈ name, nameChar c) :
    ∀ c ∈ toPascalCase name, Harmless c := by
  intro c hc
  obtain ⟨piece, hpiece, hc⟩ := List.mem_flatMap.mp hc
  have hsub := subset_of_mem_splitOnP (List.mem_filter.mp hpiece).1
  cases piece with
  | nil => exact absurd hc List.not_mem_nil
  | cons first rest =>
    rw [capitalize, List.mem_cons, List.mem_map] at hc
    rcases hc with rfl | ⟨d, hd, rfl⟩
    · exact (harmless_of_nameChar (hname first (hsub List.mem_cons_self))).1
    · exact (harmless_of_nameChar (hname d (hsub (List.mem_cons_of_mem first hd)))).2

/-! ### The order of the replacements -/

/-- No occurrence of a placeholder is created when the other nine get their values. -/
def Vars.CreatesNone (vars : Vars) (template : Text) : Prop :=
  ∀ p : Placeholder,
    occurrences p.text
        (placeholders.simultaneous (Function.update vars.value p p.text) template) =
      occurrences p.text template

instance (vars : Vars) (template : Text) : Decidable (vars.CreatesNone template) :=
  inferInstanceAs (Decidable (∀ _, _))

/-- If no placeholder is created by the values of the others, then the result is the simultaneous
replacement of the placeholders, and so it is for the replacements in any other order. -/
theorem Vars.substitute_eq_simultaneous (vars : Vars) (template : Text)
    (h : vars.CreatesNone template) :
    vars.substitute template = placeholders.simultaneous vars.value template ∧
      ∀ order : List Placeholder, order.Perm Placeholder.all →
        placeholders.oneByOne vars.value order template =
          placeholders.simultaneous vars.value template := by
  constructor
  · rw [substitute_eq_oneByOne]
    exact placeholders.oneByOne_eq_simultaneous h (.refl _)
  · exact fun order horder => placeholders.oneByOne_eq_simultaneous h horder

theorem substitute_eq_simultaneous_package :
    let vars := Vars.new "vector-add".toList none "default".toList none .chisel
    let template := "package ".toList ++ braced "name_snake" ++ " object ".toList ++ braced "accel"
    vars.substitute template = placeholders.simultaneous vars.value template ∧
      ∀ order : List Placeholder, order.Perm Placeholder.all →
        placeholders.oneByOne vars.value order template =
          placeholders.simultaneous vars.value template :=
  Vars.substitute_eq_simultaneous _ _ (by decide +kernel)

/-- The accelerator is named after the placeholder of the target: the placeholder of the accelerator
becomes the target, instead of the name that was given. -/
theorem not_substitute_eq_simultaneous :
    let vars := Vars.new "demo".toList (some (braced "target")) "default".toList none .chisel
    validateProjectName "demo".toList = .ok () ∧
      vars.substitute (braced "accel") = "default".toList ∧
      placeholders.simultaneous vars.value (braced "accel") = braced "target" ∧
      ∃ order : List Placeholder, order.Perm Placeholder.all ∧
        placeholders.oneByOne vars.value order (braced "accel") = braced "target" := by
  refine ⟨by decide, by decide +kernel, by decide +kernel, Placeholder.all.reverse,
    List.reverse_perm _, by decide +kernel⟩

end Beethoven.Cli
