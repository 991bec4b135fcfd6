import LineBasic.Compilation
import LineBasic.Json.Reader
import LineBasic.Storage
import LineBasic.Text.Utf8
/-!
The settings of a shell: read from a JSON text in which every field has a default, and overridden by variables of the
environment.
-/
namespace LineBasic

open Text

/-- The settings of a shell. -/
structure Config where
  /-- The directory that programs and carts are looked for in. -/
  scriptsDirectory : String := "."
  /-- Every script is shown before it runs. -/
  verbose : Bool := false
  optimizeAst : Bool := true
  optimizePeephole : Bool := true
  /-- The first number that AUTO gives. -/
  autoStart : Nat := 10
  /-- The distance of the numbers that AUTO gives. -/
  autoIncrement : Nat := 10
  /-- A run does not keep the shell from taking lines. -/
  backgroundRun : Bool := false
  /-- The number of instructions from one poll to the next. -/
  pollInterval : Nat := 256
deriving DecidableEq, Repr, Inhabited

namespace Config

/-- The passes that the compiler is to take. -/
def flags (c : Config) : Flags :=
  { ast := c.optimizeAst, peephole := c.optimizePeephole }

/-- The names of the settings in a JSON text. -/
def fieldNames : List String :=
  ["scripts_directory", "verbose", "optimize_ast", "optimize_peephole", "auto_start",
    "auto_increment", "background_run", "poll_interval"]

/-- The settings that a JSON value describes. -/
def ofJson? (j : Json.Found) : Option Config := do
  let default : Config := {}
  match ← Json.record? fieldNames j with
  | [directory, verbose, ast, peephole, start, increment, background, interval] =>
    return {
      scriptsDirectory := ← Json.fieldD Json.text? default.scriptsDirectory directory
      verbose := ← Json.fieldD Json.bool? default.verbose verbose
      optimizeAst := ← Json.fieldD Json.bool? default.optimizeAst ast
      optimizePeephole := ← Json.fieldD Json.bool? default.optimizePeephole peephole
      autoStart := ← Json.fieldD (Json.nat? maxWord32) default.autoStart start
      autoIncrement := ← Json.fieldD (Json.nat? maxWord32) default.autoIncrement increment
      backgroundRun := ← Json.fieldD Json.bool? default.backgroundRun background
      pollInterval := ← Json.fieldD (Json.nat? maxWord64) default.pollInterval interval }
  | _ => none

/-- The settings that a JSON text describes. What is wrong with another text is said by `complaint`. -/
def parse (text : String) (complaint : String → String := fun _ => "") : Except Error Config :=
  match (Json.read? (text.toList.map some)).bind ofJson? with
  | some c => .ok c
  | none => .error (ErrorCode.syntaxError.error ("CONFIG: " ++ complaint text))

/-- The settings in a file. -/
def load {m : Type → Type} [Monad m] (storage : Storage m) (path : String)
    (complaint : String → String := fun _ => "") : ExceptT Error m Config := do
  match String.fromUTF8? (← storage.read path) with
  | some text => ExceptT.mk (return parse text complaint)
  | none => throw FileError.notText.toError

/-- The truth value that a variable of the environment stands for. -/
def switch? (s : String) : Option Bool :=
  match lower (trimmed s) with
  | "1" | "true" | "on" | "yes" => some true
  | "0" | "false" | "off" | "no" => some false
  | _ => none

/-- The settings, overridden by the variables of an environment. -/
def withVariables (look : String → Option String) (c : Config) : Config :=
  { c with
    scriptsDirectory := (look "CARTBASIC_SCRIPTS").getD c.scriptsDirectory
    verbose := ((look "CARTBASIC_VERBOSE").bind switch?).getD c.verbose
    backgroundRun := ((look "CARTBASIC_BACKGROUND").bind switch?).getD c.backgroundRun }

end Config

end LineBasic
