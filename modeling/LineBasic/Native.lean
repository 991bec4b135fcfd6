import LineBasic.Builtin
import LineBasic.Machine
/-!
Sets of natives. The compiler sees what a set declares, and a machine gets what it binds. The standard set prints, clears the
screen, and has the built-in functions.
-/
namespace LineBasic

/-- Some natives: their signatures and what they do. -/
structure NativeSet (R W : Type) where
  declarations : List (String × Signature) := []
  natives : List (String × Native R W) := []
  /-- What happens when the set is bound to a machine. -/
  onBind : W → W := id

/-- What the standard natives need of a world: it takes output, and it has random numbers. -/
structure Console (W : Type) where
  write : String → W → W
  /-- A random number below `2 ^ 53`. -/
  random : W → Nat × W

namespace NativeSet

variable {R W : Type}

/-- The signatures of natives, of which later ones replace earlier ones. -/
def registry (sets : List (NativeSet R W)) : Registry :=
  sets.foldl (fun registry set => registry.declare set.declarations) .empty

/-- Binds natives to a machine. -/
def bindTo (set : NativeSet R W) (m : Machine R W) : Machine R W :=
  set.natives.foldl (fun m native => m.bind native.1 native.2) m

variable [NumberSystem R]

/-- The text that PRINT writes: strings as they are, and a blank behind every number. -/
def printed (args : List (Value R)) : String :=
  String.join <| args.map fun v =>
    match v with
    | .string s => s
    | .number _ => v.text ++ " "

/-- The answer of a native that only has an effect. -/
def done : Answer R :=
  .value (.ofBool false)

/-- A native that writes. -/
def writing (console : Console W) (text : List (Value R) → String) : Native R W :=
  fun args w => (done, console.write (text args) w)

/-- A built-in function as a native. Only RND draws a number. -/
def builtin (console : Console W) (b : Builtin) : Native R W :=
  fun args w =>
    let (draw, w) := if b = .rnd then console.random w else (0, w)
    match b.apply (NumberSystem.ofFraction draw) args with
    | .ok v => (.value v, w)
    | .error e => (.error e, w)

/-- What a screen is cleared with. -/
def clearScreen : String := "\x1b[2J\x1b[H"

/-- The natives that every program can call. -/
def standard (console : Console W) : NativeSet R W where
  declarations :=
    ("PRINT", .statement 0 255 []) :: ("CLS", .statement 0 0 []) ::
      Builtin.all.map fun b => (b.name, b.signature)
  natives :=
    ("PRINT", writing console printed) :: ("CLS", writing console fun _ => clearScreen) ::
      Builtin.all.map fun b => (b.name, builtin console b)

end NativeSet

end LineBasic
