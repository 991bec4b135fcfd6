import LineBasic.AssetKind
import LineBasic.Error
/-!
The commands of the shell, and how their arguments are read.
-/
namespace LineBasic

open Text

/-- A pass of the compiler that can be switched. -/
inductive Pass where
  | ast
  | peephole
deriving DecidableEq, Repr

/-- The name of a pass. -/
def Pass.name : Pass → String
  | ast => "AST"
  | peephole => "PEEPHOLE"

/-- A command. -/
inductive Command where
  | list (first last : Option LineNumber)
  | new
  | run
  | stop
  | save (name : Option String)
  | load (name : String)
  | auto (start increment : Option Nat)
  | delete (first last : LineNumber)
  | renum (start increment first : Option Nat)
  | dir
  | createCart (path : String)
  | useCart (path : String)
  | saveCart
  | closeCart
  | copy (kind : AssetKind) (source name : String)
  | verbose (on : Option Bool)
  /-- Says which passes are on, or switches one. -/
  | optimize (pass : Option (Pass × Option Bool))
  | unknown (name : String)
deriving DecidableEq, Repr

namespace Command

/-- The names of all commands. -/
def names : List String :=
  ["LIST", "NEW", "RUN", "STOP", "SAVE", "LOAD", "AUTO", "DELETE", "RENUM", "DIR", "CREATECART",
    "USECART", "SAVECART", "CLOSECART", "COPY", "VERBOSE", "OPTIMIZE"]

/-- There is a command of this name, in any letter case. -/
def isKnown (name : String) : Bool :=
  names.contains (upper name)

/-- A malformed command. -/
def malformed (text : String) : Error :=
  ErrorCode.syntaxError.error text

/-- The arguments of a command, if there are at most `most`. -/
def atMost (most : Nat) (args : List String) : Except Error Unit :=
  if args.length ≤ most then .ok () else .error (malformed "TOO MANY ARGUMENTS")

/-- An argument that must be there and not be empty. -/
def required (args : List String) (index : Nat) (what : String) : Except Error String :=
  match args[index]? with
  | some arg => if arg = "" then .error (malformed ("MISSING " ++ what)) else .ok arg
  | none => .error (malformed ("MISSING " ++ what))

/-- An argument that is a line number, if it is there. -/
def number? (args : List String) (index : Nat) : Except Error (Option Nat) :=
  match args[index]? with
  | none => .ok none
  | some arg =>
    match readNat? maxWord32 arg with
    | some n => .ok (some n)
    | none => .error (malformed ("NOT A LINE NUMBER: " ++ arg))

/-- An argument that is a switch, if it is there. -/
def switch? (args : List String) (index : Nat) : Except Error (Option Bool) :=
  match (args[index]?).map upper with
  | none => .ok none
  | some "ON" => .ok (some true)
  | some "OFF" => .ok (some false)
  | some _ => .error (malformed "EXPECTED ON OR OFF")

/-- The pass of the given name, in any letter case. -/
def readPass (word : String) : Except Error Pass :=
  match upper word with
  | "AST" => .ok .ast
  | "PEEPHOLE" => .ok .peephole
  | _ => .error (malformed "EXPECTED AST OR PEEPHOLE")

/-- A command that takes no arguments. -/
def plain (command : Command) (args : List String) : Except Error Command := do
  atMost 0 args
  return command

/-- The command of the given name, in upper case, with the given arguments. -/
def parse (name : String) (args : List String) : Except Error Command :=
  match name with
  | "LIST" => do
    atMost 2 args
    return list (← number? args 0) (← number? args 1)
  | "NEW" => plain new args
  | "RUN" => plain run args
  | "STOP" => plain stop args
  | "SAVE" => do
    atMost 1 args
    return save args[0]?
  | "LOAD" => do
    atMost 1 args
    return load (← required args 0 "FILE NAME")
  | "AUTO" => do
    atMost 2 args
    return auto (← number? args 0) (← number? args 1)
  | "DELETE" => do
    atMost 2 args
    match ← number? args 0 with
    | none => .error (malformed "LINE NUMBER")
    | some first => return delete first ((← number? args 1).getD first)
  | "RENUM" => do
    atMost 3 args
    return renum (← number? args 0) (← number? args 1) (← number? args 2)
  | "DIR" => plain dir args
  | "CREATECART" => do
    atMost 1 args
    return createCart (← required args 0 "CART PATH")
  | "USECART" => do
    atMost 1 args
    return useCart (← required args 0 "CART PATH")
  | "SAVECART" => plain saveCart args
  | "CLOSECART" => plain closeCart args
  | "COPY" => do
    atMost 3 args
    match AssetKind.ofWord? (← required args 0 "ASSET KIND") with
    | none => .error (malformed "EXPECTED SCRIPT, IMAGE, SOUND OR DATA")
    | some kind => return copy kind (← required args 1 "SOURCE") (← required args 2 "DESTINATION")
  | "VERBOSE" => do
    atMost 1 args
    return verbose (← switch? args 0)
  | "OPTIMIZE" => do
    atMost 2 args
    match args[0]? with
    | none => return optimize none
    | some word => return optimize (some (← readPass word, ← switch? args 1))
  | _ => .ok (unknown name)

end Command

end LineBasic
