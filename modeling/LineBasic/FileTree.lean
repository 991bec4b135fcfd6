import LineBasic.Path
import LineBasic.Storage
/-!
A file system in memory: directories and files under their full names, and a directory that relative paths start from.
Paths are resolved name by name, and every name but the last has to be a directory that exists.
-/
namespace LineBasic

/-- What a name stands for. -/
inductive Node where
  | file (bytes : ByteArray)
  | directory
deriving Inhabited

/-- A tree of files and directories. The top is a directory that always exists. -/
structure FileTree where
  nodes : List (List String × Node) := []
  /-- The directory that relative paths start from. -/
  here : List String := []
deriving Inhabited

namespace FileTree

/-- The longest name, in bytes. -/
def maxNameLength : Nat := 255

/-- The longest path, in bytes. -/
def maxPathLength : Nat := 4095

/-- What is at a place. -/
def node? (t : FileTree) (place : List String) : Option Node :=
  if place.isEmpty then some .directory else t.nodes.lookup place

/-- A directory is at the place. -/
def isDirectory (t : FileTree) (place : List String) : Bool :=
  match t.node? place with
  | some .directory => true
  | _ => false

/-- The tree with a node at a place, instead of what was there. -/
def put (t : FileTree) (place : List String) (node : Node) : FileTree :=
  { t with nodes := (place, node) :: t.nodes.filter fun entry => entry.1 != place }

/-- An empty tree in which relative paths start from the given place. -/
def startingAt (here : List String) : FileTree :=
  { nodes := (List.range here.length).map fun i => (here.take (i + 1), .directory), here }

/-- The names of a path, of which the current word so far is `word` backwards. -/
def namesFrom (word : List Char) : List Char → List String
  | [] => [String.ofList word.reverse]
  | c :: cs =>
    if c = '/' then String.ofList word.reverse :: namesFrom [] cs else namesFrom (c :: word) cs

/-- The names between the slashes of a path. -/
def names (path : String) : List String :=
  namesFrom [] path.toList

/-- The place that absolute or relative paths start from. -/
def start (t : FileTree) (path : String) : List String :=
  if Path.isAbsolute path then [] else t.here

/-- A name that stands for the directory it is in. -/
def isStay (name : String) : Bool :=
  name = "" || name = "."

/-- The directory at a place, or the reason why there is none. -/
def enter (t : FileTree) (place : List String) : Except FileError Unit :=
  match t.node? place with
  | some .directory => .ok ()
  | some (.file _) => .error .notDirectory
  | none => .error .notFound

/-- The place that names lead to from `place`. Nothing need be there. -/
def walk (t : FileTree) (place : List String) : List String → Except FileError (List String)
  | [] => .ok place
  | name :: names => do
    t.enter place
    if isStay name then walk t place names
    else if name = ".." then walk t place.dropLast names
    else if maxNameLength < name.utf8ByteSize then .error .nameTooLong
    else walk t (place ++ [name]) names

/-- A path that can be looked up at all. -/
def check (path : String) : Except FileError Unit :=
  if path.toList.contains '\x00' then .error .invalidName
  else if path = "" then .error .notFound
  else if maxPathLength < path.utf8ByteSize then .error .nameTooLong
  else .ok ()

/-- The place and the node that a path names. -/
def find (t : FileTree) (path : String) : Except FileError (List String × Node) := do
  check path
  let place ← t.walk (t.start path) (names path)
  match t.node? place with
  | some node => return (place, node)
  | none => .error .notFound

/-- The names of a path without the empty ones at its end. -/
def dropEmptyEnd (names : List String) : List String :=
  (names.reverse.dropWhile (· == "")).reverse

/-- Where something is to be made. -/
inductive Site where
  /-- Under this name, at this place, which is a directory; the path may end in a slash. -/
  | vacant (place : List String) (name : String) (slash : Bool)
  /-- The path names a directory that exists by a dot or two, or the top. -/
  | dots

/-- Where a path wants something to be made. -/
def site (t : FileTree) (path : String) : Except FileError Site := do
  check path
  let all := names path
  let names := dropEmptyEnd all
  match names.getLast? with
  | none => return .dots
  | some last =>
    let place ← t.walk (t.start path) names.dropLast
    t.enter place
    if last = "." || last = ".." then return .dots
    else return .vacant place last (names.length < all.length)

/-- The place of a name in a directory, unless the name is too long. -/
def placeIn (place : List String) (name : String) : Except FileError (List String) :=
  if maxNameLength < name.utf8ByteSize then .error .nameTooLong else .ok (place ++ [name])

/-- The bytes of a file. -/
def read (t : FileTree) (path : String) : Except FileError ByteArray := do
  match ← t.find path with
  | (_, .file bytes) => return bytes
  | (_, .directory) => .error .isDirectory

/-- The tree with a file written. A slash at the end of the path asks for a directory, whatever the name in front of
it. -/
def write (t : FileTree) (path : String) (bytes : ByteArray) : Except FileError FileTree := do
  match ← t.site path with
  | .dots | .vacant _ _ true => .error .isDirectory
  | .vacant place name false =>
    let place ← placeIn place name
    if t.isDirectory place then .error .isDirectory else return t.put place (.file bytes)

/-- The places in a directory, each under its last name. -/
def children (t : FileTree) (place : List String) : List (String × Node) :=
  t.nodes.filterMap fun (other, node) =>
    match other.getLast? with
    | some name => if other.dropLast == place then some (name, node) else none
    | none => none

/-- The row of a directory for a node; directories are shown without a size. -/
def entry (modified : Timestamp) (name : String) : Node → Entry
  | .file bytes => { name, size := bytes.size, modified := some modified }
  | .directory => { name, isDirectory := true, modified := some modified }

/-- The rows of a directory in the order of their names. -/
def list (t : FileTree) (modified : Timestamp) (path : String) : Except FileError (List Entry) := do
  let (place, _) ← t.find path
  t.enter place
  return ((t.children place).map fun (name, node) => entry modified name node).mergeSort
    fun a b => a.name ≤ b.name

/-- The tree with a file copied, and the number of bytes copied. The copy is emptied before the first byte is read, so a
file that is copied onto itself gets lost. -/
def copy (t : FileTree) (source target : String) : Except FileError (Nat × FileTree) := do
  match ← t.find source with
  | (_, .directory) => .error .notCopied
  | (place, .file _) =>
    let emptied ← t.write target .empty
    match emptied.node? place with
    | some (.file bytes) => return (bytes.size, ← t.write target bytes)
    | _ => .error .notFound

/-- The tree with a directory made. -/
def makeDirectory (t : FileTree) (path : String) : Except FileError FileTree := do
  match ← t.site path with
  | .dots => .error .alreadyExists
  | .vacant place name _ =>
    let place ← placeIn place name
    match t.node? place with
    | some _ => .error .alreadyExists
    | none => return t.put place .directory

/-- A directory is at the end of a path. -/
def leadsToDirectory (t : FileTree) (path : String) : Bool :=
  match t.find path with
  | .ok (_, .directory) => true
  | _ => false

/-- The tree with a directory made, unless it is there already. -/
def ensureDirectory (t : FileTree) (path : String) : Except FileError Unit × FileTree :=
  match t.makeDirectory path with
  | .ok t => (.ok (), t)
  | .error e => (if t.leadsToDirectory path then .ok () else .error e, t)

/-- The tree with a directory made, and those that it lies in, where the path is at most `fuel` long. -/
def createDirectoryIn : Nat → FileTree → String → Except FileError Unit × FileTree
  | 0, t, _ => (.ok (), t)
  | fuel + 1, t, path =>
    if path = "" then (.ok (), t)
    else
      match t.makeDirectory path, Path.parent? path with
      | .error .notFound, some parent =>
        match createDirectoryIn fuel t parent with
        | (.ok (), t) => t.ensureDirectory path
        | (.error e, t) => (.error e, t)
      | _, _ => t.ensureDirectory path

/-- The tree with a directory made, and those that it lies in. Those that were made stay even if the next one cannot be
made. The empty path asks for nothing. -/
def createDirectory (t : FileTree) (path : String) : Except FileError Unit × FileTree :=
  createDirectoryIn path.length t path

/-- There is something at the end of a path. -/
def contains (t : FileTree) (path : String) : Bool :=
  match t.find path with
  | .ok _ => true
  | .error _ => false

/-- The tree without what is at the end of a path, and without anything below it. -/
def remove (t : FileTree) (path : String) : Except FileError FileTree := do
  let (place, _) ← t.find path
  return { t with nodes := t.nodes.filter fun entry => !place.isPrefixOf entry.1 }

/-- The paths of everything below the directory that relative paths start from. A directory comes before what is in it,
and its path ends in a slash. -/
def paths (t : FileTree) : List String :=
  let below := t.nodes.filterMap fun (place, node) =>
    if t.here.isPrefixOf place && place != t.here then
      some (place.drop t.here.length, node)
    else none
  (below.mergeSort fun a b => (List.compareLex compare a.1 b.1).isLE).map fun (place, node) =>
    "/".intercalate place ++ (match node with
      | .directory => "/"
      | .file _ => "")

/-- An operation on the tree. -/
def run {α : Type} (f : FileTree → Except FileError α × FileTree) : ExceptT Error (StateM FileTree) α :=
  fun t =>
    let (result, t) := f t
    (result.mapError FileError.toError, t)

/-- An operation that only looks. -/
def look {α : Type} (f : FileTree → Except FileError α) : ExceptT Error (StateM FileTree) α :=
  run fun t => (f t, t)

/-- An operation that changes the tree unless it fails. -/
def change {α : Type} (f : FileTree → Except FileError (α × FileTree)) :
    ExceptT Error (StateM FileTree) α :=
  run fun t =>
    match f t with
    | .ok (a, t) => (.ok a, t)
    | .error e => (.error e, t)

/-- An operation that has no result but a changed tree. -/
def update (f : FileTree → Except FileError FileTree) : ExceptT Error (StateM FileTree) Unit :=
  change fun t => (f t).map fun t => ((), t)

/-- A tree as a storage whose clock stands still at `now`, and whose files were all changed at `modified`. -/
def storage (modified now : Timestamp) : Storage (StateM FileTree) where
  read path := look fun t => t.read path
  write path bytes := update fun t => t.write path bytes
  list path := look fun t => t.list modified path
  copy source target := change fun t => t.copy source target
  createDirectory path := run fun t => t.createDirectory path
  exists? path := return (← get).contains path
  now := return now

end FileTree

end LineBasic
