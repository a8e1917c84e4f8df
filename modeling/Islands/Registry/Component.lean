import Islands.Text.Blank
import Islands.ModuleId

/-!
# Registered components

The build keeps a list of components. A list that names a component twice in one mode, or one
without a file, is refused as a whole.

* `Registry.check`: the first problem of a list.
* `Registry.islands`: the components whose slots and boundaries are replaced.
* `Registry.isIsland`: whether the file of a module belongs to one of them.
-/

namespace Islands

/-! ## Components -/

/-- Where a component is rendered. -/
inductive Mode
  | server
  | client
  | all
deriving DecidableEq, Repr

/-- The name of a mode, as messages show it. -/
def Mode.name : Mode → String
  | server => "server"
  | client => "client"
  | all => "all"

/-- A component; the two halves of a paired one share the name. `island` says that it was declared
as an island. -/
structure Component where
  name : String
  filePath : String
  mode : Mode
  island : Bool
deriving DecidableEq, Repr

/-- The components that a build knows at some moment. -/
abbrev Registry := List Component

/-- Why a list of components is refused. -/
inductive RegistryError
  | duplicate (name : String) (mode : Mode)
  | missingFilePath (name : String)
deriving DecidableEq, Repr

/-- The message about a refused list. -/
def RegistryError.message : RegistryError → String
  | duplicate name mode =>
    "component '" ++ name ++ "' is registered twice in " ++ mode.name ++ " mode"
  | missingFilePath name => "component '" ++ name ++ "' has no file path"

/-! ## Validity -/

/-- Whether a component has no file: its path is blank. -/
def Component.lacksFile (c : Component) : Bool := c.filePath.toList.all isWhite

/-- The first problem of a list; `seen` are the names and modes before it. -/
def Registry.checkFrom (seen : List (String × Mode)) : Registry → Except RegistryError Unit
  | [] => .ok ()
  | c :: cs =>
    if c.lacksFile then .error (.missingFilePath c.name)
    else if (c.name, c.mode) ∈ seen then .error (.duplicate c.name c.mode)
    else checkFrom ((c.name, c.mode) :: seen) cs

/-- The first problem of a list of components. -/
def Registry.check (components : Registry) : Except RegistryError Unit :=
  checkFrom [] components

/-! ## Islands -/

/-- Whether a component counts as an island in a list: it was declared as one, or it is rendered
on the server and has no half on the client. -/
def Component.countsAsIsland (components : Registry) (c : Component) : Bool :=
  c.island ||
    (c.mode == .server && !components.any fun d => d.name == c.name && d.mode == .client)

/-- The components of a list that count as islands, in the list's order. -/
def Registry.islands (components : Registry) : Except RegistryError (List Component) :=
  match components.check with
  | .error e => .error e
  | .ok () => .ok (components.filter (·.countsAsIsland components))

/-- Whether the file of a module is an island. A module that is no whole component file is none,
whatever the list. -/
def Registry.isIsland (components : Registry) (id : String) : Except RegistryError Bool :=
  if ModuleId.isWholeComponent id then
    match components.islands with
    | .error e => .error e
    | .ok islands => .ok (islands.any fun c => Path.normalForm c.filePath == ModuleId.file id)
  else .ok false

end Islands
