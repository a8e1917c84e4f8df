import Std.Data.TreeMap
import Islands.Json.Text
import Islands.Registry.Component

/-!
# The manifest of client chunks

Once the client build is done, a module maps the name of each client component to the address of
its chunk.

* `ManifestBuilder`: the client components of a list, and the chunks recorded for them.
* `Manifest`: the finished map, ordered by name.
* `Manifest.moduleText`: the module.
-/

namespace Islands

/-! ## Addresses -/

/-- The address of a file below a base, with one slash between them; without a base the file name
itself. -/
def chunkUrl (base file : String) : String :=
  if base.isEmpty then file
  else String.ofList ((base.toList.reverse.dropWhile (· == '/')).reverse ++
    '/' :: file.toList.dropWhile (· == '/'))

/-! ## Manifests -/

/-- The address of each client component's chunk. -/
structure Manifest where
  entries : Std.TreeMap String String

namespace Manifest

/-- The address of the chunk of a component. -/
def get? (m : Manifest) (name : String) : Option String := m.entries[name]?

/-- The number of components that have a chunk. -/
def size (m : Manifest) : Nat := m.entries.size

/-- The module that holds the map. -/
def moduleText (m : Manifest) : String :=
  "export const islandComponents = " ++ Json.object m.entries.toList ++ ";\n"

end Manifest

/-- A manifest in the making: the client components, each by its file and its name, the base of
the addresses, and the chunks so far. -/
structure ManifestBuilder where
  clients : List (String × String)
  base : String
  manifest : Manifest

namespace ManifestBuilder

/-- A manifest without chunks for the client components of a registry. -/
def ofRegistry (components : Registry) (base : String) :
    Except RegistryError ManifestBuilder :=
  match components.check with
  | .error e => .error e
  | .ok () =>
    let clients := components.filter (·.mode == .client)
    .ok ⟨clients.map fun c => (ModuleId.file c.filePath, c.name), base, ⟨∅⟩⟩

/-- The client component that the module of an id belongs to. -/
def client? (b : ManifestBuilder) (id : String) : Option String :=
  (b.clients.find? (·.1 == ModuleId.file id)).map (·.2)

/-- Records that the chunk built from the module of an id is in a file, and says whether the
module is a client component; if not, nothing is recorded. -/
def record (b : ManifestBuilder) (id file : String) : Bool × ManifestBuilder :=
  match b.client? id with
  | none => (false, b)
  | some name =>
    (true, { b with manifest := ⟨b.manifest.entries.insert name (chunkUrl b.base file)⟩ })

/-- Records chunks one after the other, and says of each whether it was recorded. -/
def recordAll (b : ManifestBuilder) : List (String × String) → List Bool × ManifestBuilder
  | [] => ([], b)
  | c :: cs =>
    let (recorded, b) := b.record c.1 c.2
    let (later, b) := b.recordAll cs
    (recorded :: later, b)

end ManifestBuilder

end Islands
