import Islands.Registry.ManifestFile
import Islands.Session

/-!
# The interface for build tools

A build tool in JavaScript calls the library with plain objects. Options it leaves out have the
defaults of this interface, under which no source map is made. A list of components that is
refused is an invalid argument; any other failure is a general one.

* `ToolOptions.resolve`: the options of a call.
* `wrapForTool`, `isIslandForTool`, `chunkManifest`: the calls.
-/

namespace Islands

/-- The options of a call, each of which may be left out. -/
structure ToolOptions where
  clientBoundaries : Option Bool := none
  development : Option Bool := none
  rootDirectory : Option String := none
  bundler : Option Bundler := none
  sourceMap : Option MapMode := none
  runtimeUrl : Option String := none
deriving DecidableEq, Repr

/-- The options of a build. -/
def ToolOptions.resolve (o : ToolOptions) : Options :=
  { clientBoundaries := o.clientBoundaries.getD false
    development := o.development.getD false
    rootDirectory := o.rootDirectory
    bundler := o.bundler.getD .vite
    sourceMap := o.sourceMap.getD .none
    runtimeUrl := o.runtimeUrl }

/-- Why a call fails. -/
inductive ToolError
  /-- The list of components is not valid. -/
  | components (cause : RegistryError)
  /-- The manifest cannot be written. -/
  | manifest (cause : WriteFault)
deriving DecidableEq, Repr

/-- The message of a failed call. -/
def ToolError.message : ToolError → String
  | components cause => cause.message
  | manifest cause => cause.message

/-- A message as a build tool gets it: an empty hint is no help. -/
structure ToolDiagnostic where
  severity : Severity
  message : String
  help : Option String
  labels : List Diagnostic.Label
deriving DecidableEq, Repr

/-- A message as a build tool gets it. -/
def Diagnostic.forTool (d : Diagnostic) : ToolDiagnostic :=
  ⟨d.severity, d.text, if d.hint.isEmpty then none else some d.hint, d.labels⟩

/-- The result for a file. -/
def wrapForTool (id source : String) (components : Registry) (options : ToolOptions) :
    Except ToolError Outcome :=
  (wrapIfIsland components options.resolve id source).mapError .components

/-- Whether the file of a module is an island. -/
def isIslandForTool (id : String) (components : Registry) : Except ToolError Bool :=
  (components.isIsland id).mapError .components

/-- The file with the manifest of the chunks of a client build. A chunk that was built from no
module is left out. -/
def chunkManifest (directory : String) (components : Registry)
    (chunks : List (Option String × String)) (base : Option String) :
    Except ToolError ManifestFile :=
  match ManifestBuilder.ofRegistry components (base.getD "") with
  | .error e => .error (.components e)
  | .ok b =>
    let (_, b) := b.recordAll (chunks.filterMap fun c => c.1.map (·, c.2))
    (b.manifest.fileIn false directory).mapError .manifest

end Islands
