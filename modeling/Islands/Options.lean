/-!
# Options of a build

* `Bundler`, `MapMode`: the choices; `Bundler.name` is the name shown to the user.
* `Options`: what a build sets once for all its files, with its defaults.
-/

namespace Islands

/-- The bundler that makes the final output. -/
inductive Bundler
  | vite
  | webpack
  | rspack
deriving DecidableEq, Repr

namespace Bundler

/-- Whether a boundary can be addressed at run time in the bundler's output. -/
def canAddressBoundaries : Bundler → Bool
  | vite => true
  | _ => false

/-- The name shown to the user. -/
def name : Bundler → String
  | vite => "vite"
  | webpack => "webpack"
  | rspack => "rspack"

end Bundler

/-- Where a source map goes. -/
inductive MapMode
  /-- There is none. -/
  | none
  /-- Beside the code. -/
  | external
  /-- Into a comment at the end of the code. -/
  | inline
  /-- Beside the code and into a comment. -/
  | both
deriving DecidableEq, Repr

namespace MapMode

/-- Whether the map goes into a comment. -/
def isInline : MapMode → Bool
  | inline | both => true
  | none | external => false

/-- Whether the map goes beside the code. -/
def isExternal : MapMode → Bool
  | external | both => true
  | none | inline => false

end MapMode

/-- What a build sets for all its files. -/
structure Options where
  /-- Whether marked elements become client boundaries. -/
  clientBoundaries : Bool := false
  development : Bool := false
  rootDirectory : Option String := none
  bundler : Bundler := .vite
  sourceMap : MapMode := .external
  /-- Where the run-time components are imported from. -/
  runtimeUrl : Option String := none
deriving DecidableEq, Repr

namespace Options

/-- Where the run-time components are imported from, if nothing is set. -/
def defaultRuntimeUrl : String := "#islands"

/-- Where the run-time components are imported from. -/
def runtimeUrlOrDefault (o : Options) : String := o.runtimeUrl.getD defaultRuntimeUrl

/-- The root directory that boundaries carry: only a development build gives one. -/
def boundaryRoot? (o : Options) : Option String :=
  if o.development then o.rootDirectory else none

end Options

end Islands
