import Islands.Registry.Component
import Islands.Wrapper.File

/-!
# Sessions

A build asks about file after file while its list of components changes. The list is read anew for
every question about a component file, and not at all for any other module.

* `wrapIfIsland`: the result for a file, given the components of the moment.
* `Session`: the options, the components of the moment, and the number of times they were read.
-/

namespace Islands

/-- The result for a file: one that is no island stays as it is. -/
def wrapIfIsland (components : Registry) (options : Options) (id source : String) :
    Except RegistryError Outcome :=
  match components.isIsland id with
  | .error e => .error e
  | .ok false => .ok (.asIs [])
  | .ok true => .ok (wrapFile id source options)

/-- A build at some moment. -/
structure Session where
  options : Options
  components : Registry := []
  reads : Nat := 0
deriving DecidableEq, Repr

namespace Session

/-- The list of components has changed. -/
def setComponents (s : Session) (components : Registry) : Session := { s with components }

/-- A question about a module has been asked. -/
def asked (s : Session) (id : String) : Session :=
  if ModuleId.isWholeComponent id then { s with reads := s.reads + 1 } else s

/-- Whether the file of a module is an island. -/
def isIsland (s : Session) (id : String) : Except RegistryError Bool × Session :=
  (s.components.isIsland id, s.asked id)

/-- The result for a file. -/
def wrap (s : Session) (id source : String) : Except RegistryError Outcome × Session :=
  (wrapIfIsland s.components s.options id source, s.asked id)

end Session

end Islands
