import Islands.Registry.Path

/-!
# Module ids

A bundler names a module by a path, which a query may follow behind a `?`. A query that asks for a
type is about one block of a component file.

* `ModuleId.pathPart`, `ModuleId.queryPart`: the two parts of an id.
* `ModuleId.isWholeComponent`: whether an id stands for a whole component file.
* `ModuleId.file`: the file that an id stands for, in a form that can be compared.
-/

namespace Islands.ModuleId

/-- The path of an id: what stands before the first `?`. -/
def pathPart (id : String) : String := String.ofList (id.toList.takeWhile (· != '?'))

/-- The query of an id: what stands behind the first `?`. -/
def queryPart (id : String) : List Char := (id.toList.dropWhile (· != '?')).drop 1

/-- Whether an id stands for a whole component file, not for one of its blocks. -/
def isWholeComponent (id : String) : Bool :=
  !((queryPart id).splitOn '&').any ("type=".toList.isPrefixOf ·) &&
    ".vue".toList.isSuffixOf (pathPart id).toList

/-- The file of an id: the normal form of its path. -/
def file (id : String) : String := Path.normalForm (pathPart id)

end Islands.ModuleId
