import Islands.Text.Span
import Islands.Registry.Manifest

/-!
# The file of the manifest

The manifest is written to a directory of the build's output, which is made first. The path of the
directory is relative to a base that need not be there yet.

* `Place`, `Place.walk`: where a path leads.
* `WriteFault`: why the manifest cannot be written.
* `Manifest.fileIn`: the file to write.
-/

namespace Islands

/-! ## Paths -/

/-- The name of the file that the module is written to. -/
def manifestFileName : String := "components.islands.mjs"

/-- The path of the manifest file in a directory, whose path is kept as it is written. -/
def pathWithin (directory : String) : String :=
  if directory.isEmpty || directory.toList.getLast? == some '/' then directory ++ manifestFileName
  else directory ++ "/" ++ manifestFileName

/-- The path of the manifest file in a directory, without the segments in front of it that lead
nowhere. -/
def manifestPath (directory : String) : String :=
  let segments := ((pathWithin directory).toList.splitOn '/').dropWhile fun s =>
    s == [] || s == ['.']
  String.ofList (['/'].intercalate segments)

/-- Whether a path is longer than a file system takes, as a whole or in one of its names. The
length is that of the path as written: segments that lead nowhere count. -/
def isTooLong (path : List Char) : Bool :=
  4095 < byteLength path || (path.splitOn '/').any (255 < byteLength ·)

/-- The names in a path: its segments that lead somewhere. -/
def pathNames (path : List Char) : List (List Char) :=
  (path.splitOn '/').filter fun s => !(s == [] || s == ['.'])

/-- Whether the last segment of a path is a `.`, with or without slashes behind it. -/
def endsInDot (path : List Char) : Bool :=
  ((path.splitOn '/').reverse.dropWhile (· == [])).head? == some ['.']

/-! ## Places -/

/-- A place seen from the base: some levels up, and from there down some names, the innermost one
first. -/
structure Place where
  up : Nat
  down : List (List Char)
deriving DecidableEq, Repr

namespace Place

/-- The base. -/
def base : Place := ⟨0, []⟩

/-- Where a name leads. -/
def enter (p : Place) (name : List Char) : Place :=
  if name = ['.', '.'] then
    match p.down with
    | [] => ⟨p.up + 1, []⟩
    | _ :: outer => ⟨p.up, outer⟩
  else ⟨p.up, name :: p.down⟩

/-- Where some names lead one after the other. -/
def follow (p : Place) (names : List (List Char)) : Place := names.foldl enter p

/-- The places that some names lead through, without the one they lead to. -/
def walk (p : Place) : List (List Char) → List Place
  | [] => []
  | name :: names => p :: (p.enter name).walk names

/-- Whether the place is above the base, and so there from the beginning. -/
def isAbove (p : Place) : Bool := 0 < p.up && p.down.isEmpty

end Place

/-- Whether making the directory of a path fails because nothing is there. The directories it
leads through are made one after the other, and then the one it leads to. But a path that ends in
`.` asks for what is inside that one, so it has to be there already. -/
def isMissing (path : List Char) : Bool :=
  let names := pathNames path
  let place := Place.base.follow names
  endsInDot path && !(place.isAbove || (Place.base.walk names).contains place)

/-- Whether a directory that the path leads through is in the place of the manifest file. -/
def isCovered (path : List Char) : Bool :=
  let names := pathNames path
  (Place.base.walk names).contains ((Place.base.follow names).enter manifestFileName.toList)

/-! ## Writing -/

/-- Why the manifest cannot be written to a directory. -/
inductive WriteFault
  /-- The path holds the character that ends paths. -/
  | nulInPath
  /-- A name in the path has more than 255 bytes, or the path more than 4095. -/
  | nameTooLong
  /-- A file stands where the directory should be. -/
  | occupied
  /-- The path leads through a directory that is not there. -/
  | missing
  /-- A directory stands where the file should be. -/
  | covered
deriving DecidableEq, Repr

namespace WriteFault

/-- What the system says about the fault. -/
def reason : WriteFault → String
  | nulInPath => "file name contained an unexpected NUL byte"
  | nameTooLong => "File name too long (os error 36)"
  | occupied => "File exists (os error 17)"
  | missing => "No such file or directory (os error 2)"
  | covered => "Is a directory (os error 21)"

/-- The message about a manifest that cannot be written. -/
def message (f : WriteFault) : String := "failed to write the chunk manifest: " ++ f.reason

end WriteFault

/-- Why no file can be written to a directory, if so; `taken` says that a file stands where the
directory should be. The directory is made before the file is written, so its faults come first. -/
def writeFault? (taken : Bool) (directory : String) : Option WriteFault :=
  let path := directory.toList
  if path.contains '\x00' then some .nulInPath
  else if isTooLong path then some .nameTooLong
  else if taken then some .occupied
  else if isMissing path then some .missing
  else if isTooLong (pathWithin directory).toList then some .nameTooLong
  else if isCovered path then some .covered
  else none

/-- A file to write. -/
structure ManifestFile where
  path : String
  text : String
deriving DecidableEq, Repr

/-- The file of a manifest in a directory. -/
def Manifest.fileIn (m : Manifest) (taken : Bool) (directory : String) :
    Except WriteFault ManifestFile :=
  match writeFault? taken directory with
  | some fault => .error fault
  | none => .ok ⟨manifestPath directory, m.moduleText⟩

end Islands
