/-!
# Paths without detours

Two spellings of one path are compared by their normal forms: separators are `/`, no segment is
empty or `.`, and `..` takes back the segment before it. Nothing is looked up on disk.

* `Path.resolve`: the segments that are left of a list of segments.
* `Path.normalForm`: the normal form of a path.
-/

namespace Islands.Path

/-- The segments of a path between its separators; a backslash is one too. -/
def segments (cs : List Char) : List (List Char) :=
  (cs.map fun c => if c = '\\' then '/' else c).splitOn '/'

/-- Whether a path starts at the root. -/
def isAbsolute : List Char → Bool
  | c :: _ => c == '/' || c == '\\'
  | [] => false

/-- The effect of a `..` on the segments so far, the last one first. If it finds none to take back,
it is kept, but not above the root. -/
def goUp (absolute : Bool) : List (List Char) → List (List Char)
  | [] => if absolute then [] else [['.', '.']]
  | last :: before =>
    if last = ['.', '.'] then (if absolute then last :: before else ['.', '.'] :: last :: before)
    else before

/-- The effect of a segment on the segments so far, the last one first. -/
def step (absolute : Bool) (done : List (List Char)) (s : List Char) : List (List Char) :=
  if s = [] ∨ s = ['.'] then done
  else if s = ['.', '.'] then goUp absolute done
  else s :: done

/-- The segments that are left of a list of segments. -/
def resolve (absolute : Bool) (segments : List (List Char)) : List (List Char) :=
  (segments.foldl (step absolute) []).reverse

/-- The normal form of a path. -/
def normalForm (path : String) : String :=
  let absolute := isAbsolute path.toList
  let joined := (['/'] : List Char).intercalate (resolve absolute (segments path.toList))
  String.ofList (if absolute then '/' :: joined else joined)

end Islands.Path
