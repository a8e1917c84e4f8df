import Islands.Text.Span
import Islands.ComponentFile.Region

/-!
# The blocks of a component file

* `Blocks.ofSource`: the first template block that has content and all script blocks of a file.
* `Blocks.importScript?`: the script block that imports go into.
-/

namespace Islands.ComponentFile

/-- A template block: the whole of it, and what stands between its tags. -/
structure TemplateBlock where
  span : Span
  content : Span
deriving DecidableEq, Repr

/-- A script block; `setup` says whether its tag has the attribute of that name without a value. -/
structure ScriptBlock where
  openTag : Span
  setup : Bool
deriving DecidableEq, Repr

/-- The blocks that matter to a file's template. -/
structure Blocks where
  template : Option TemplateBlock
  scripts : List ScriptBlock
deriving DecidableEq, Repr

/-! ## Words of a tag -/

/-- Puts a character in front of the first word. -/
def consFirst (c : Char) : List (List Char) → List (List Char)
  | [] => [[c]]
  | w :: ws => (c :: w) :: ws

/-- The words of a tag, divided at blanks, without quotation marks and what stands between them;
`mark` is the quotation mark that is open. -/
def bareWords (mark : Option Char) : List Char → List (List Char)
  | [] => [[]]
  | c :: cs =>
    match mark with
    | some q => bareWords (if c == q then none else some q) cs
    | none =>
      if c == '"' || c == '\'' then bareWords (some c) cs
      else if isBlank c then [] :: bareWords none cs
      else consFirst c (bareWords none cs)

/-- A tag without its angle brackets and the slash that closes it. -/
def tagInside (tag : List Char) : List Char :=
  ((((tag.dropWhile (· == '<')).reverse).dropWhile (· == '>')).dropWhile (· == '/')).reverse

/-- Whether a word stands bare in a tag, after the tag's name. -/
def hasBareWord (word tag : List Char) : Bool :=
  ((bareWords none (tagInside tag)).drop 1).contains word

/-! ## Places -/

/-- The template block that a region at `offset` is. -/
def Region.templateAt (offset : Nat) : Region → Option TemplateBlock
  | .template tag content close =>
    let start := offset + byteLength tag
    let stop := start + byteLength content
    some ⟨⟨offset, stop + byteLength close⟩, ⟨start, stop⟩⟩
  | _ => none

/-- The opening tag of the script block that a region is. -/
def Region.scriptTag? : Region → Option (List Char)
  | .selfClosed .script tag => some tag
  | .embedded .script tag _ => some tag
  | _ => none

/-- The script block that a region at `offset` is. -/
def Region.scriptAt (offset : Nat) (r : Region) : Option ScriptBlock :=
  r.scriptTag?.map fun tag =>
    ⟨⟨offset, offset + byteLength tag⟩, hasBareWord "setup".toList tag⟩

namespace Blocks

/-- The blocks among regions of which the first is at `offset`. -/
def ofRegions (offset : Nat) : List Region → Blocks
  | [] => ⟨none, []⟩
  | r :: rs =>
    let later := ofRegions (offset + byteLength r.text) rs
    ⟨(r.templateAt offset).or later.template, (r.scriptAt offset).toList ++ later.scripts⟩

/-- The blocks of a file. -/
def ofSource (source : List Char) : Blocks := ofRegions 0 (regions source)

/-- The script block that imports go into: the first one marked `setup`, else the first one. -/
def importScript? (b : Blocks) : Option ScriptBlock :=
  (b.scripts.find? (·.setup)).or b.scripts.head?

end Blocks

end Islands.ComponentFile
