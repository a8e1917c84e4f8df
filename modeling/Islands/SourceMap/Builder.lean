import Islands.Json.Text
import Islands.Text.Utf8
import Islands.Draft.Runs
import Islands.SourceMap.Mapping

/-!
# Building a source map

The position in the output is kept up to date from the bytes written since the last mapping. The
output is only looked at when a mapping is added.

* `Position.advance`: the position after some more bytes of output.
* `MapBuilder.add`: a mapping from the end of the output so far to an offset of the source.
* `SourceMap.json`, `SourceMap.dataUrl`: the finished map as text.
* `Draft.sourceMap`: the map of an edited text.
-/

namespace Islands

/-! ## The position in the output -/

/-- The number of line ends in some bytes, added to `count`, and the bytes after the last one;
`line` are the bytes of the current line. -/
def lastLine (count : Nat) (line : List UInt8) : List UInt8 → Nat × List UInt8
  | [] => (count, line)
  | 13 :: 10 :: rest => lastLine (count + 1) rest rest
  | b :: rest =>
    if b = 10 ∨ b = 13 then lastLine (count + 1) rest rest else lastLine count line rest

/-- The number of UTF-16 code units that some bytes stand for; bytes that are no text count
nothing. -/
def units16OfBytes (bytes : List UInt8) : Nat :=
  match textOfBytes? bytes with
  | some cs => units16 cs
  | none => 0

/-- The position after some more bytes of output. -/
def Position.advance (p : Position) (bytes : List UInt8) : Position :=
  let (count, line) := lastLine 0 bytes bytes
  if count = 0 then ⟨p.line, p.column + units16OfBytes bytes⟩
  else ⟨p.line + count, units16OfBytes line⟩

/-! ## The builder -/

/-- A source map in the making: the source and the table of its lines, the number of bytes of
output that `generated` accounts for, the offset that the last mapping led to, and the mappings. -/
structure MapBuilder where
  path : String
  source : String
  lines : LineIndex
  consumed : Nat := 0
  generated : Position := ⟨0, 0⟩
  lastOffset : Option Nat := none
  mappings : Array Mapping := #[]

namespace MapBuilder

/-- No mappings yet for a source at some path. -/
def ofSource (path source : String) : MapBuilder :=
  { path, source, lines := LineIndex.ofText source.toList }

/-- Maps the end of the output so far to an offset of the source. An offset equal to the one that
the last mapping led to adds nothing; one behind the source counts as its end. -/
def add (b : MapBuilder) (output : Array UInt8) (offset : Nat) : MapBuilder :=
  if b.lastOffset = some offset then b
  else
    let generated := b.generated.advance (output.extract b.consumed output.size).toList
    let offset := min offset b.lines.length
    { b with
      consumed := output.size
      generated
      lastOffset := some offset
      mappings := b.mappings.push ⟨generated, b.lines.position offset⟩ }

end MapBuilder

/-! ## The map -/

/-- A source map of one source. -/
structure SourceMap where
  path : String
  source : String
  mappings : List Mapping
deriving DecidableEq, Repr

/-- The finished map. -/
def MapBuilder.finish (b : MapBuilder) : SourceMap := ⟨b.path, b.source, b.mappings.toList⟩

namespace SourceMap

/-- The map as JSON. -/
def json (m : SourceMap) : String :=
  "\x7b\"version\":3,\"names\":[],\"sources\":[" ++ Json.quote m.path ++
    "],\"sourcesContent\":[" ++ Json.quote m.source ++ "],\"mappings\":" ++
    Json.quote (mappingsText m.mappings) ++ "\x7d"

/-- The map as an address that holds it. -/
def dataUrl (m : SourceMap) : String :=
  "data:application/json;charset=utf-8;base64," ++
    String.ofList (base64 (utf8Bytes m.json.toList))

end SourceMap

/-! ## The map of an edited text -/

/-- Adds a mapping in front of each run that comes from the source; `output` is what has been
written before the runs. -/
def MapBuilder.addRuns (b : MapBuilder) (output : Array UInt8) : List Run → MapBuilder
  | [] => b
  | r :: rs =>
    let b := match r.origin with
      | some offset => b.add output offset
      | none => b
    b.addRuns (output ++ utf8Bytes r.text) rs

/-- The map of the edited text to its source at some path. -/
def Draft.sourceMap (b : Draft) (path : String) : SourceMap :=
  ((MapBuilder.ofSource path (String.ofList b.source)).addRuns #[] b.runs).finish

end Islands
