import Islands.ComponentFile.Blocks
import Islands.Diagnostic
import Islands.Markup.Parser
import Islands.ModuleId
import Islands.Wrapper.Boundary
import Islands.Wrapper.Slot
import Islands.SourceMap.Builder

/-!
# The wrappers of a component file

The template of a file is read, its targets are replaced one after the other, and the imports that
the wrappers need go into a script. A target that cannot be wrapped stays, with a warning; a
template that cannot be read leaves the file as it is.

* `Site.replacement`: what takes the place of one target.
* `wrapTargets`, `wrapTemplate`: the result for a file whose targets, or whose template, are known.
* `wrapFile`: the result for a file; most are left alone after a look at the text of the template.
-/

namespace Islands

open Markup ComponentFile

/-! ## Results -/

/-- The result for a file: the new code, unless nothing was replaced, its source map, messages,
and the names of the slots and the addresses of the boundaries that were replaced. -/
structure Outcome where
  code : Option String := none
  map : String := ""
  diagnostics : List Diagnostic := []
  slots : List String := []
  boundaries : List String := []
deriving DecidableEq, Repr

namespace Outcome

/-- The file stays as it is. -/
def asIs (diagnostics : List Diagnostic) : Outcome := { diagnostics }

/-- Whether there is new code. -/
def hasCode (o : Outcome) : Bool := o.code.isSome

/-- Whether one of the messages is an error. -/
def hasError (o : Outcome) : Bool := o.diagnostics.any Diagnostic.isError

end Outcome

/-! ## One target -/

/-- A template, the file that it is in, and the offset at which it starts there. -/
structure Site where
  id : String
  source : List Char
  base : Nat
  template : List Char
  options : Options
deriving DecidableEq, Repr

/-- What a replacement adds to the result. -/
inductive Record
  | slot (name : String)
  | boundary (target : String)
deriving DecidableEq, Repr

/-- What takes the place of a target. -/
structure Replacement where
  text : String
  record : Record
deriving DecidableEq, Repr

namespace Site

/-- The place in the file of a span of the template. -/
def place (site : Site) (span : Span) : Span := span.shift site.base

/-- What takes the place of a target. -/
def replacement (site : Site) (e : Element) : Except WrapError Replacement :=
  match kindOf e.toShell with
  | .slot => (wrapSlot site.template e).map fun r => ⟨r.1, .slot r.2.text⟩
  | _ =>
    (wrapBoundary site.template site.id site.base site.options.boundaryRoot? e).map
      fun r => ⟨r.1, .boundary r.2⟩

/-- The warning about a target that stays. -/
def failure (site : Site) (e : Element) (cause : WrapError) : Diagnostic :=
  .warningAt site.source ("Could not rewrite `<" ++ e.name ++ ">`: " ++ cause.message)
    "The element is left unchanged." (site.place e.openTag)

/-- The warning about the first boundary that cannot be addressed. -/
def refusal (site : Site) (openTag : Span) : Diagnostic :=
  .warningAt site.source
    ("Client boundaries are not supported when building with " ++ site.options.bundler.name ++
      "; elements marked with `" ++ markerName ++ "` are rendered on the server.")
    "Build with Vite to hydrate marked elements independently." (site.place openTag)

/-- Records the replacement of a target as an edit of the file. -/
def replace (site : Site) (draft : Draft) (e : Element) : Except WrapError (Draft × Record) :=
  match site.replacement e with
  | .error cause => .error cause
  | .ok r =>
    match draft.replaceRange (site.place e.span) r.text with
    | .error cause => .error (.edit cause)
    | .ok draft => .ok (draft, r.record)

end Site

/-! ## All targets -/

/-- What has been done to a file so far. -/
structure Progress where
  draft : Draft
  diagnostics : List Diagnostic := []
  slots : List String := []
  boundaries : List String := []
deriving DecidableEq, Repr

namespace Progress

/-- Adds a replacement to the lists that are reported. -/
def note (p : Progress) : Record → Progress
  | .slot name => { p with slots := p.slots ++ [name] }
  | .boundary target => { p with boundaries := p.boundaries ++ [target] }

/-- Replaces a target, or warns about it. -/
def wrap (site : Site) (p : Progress) (e : Element) : Progress :=
  match site.replace p.draft e with
  | .ok (draft, record) => { p with draft }.note record
  | .error cause => { p with diagnostics := p.diagnostics ++ [site.failure e cause] }

end Progress

/-! ## Imports -/

/-- The imports that wrappers need, each on a line of its own. -/
def importText (runtimeUrl : String) : String :=
  "\nimport \x7b mergeProps as " ++ mergeFunction ++ " \x7d from 'vue'" ++
  "\nimport \x7b iterToArray as " ++ roundsFunction ++ " \x7d from '" ++ runtimeUrl ++ "/utils'" ++
  "\nimport " ++ boundaryComponent ++ " from '" ++ runtimeUrl ++ "/island-boundary'" ++
  "\nimport " ++ slotComponent ++ " from '" ++ runtimeUrl ++ "/island-slot'"

/-- The script block that imports go into where a file has none. -/
def importBlock (imports : String) : String := "<script setup>" ++ imports ++ "\n</script>\n"

/-- Puts the imports into the script block for them, or a new one in front of the file. -/
def addImports (blocks : Blocks) (imports : String) (draft : Draft) : Except EditFault Draft :=
  match blocks.importScript? with
  | some script => draft.insertAt script.openTag.stop .right imports
  | none => .ok (draft.addInFront (importBlock imports))

/-! ## Output -/

/-- The comment that tells where the source map of the code above it is. -/
def mapComment (url : String) : String := "\n//# sourceMappingURL=" ++ url

/-- The code of an edited file and its source map, each as the options ask for it. -/
def emit (options : Options) (id : String) (draft : Draft) : String × String :=
  let map := draft.sourceMap (ModuleId.pathPart id)
  (draft.text ++ (if options.sourceMap.isInline then mapComment map.dataUrl else ""),
    if options.sourceMap.isExternal then map.json else "")

/-- The result for a file whose targets have been seen to. -/
def Progress.finish (p : Progress) (site : Site) (blocks : Blocks) : Outcome :=
  if !p.draft.isEdited then .asIs p.diagnostics
  else
    match addImports blocks (importText site.options.runtimeUrlOrDefault) p.draft with
    | .error _ => .asIs p.diagnostics
    | .ok draft =>
      let (code, map) := emit site.options site.id draft
      ⟨some code, map, p.diagnostics, p.slots, p.boundaries⟩

/-! ## Files -/

/-- What a fault in a template is reported as. -/
def Markup.ParseError.report (e : ParseError) : Report :=
  ⟨.error, e.message, e.help?, e.labels.map fun l => (some l.text, l.span)⟩

/-- The result for a file whose targets are known: they are replaced in document order, and the
first boundary that cannot be addressed is warned about. -/
def wrapTargets (site : Site) (blocks : Blocks) (found : Findings) : Outcome :=
  let p := found.targets.foldl (Progress.wrap site) { draft := .ofSource site.source }
  let p := { p with
    diagnostics := p.diagnostics ++ (found.refused.map site.refusal).toList }
  p.finish site blocks

/-- The result for a file with a template block. -/
def wrapTemplate (site : Site) (blocks : Blocks) : Outcome :=
  match parse site.template with
  | .error e => .asIs [.ofReport site.source site.base e.report]
  | .ok nodes => wrapTargets site blocks (findTargets site.options.policy nodes)

/-- The result for a file: a file without a template, or with one that can hold no target, stays
as it is. -/
def wrapFile (id source : String) (options : Options) : Outcome :=
  let cs := source.toList
  let blocks := Blocks.ofSource cs
  match blocks.template with
  | none => .asIs []
  | some t =>
    let site : Site := ⟨id, cs, t.content.start, t.content.cut cs, options⟩
    if mayContainTargets site.template then wrapTemplate site blocks else .asIs []

end Islands
