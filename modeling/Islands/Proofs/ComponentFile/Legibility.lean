import Islands.Proofs.ComponentFile.Passing
import Islands.Proofs.Markup.Tiling

/-!
# Markup in which blocks are easy to find

The blocks of a file are found by a look at its text, and the elements of markup by reading it in
full. Markup is legible if the look is not led astray: what is not the tag of a block does not look
like one, the tag of a block ends where it seems to, and the content of a script or style block
holds nothing that looks like its end (`Node.legible`). Each condition is on the text of one node.

* `blockNamed?`: the block that an element is by its name.
* `legible_nodeAt`: the conditions on a node, read off the part that it was written as.
-/

namespace Islands.ComponentFile

open Markup

/-! ## Elements that are blocks -/

/-- The block that an element of this name is, in any case. -/
def blockNamed? (name : List Char) : Option BlockName :=
  [BlockName.template, .script, .style].find? fun b => sameLetters name b.letters

/-- The block that the reading of blocks sees in an element of this name: in a template only the
templates count. -/
def blockSeen? (inside : Bool) (name : List Char) : Option BlockName :=
  (blockNamed? name).filter fun b => !inside || b == .template

/-- Whether what is inside an element of this name is inside a template. -/
def isInside (inside : Bool) (name : List Char) : Bool :=
  inside || blockNamed? name == some .template

/-! ## Legible markup -/

/-- Whether an opening tag ends where it seems to by its quotation marks, and seems to close itself
exactly if there is no closing tag. -/
def isPlainTag (tag : List Char) (closed : Bool) : Bool :=
  readTag none tag == some (tag, []) && isSelfClosing tag == !closed

/-- Whether no beginning of a closing tag of this name, in any case, is in a text. -/
def hidesClose (name : BlockName) (body : List Char) : Bool :=
  (splitBeforeLetters ('<' :: '/' :: name.letters) body).isNone

/-- Whether the reading of blocks takes an element for what it is, by its tags and its content;
`children` says so of what is inside it. -/
def isLegible (inside : Bool) (name tag content : List Char) (close : Option (List Char))
    (children : Bool) : Bool :=
  match blockSeen? inside name with
  | none => passes inside tag && children && close.all (passes inside)
  | some .template => isPlainTag tag close.isSome && children
  | some block => isPlainTag tag close.isSome && hidesClose block content

mutual

/-- Whether the reading of blocks takes a node of the text `cs` for what it is. `inside` says whether
the node is inside a template. -/
def Node.legible (cs : List Char) (inside : Bool) : Node → Bool
  | .text span => passes inside (span.cut cs)
  | .comment span => passes inside (span.cut cs)
  | .element shell children =>
    isLegible inside shell.name.toList (shell.openTag.cut cs)
      ((shell.inner?.map fun s => s.cut cs).getD []) (shell.closeTag.map fun s => s.cut cs)
      (legibleAll cs (isInside inside shell.name.toList) children)

/-- Whether the reading of blocks takes all of some nodes for what they are. -/
def legibleAll (cs : List Char) (inside : Bool) : List Node → Bool
  | [] => true
  | n :: ns => Node.legible cs inside n && legibleAll cs inside ns

end

/-! ## Legible parts -/

mutual

/-- Whether the reading of blocks takes a part for what it is. -/
def Part.legible (inside : Bool) : Part → Bool
  | .text body => passes inside body
  | .comment body => passes inside body
  | .single tag => isLegible inside tag.name tag.written [] none true
  | .raw tag body close =>
    isLegible inside tag.name tag.written body (some close.written)
      (passes (isInside inside tag.name) body)
  | .element tag children close =>
    isLegible inside tag.name tag.written (writtenOf children) (some close.written)
      (legibleParts (isInside inside tag.name) children)

/-- Whether the reading of blocks takes all of some parts for what they are. -/
def legibleParts (inside : Bool) : List Part → Bool
  | [] => true
  | p :: ps => Part.legible inside p && legibleParts inside ps

end

theorem legibleAll_rawContent (inside : Bool) (pre body post : List Char) :
    legibleAll (pre ++ (body ++ post)) inside (Assembly.rawContent (byteLength pre) body) =
      passes inside body := by
  unfold Assembly.rawContent
  cases body with
  | nil => rw [passes]; rfl
  | cons c body =>
    rw [if_neg (by simp), legibleAll, legibleAll, Node.legible, cut_spanAt, Bool.and_true]

/-- An element with a closing tag, by the texts of its tags and what is between them. -/
theorem legible_closed (inside : Bool) (pre content close post : List Char) (tag : OpenTag)
    (children : List Node) :
    Node.legible (pre ++ (tag.written ++ (content ++ (close ++ post)))) inside
        (.element (tag.shellAt (byteLength pre) (some
          (spanAt (byteLength pre + byteLength tag.written + byteLength content) close))) children) =
      isLegible inside tag.name tag.written content (some close)
        (legibleAll (pre ++ (tag.written ++ (content ++ (close ++ post))))
          (isInside inside tag.name) children) := by
  have hinner := Span.cut_append (pre ++ tag.written) content (close ++ post)
  rw [byteLength_append, List.append_assoc] at hinner
  have hclose := cut_spanAt (pre ++ (tag.written ++ content)) close post
  simp only [byteLength_append, List.append_assoc, ← Nat.add_assoc] at hclose
  rw [Node.legible]
  simp only [OpenTag.shellAt, Shell.inner?, Option.map_some, Option.getD_some, String.toList_ofList]
  rw [hclose, cut_spanAt]
  exact congrArg (fun text => isLegible inside tag.name tag.written text _ _) hinner

mutual

/-- **The node of a part** that stands behind `pre` is legible exactly if the part is. -/
theorem legible_nodeAt (inside : Bool) (pre post : List Char) :
    ∀ p : Part, Node.legible (pre ++ (p.written ++ post)) inside (p.nodeAt (byteLength pre)) =
      Part.legible inside p
  | .text body => by
    rw [Part.written_text, Part.nodeAt, Node.legible, cut_spanAt, Part.legible]
  | .comment body => by
    rw [Part.written_comment, Part.nodeAt, Node.legible, cut_spanAt, Part.legible]
  | .single tag => by
    simp only [Part.written_single, Part.nodeAt, Node.legible, OpenTag.shellAt, Part.legible,
      cut_spanAt, String.toList_ofList, Shell.inner?, Option.map_none, Option.getD_none, legibleAll]
  | .raw tag body close => by
    have h := legibleAll_rawContent (isInside inside tag.name) (pre ++ tag.written) body
      (close.written ++ post)
    rw [byteLength_append, List.append_assoc] at h
    rw [Part.nodeAt, Part.written_raw, List.append_assoc, List.append_assoc, legible_closed, h,
      Part.legible]
  | .element tag children close => by
    have h := legibleAll_nodesAt (isInside inside tag.name) (pre ++ tag.written)
      (close.written ++ post) children
    rw [byteLength_append, List.append_assoc] at h
    rw [Part.nodeAt, Part.written_element, List.append_assoc, List.append_assoc, legible_closed, h,
      Part.legible]

theorem legibleAll_nodesAt (inside : Bool) (pre post : List Char) :
    ∀ ps : List Part, legibleAll (pre ++ (writtenOf ps ++ post)) inside
      (nodesAt (byteLength pre) ps) = legibleParts inside ps
  | [] => rfl
  | p :: ps => by
    have h := legibleAll_nodesAt inside (pre ++ p.written) post ps
    rw [byteLength_append, List.append_assoc] at h
    rw [nodesAt_cons, legibleAll, legibleParts, writtenOf_cons, List.append_assoc,
      legible_nodeAt inside pre (writtenOf ps ++ post) p, h]

end

end Islands.ComponentFile
