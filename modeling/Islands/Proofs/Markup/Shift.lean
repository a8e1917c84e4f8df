import Islands.Proofs.Markup.Parts

/-!
# Nodes in another place

A tree says where its nodes are, so the same markup behind more text gives the same tree with every
span moved.

* `Node.shift`, `shiftAll`: a tree whose spans are moved.
* `nodesAt_shift`: the nodes of parts that are written further behind.
-/

namespace Islands.Markup

/-! ## Moved trees -/

/-- The same attribute in a text with `n` more bytes in front. -/
def Attribute.shift (n : Nat) (a : Attribute) : Attribute := { a with span := a.span.shift n }

/-- The same tags in a text with `n` more bytes in front. -/
def Shell.shift (n : Nat) (s : Shell) : Shell :=
  ⟨s.name, s.attributes.map (Attribute.shift n), s.openTag.shift n, s.closeTag.map (Span.shift n)⟩

mutual

/-- The same node in a text with `n` more bytes in front. -/
def Node.shift (n : Nat) : Node → Node
  | .text span => .text (span.shift n)
  | .comment span => .comment (span.shift n)
  | .element shell children => .element (shell.shift n) (shiftAll n children)

/-- The same nodes in a text with `n` more bytes in front. -/
def shiftAll (n : Nat) : List Node → List Node
  | [] => []
  | node :: nodes => node.shift n :: shiftAll n nodes

end

/-! ## Parts in another place -/

theorem spanAt_shift (n offset : Nat) (w : List Char) :
    spanAt (n + offset) w = (spanAt offset w).shift n := by
  simp [spanAt, Span.shift, Nat.add_assoc]

theorem locateAttributes_shift (n offset : Nat) (as : List WrittenAttribute) :
    locateAttributes (n + offset) as =
      (locateAttributes offset as).map (Attribute.shift n) := by
  induction as generalizing offset with
  | nil => rfl
  | cons a as ih =>
    simp only [locateAttributes, List.map_cons, Nat.add_assoc, ih]
    rfl

theorem OpenTag.shellAt_shift (n offset : Nat) (t : OpenTag) (closeTag : Option Span) :
    t.shellAt (n + offset) (closeTag.map (Span.shift n)) = (t.shellAt offset closeTag).shift n := by
  simp only [OpenTag.shellAt, Shell.shift, OpenTag.attributesAt, spanAt_shift, Nat.add_assoc,
    locateAttributes_shift]

theorem rawContent_shift (n offset : Nat) (body : List Char) :
    Assembly.rawContent (n + offset) body = shiftAll n (Assembly.rawContent offset body) := by
  unfold Assembly.rawContent
  split
  · rfl
  · rw [spanAt_shift]
    rfl

mutual

theorem nodeAt_shift (n offset : Nat) : ∀ p : Part,
    p.nodeAt (n + offset) = (p.nodeAt offset).shift n
  | .text body => by rw [Part.nodeAt, spanAt_shift]; rfl
  | .comment body => by rw [Part.nodeAt, spanAt_shift]; rfl
  | .single tag => by
    have htag := tag.shellAt_shift n offset none
    rw [Option.map_none] at htag
    rw [Part.nodeAt, htag]
    rfl
  | .raw tag body close => by
    simp only [Part.nodeAt, Node.shift, ← OpenTag.shellAt_shift, Option.map_some, ← spanAt_shift,
      ← rawContent_shift, Nat.add_assoc]
  | .element tag children close => by
    simp only [Part.nodeAt, Node.shift, ← OpenTag.shellAt_shift, Option.map_some, ← spanAt_shift,
      ← nodesAt_shift n _ children, Nat.add_assoc]

/-- **Parts that are written further behind** are the same nodes, moved. -/
theorem nodesAt_shift (n offset : Nat) : ∀ ps : List Part,
    nodesAt (n + offset) ps = shiftAll n (nodesAt offset ps)
  | [] => rfl
  | p :: ps => by
    rw [nodesAt_cons, nodeAt_shift n offset p, Nat.add_assoc, nodesAt_shift n _ ps, nodesAt_cons]
    rfl

end

end Islands.Markup
