import Mathlib.Data.List.Induction
import Islands.Wrapper.File
import Islands.Proofs.ComponentFile.BlockPlaces
import Islands.Proofs.Markup.FaultPlaces
import Islands.Proofs.Markup.TokenForm

/-!
# Templates that cannot be read

A file whose template cannot be read stays as it is, and the only message about it is an error
(`rejected_wrapFile`). What the message shows is in the template: each label covers some of its
characters and has the line and the column where they start in the file.

* `lineColumn_append`: the line and the column of a place between two characters.
-/

namespace Islands

open Markup ComponentFile

/-! ## Lines and columns -/

/-- The characters of a text behind its last line feed. -/
def openLine (cs : List Char) : List Char := (cs.reverse.takeWhile (· != '\n')).reverse

theorem openLine_append_singleton (cs : List Char) (c : Char) :
    openLine (cs ++ [c]) = if c = '\n' then [] else openLine cs ++ [c] := by
  unfold openLine
  rw [List.reverse_append, List.reverse_singleton, List.singleton_append, List.takeWhile_cons]
  by_cases hc : c = '\n'
  · simp [hc]
  · simp [hc]

theorem lineColumn_add (line column n : Nat) (a b : List Char) :
    lineColumn line column (byteLength a + n) (a ++ b) =
      lineColumn (lineColumn line column (byteLength a) a).1
        (lineColumn line column (byteLength a) a).2 n b := by
  induction a generalizing line column with
  | nil => rw [byteLength_nil, Nat.zero_add, List.nil_append, lineColumn]
  | cons c a ih =>
    have hsize := Char.utf8Size_pos c
    have hrest : ∀ k, c.utf8Size + byteLength a + k - c.utf8Size = byteLength a + k := by
      intro k
      omega
    have hstep : ∀ k cs, lineColumn line column (c.utf8Size + byteLength a + k) (c :: cs) =
        if c = '\n' then lineColumn (line + 1) 0 (byteLength a + k) cs
        else lineColumn line (column + 1) (byteLength a + k) cs := by
      intro k cs
      rw [lineColumn, if_neg (by omega), hrest]
    have hfront := hstep 0 a
    rw [Nat.add_zero, Nat.add_zero] at hfront
    rw [byteLength_cons, List.cons_append, hstep, hfront]
    split
    · exact ih (line + 1) 0
    · exact ih line (column + 1)

/-- **Lines and columns**: a line for each line feed before the place, and a column for each
character behind the last of them. -/
theorem lineColumn_append (a b : List Char) :
    lineColumn 1 0 (byteLength a) (a ++ b) = (1 + a.count '\n', (openLine a).length) := by
  have hfront : lineColumn 1 0 (byteLength a) a = (1 + a.count '\n', (openLine a).length) := by
    induction a using List.reverseRecOn with
    | nil => rfl
    | append_singleton a c ih =>
      have hsize := Char.utf8Size_pos c
      have hlength : byteLength (a ++ [c]) = byteLength a + c.utf8Size := by simp
      rw [hlength, lineColumn_add, ih, lineColumn, if_neg (by omega), openLine_append_singleton,
        Nat.sub_self, List.count_append]
      by_cases hc : c = '\n'
      · subst hc
        rfl
      · rw [if_neg hc, if_neg hc, lineColumn, List.count_singleton, beq_false_of_ne hc,
          List.length_append]
        rfl
  have hadd := lineColumn_add 1 0 0 a b
  rw [Nat.add_zero, hfront] at hadd
  rw [hadd]
  cases b <;> simp [lineColumn]

/-! ## Labels -/

/-- A label covers some characters of the part `content` of a file, and says in which line and
column of the file they start. -/
structure Diagnostic.Label.IsWithin (source : List Char) (content : Span)
    (l : Diagnostic.Label) : Prop where
  start_le : content.start ≤ l.span.start
  start_lt : l.span.start < l.span.stop
  stop_le : l.span.stop ≤ content.stop
  boundaries : l.span.OnBoundaries source
  position : ∃ before after, source = before ++ after ∧ byteLength before = l.span.start ∧
    l.line = 1 + before.count '\n' ∧ l.column = (openLine before).length

theorem isWithin_of_marks {cs : List Char} {s : Span} (pre post : List Char)
    (text : Option String) (h : s.Marks cs) :
    (Diagnostic.Label.at (pre ++ (cs ++ post)) text (s.shift (byteLength pre))).IsWithin
      (pre ++ (cs ++ post)) ⟨byteLength pre, byteLength pre + byteLength cs⟩ := by
  have hle := h.le
  have hmarks := h.shift pre post
  obtain ⟨before, m, after, hsource, -, hspan⟩ := hmarks
  have hstart : (s.shift (byteLength pre)).start = byteLength before := by rw [hspan]
  refine ⟨Nat.le_add_right .., (h.shift pre post).lt, Nat.add_le_add_left hle _,
    (h.shift pre post).onBoundaries, before, m ++ after, hsource, hstart.symm, ?_⟩
  have hplace := lineColumn_append before (m ++ after)
  rw [← hsource, ← hstart] at hplace
  unfold Diagnostic.Label.at
  rw [hplace]
  exact ⟨rfl, rfl⟩

/-! ## Files -/

/-- A file that stays as it is, with one error about the part `content` of it. -/
structure Rejected (source : List Char) (content : Span) (o : Outcome) : Prop where
  code : o.code = none
  map : o.map = ""
  slots : o.slots = []
  boundaries : o.boundaries = []
  message : ∃ d, o.diagnostics = [d] ∧ d.severity = .error ∧ d.labels ≠ [] ∧
    ∀ l ∈ d.labels, l.IsWithin source content

/-- **A template that cannot be read** leaves the file as it is, and the only message is an error
with labels in the template. -/
theorem rejected_wrapFile {source : String} {t : TemplateBlock} {e : ParseError} (id : String)
    (options : Options) (ht : (Blocks.ofSource source.toList).template = some t)
    (hlook : mayContainTargets (t.content.cut source.toList) = true)
    (hparse : parse (t.content.cut source.toList) = .error e) :
    Rejected source.toList t.content (wrapFile id source options) := by
  obtain ⟨pre, post, hsource, hstart, hstop⟩ := template_place ht
  have hcontent : t.content =
      ⟨byteLength pre, byteLength pre + byteLength (t.content.cut source.toList)⟩ := by
    rw [← hstop, ← hstart]
  simp only [wrapFile, wrapTemplate, ht, hlook, hparse]
  refine ⟨rfl, rfl, rfl, rfl, _, rfl, rfl, ?_, fun l hl => ?_⟩
  · simpa [Diagnostic.ofReport, ParseError.report] using e.labels_ne_nil
  · simp only [Diagnostic.ofReport, ParseError.report, List.map_map, List.mem_map,
      Function.comp_apply] at hl
    obtain ⟨label, hlabel, rfl⟩ := hl
    have hwithin := isWithin_of_marks pre post (some label.text)
      (pointsInto_of_parse hparse label hlabel)
    rwa [← hsource, ← hcontent, ← hstart] at hwithin

/-- A template with a closing tag that matches no element, behind characters of several bytes. -/
def strayClosing : String := "<template>é\n<slot>ü</p></slot></template>"

theorem rejected_wrapFile_strayClosing :
    ∃ t e, (Blocks.ofSource strayClosing.toList).template = some t ∧
      mayContainTargets (t.content.cut strayClosing.toList) = true ∧
      parse (t.content.cut strayClosing.toList) = .error e ∧
      Rejected strayClosing.toList t.content (wrapFile "a.vue" strayClosing {}) := by
  have ht : (Blocks.ofSource strayClosing.toList).template = some ⟨⟨0, 43⟩, ⟨10, 32⟩⟩ := by decide +kernel
  have hlook : mayContainTargets
      ((⟨10, 32⟩ : Span).cut strayClosing.toList) = true := by decide +kernel
  have hparse : parse ((⟨10, 32⟩ : Span).cut strayClosing.toList) =
      .error (.mismatchedClosingTag "p" ⟨11, 15⟩ "slot" ⟨3, 9⟩) := by decide +kernel
  exact ⟨_, _, ht, hlook, hparse, rejected_wrapFile "a.vue" {} ht hlook hparse⟩

end Islands
