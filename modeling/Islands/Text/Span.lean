/-!
# Byte offsets into a text

Texts are lists of characters; places in them are byte offsets of their UTF-8 form, so that a
place means the same to every reader of the file.

* `byteLength`: the length of a text in bytes, additive over `++`.
* `takeBytes`, `dropBytes`: a text cut at an offset; `takeBytes_append` and `dropBytes_append` say
  that a cut at the end of a part gives back the parts.
* `Span`: a range of offsets, and `Span.cut`, the text it covers.
* `isBoundary`: whether an offset falls between two characters.
-/

namespace Islands

/-! ## Length -/

/-- The number of bytes in the UTF-8 form of a text. -/
def byteLength : List Char → Nat
  | [] => 0
  | c :: cs => c.utf8Size + byteLength cs

@[simp] theorem byteLength_nil : byteLength [] = 0 := rfl

@[simp] theorem byteLength_cons (c : Char) (cs : List Char) :
    byteLength (c :: cs) = c.utf8Size + byteLength cs := rfl

@[simp] theorem byteLength_append (a b : List Char) :
    byteLength (a ++ b) = byteLength a + byteLength b := by
  induction a with
  | nil => simp
  | cons c a ih => simp [ih, Nat.add_assoc]

theorem byteLength_pos {cs : List Char} (h : cs ≠ []) : 0 < byteLength cs := by
  cases cs with
  | nil => exact absurd rfl h
  | cons c cs => have := Char.utf8Size_pos c; simp only [byteLength_cons]; omega

/-! ## Cuts -/

/-- The characters of a text that start in its first `n` bytes. -/
def takeBytes : Nat → List Char → List Char
  | 0, _ => []
  | _, [] => []
  | n + 1, c :: cs => c :: takeBytes (n + 1 - c.utf8Size) cs

/-- What `takeBytes` leaves. -/
def dropBytes : Nat → List Char → List Char
  | 0, cs => cs
  | _, [] => []
  | n + 1, c :: cs => dropBytes (n + 1 - c.utf8Size) cs

theorem takeBytes_append_dropBytes (n : Nat) (cs : List Char) :
    takeBytes n cs ++ dropBytes n cs = cs := by
  induction cs generalizing n with
  | nil => cases n <;> simp [takeBytes, dropBytes]
  | cons c cs ih => cases n <;> simp [takeBytes, dropBytes, ih]

@[simp] theorem takeBytes_append (a b : List Char) : takeBytes (byteLength a) (a ++ b) = a := by
  induction a with
  | nil => simp [takeBytes]
  | cons c a ih =>
    have hc := Char.utf8Size_pos c
    obtain ⟨n, hn⟩ : ∃ n, c.utf8Size + byteLength a = n + 1 :=
      ⟨c.utf8Size + byteLength a - 1, by omega⟩
    simp only [byteLength_cons, List.cons_append, hn, takeBytes]
    rw [← hn, Nat.add_sub_cancel_left, ih]

@[simp] theorem dropBytes_append (a b : List Char) : dropBytes (byteLength a) (a ++ b) = b := by
  have h := takeBytes_append_dropBytes (byteLength a) (a ++ b)
  rw [takeBytes_append] at h
  exact List.append_cancel_left h

/-- Whether the offset `n` is the start of a character or the end of the text. -/
def isBoundary : Nat → List Char → Bool
  | 0, _ => true
  | _, [] => false
  | n + 1, c :: cs => c.utf8Size ≤ n + 1 && isBoundary (n + 1 - c.utf8Size) cs

/-! ## Spans -/

/-- A range of byte offsets; `stop` is the first offset after it. -/
structure Span where
  start : Nat
  stop : Nat
deriving DecidableEq, Repr, Inhabited

namespace Span

/-- The same range in a text that has `n` more bytes in front. -/
def shift (n : Nat) (s : Span) : Span := ⟨n + s.start, n + s.stop⟩

/-- The part of a text that the span covers. -/
def cut (s : Span) (cs : List Char) : List Char :=
  takeBytes (s.stop - s.start) (dropBytes s.start cs)

/-- The part of a text that the span covers, as a string. -/
def text (s : Span) (cs : List Char) : String := String.ofList (s.cut cs)

theorem cut_append (a b c : List Char) :
    cut ⟨byteLength a, byteLength a + byteLength b⟩ (a ++ (b ++ c)) = b := by
  simp [cut]

@[simp] theorem shift_zero (s : Span) : s.shift 0 = s := by simp [shift]

theorem shift_shift (m n : Nat) (s : Span) : (s.shift n).shift m = s.shift (m + n) := by
  simp [shift, Nat.add_assoc]

end Span

end Islands
