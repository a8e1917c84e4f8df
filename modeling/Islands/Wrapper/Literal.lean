import Islands.Text.Letter

/-!
# Quoting in generated code

Generated markup holds user text in two places: as string literals and keys in the expressions of
bound attributes, and as values of attributes.

* `stringLiteral`, `objectKey`: a text in an expression.
* `quoteAttribute`: a text as the value of an attribute.
-/

namespace Islands

/-! ## Expressions -/

/-- One character of a string literal: the backslash, the double quote and the line ends of
JavaScript are escaped. -/
def literalChar (c : Char) : List Char :=
  match c with
  | '\\' => ['\\', '\\']
  | '"' => ['\\', '"']
  | '\n' => ['\\', 'n']
  | '\r' => ['\\', 'r']
  | '\u2028' => "\\u2028".toList
  | '\u2029' => "\\u2029".toList
  | c => [c]

/-- A text as a string literal between double quotes. -/
def stringLiteral (s : String) : String :=
  String.ofList ('"' :: s.toList.flatMap literalChar ++ ['"'])

/-- Whether a character may start an identifier. -/
def isIdentifierStart (c : Char) : Bool := isLetter c || c == '_' || c == '$'

/-- Whether a character may go on an identifier. -/
def isIdentifierChar (c : Char) : Bool := isLetter c || isNumber c || c == '_' || c == '$'

/-- Whether a text can be the key of an object without quotes. -/
def isIdentifier (s : String) : Bool :=
  match s.toList with
  | [] => false
  | c :: cs => isIdentifierStart c && cs.all isIdentifierChar

/-- A text as the key of an object. -/
def objectKey (s : String) : String := if isIdentifier s then s else stringLiteral s

/-! ## Attributes -/

/-- One character of an attribute's value between single quotes, or between double quotes where
the value has none: only the ampersand is written as a reference. -/
def escapeAmp (c : Char) : List Char := if c = '&' then "&amp;".toList else [c]

/-- One character of an attribute's value between double quotes. -/
def escapeAmpQuote (c : Char) : List Char :=
  if c = '&' then "&amp;".toList else if c = '"' then "&quot;".toList else [c]

/-- A text as the value of an attribute, quotation marks included: double ones unless the text has
double and no single ones. -/
def quoteAttribute (s : String) : String :=
  let cs := s.toList
  if !cs.contains '"' then String.ofList ('"' :: cs.flatMap escapeAmp ++ ['"'])
  else if !cs.contains '\'' then String.ofList ('\'' :: cs.flatMap escapeAmp ++ ['\''])
  else String.ofList ('"' :: cs.flatMap escapeAmpQuote ++ ['"'])

end Islands
