/-!
# JSON text

The two shapes of JSON that are written: a string, and an object of strings over several lines.

* `Json.quote`: a string between double quotes.
* `Json.object`: an object, one member a line, indented by two spaces.
-/

namespace Islands.Json

/-- One character of a JSON string: the short escapes, then `\u00xx` for the other controls. -/
def escape (c : Char) : List Char :=
  match c with
  | '"' => ['\\', '"']
  | '\\' => ['\\', '\\']
  | '\x08' => ['\\', 'b']
  | '\t' => ['\\', 't']
  | '\n' => ['\\', 'n']
  | '\x0c' => ['\\', 'f']
  | '\r' => ['\\', 'r']
  | c =>
    if c.toNat < 0x20 then
      ['\\', 'u', '0', '0', Nat.digitChar (c.toNat / 16), Nat.digitChar (c.toNat % 16)]
    else [c]

/-- A string as JSON. -/
def quote (s : String) : String := String.ofList ('"' :: s.toList.flatMap escape ++ ['"'])

/-- A member of an object that stands on a line of its own. -/
def member (m : String × String) : String := "  " ++ quote m.1 ++ ": " ++ quote m.2

/-- An object of strings, its members in the order given. -/
def object (members : List (String × String)) : String :=
  if members.isEmpty then "\x7b\x7d"
  else "\x7b\n" ++ ",\n".intercalate (members.map member) ++ "\n\x7d"

end Islands.Json
