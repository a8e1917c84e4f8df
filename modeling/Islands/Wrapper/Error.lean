import Islands.Text.Quoted
import Islands.Draft.Basic

/-!
# Why an element is not wrapped

* `WrapError`: the causes; the element is left as it is.
* `WrapError.message`: the wording.
-/

namespace Islands

/-- A cause for leaving an element as it is. -/
inductive WrapError
  /-- The value of `v-for` does not say what is iterated. -/
  | invalidRepetition (directive : String)
  /-- A bound attribute has no expression. -/
  | emptyBinding (name : String)
  /-- The replacement cannot be recorded. -/
  | edit (cause : EditFault)
deriving DecidableEq, Repr

/-- The message about an element that is left as it is. -/
def WrapError.message : WrapError → String
  | invalidRepetition directive =>
    "`v-for` value " ++ quoted directive ++ " has no `in` or `of` clause"
  | emptyBinding name => "bound attribute `" ++ name ++ "` has no expression"
  | edit cause => cause.message

end Islands
