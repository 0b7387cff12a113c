import PhpLiteral.Template
import PhpLiteral.Value

/-!
# Errors of writing values

Why a value cannot be written or a template cannot be filled, with the message, the code and the advice that the
user is given (`DumpError`). Beside these errors, which are reported, the program stops where a sum of a column and
lengths leaves 64 bits (`Stop`).
-/

namespace PhpLiteral

/-- A value for which there is no PHP code. -/
inductive Unsupported
  | anonymousClass
  | closure
  | resource (kind : Text)
  deriving DecidableEq, Repr

/-- What the value is called. -/
def Unsupported.name : Unsupported → Text
  | anonymousClass => utf8 "anonymous class"
  | closure => utf8 "closure"
  | resource kind => utf8 "resource (" ++ kind ++ utf8 ")"

/-- Why a value cannot be written. -/
inductive DumpError
  | unsupported (what : Unsupported)
  /-- A container is nested too deep or holds itself. -/
  | recursion
  /-- A placeholder for a list of arguments was given something else than an array. -/
  | invalidArgument (placeholder : Placeholder) (found : Kind)
  | insufficientArguments
  | tooManyArguments (unused : Nat)
  deriving DecidableEq, Repr

namespace DumpError

/-- The message for the user. -/
def message : DumpError → Text
  | unsupported what => utf8 "cannot dump " ++ what.name
  | recursion => utf8 "nesting level too deep or recursive dependency"
  | invalidArgument placeholder found =>
    utf8 "argument for placeholder '" ++ placeholder.spelling ++ utf8 "' must be an array, got " ++ found.name
  | insufficientArguments => utf8 "insufficient number of arguments"
  | tooManyArguments _ => utf8 "insufficient number of placeholders"

/-- The code under which the error is documented. -/
def code : DumpError → Text
  | unsupported _ => utf8 "phplit::unsupported_value"
  | recursion => utf8 "phplit::recursion"
  | invalidArgument _ _ => utf8 "phplit::invalid_argument"
  | insufficientArguments => utf8 "phplit::insufficient_arguments"
  | tooManyArguments _ => utf8 "phplit::too_many_arguments"

/-- What the user can do about it. -/
def help? : DumpError → Option Text
  | unsupported _ =>
    some (utf8 "resources, capturing closures and anonymous classes have no PHP literal form")
  | recursion => some (utf8 "break the reference cycle or raise `max_depth`")
  | insufficientArguments => some (utf8 "every placeholder except '\\?' consumes one argument")
  | invalidArgument _ _ | tooManyArguments _ => none

end DumpError

/-- Why writing a value ends without a text. -/
inductive Stop
  | error (e : DumpError)
  /-- A sum of a column and lengths leaves 64 bits, and the program is aborted. -/
  | overflow
  deriving DecidableEq, Repr

end PhpLiteral
