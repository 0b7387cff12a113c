import PhpLiteral.Identifier

/-!
# Names of functions

The name of the function that rebuilds objects is a function or a static method, with or without namespaces:
identifiers joined by backslashes, perhaps one more backslash before them, perhaps `::` and a method behind them.
`factoryProblem?` finds the first part of a name that is none.
-/

namespace PhpLiteral

/-- Why a text does not name a function. -/
inductive FactoryProblem
  | empty
  /-- A part between backslashes is no identifier. -/
  | badSegment (segment : Text)
  /-- What follows the double colon is no identifier. -/
  | badMethod (method : Text)
  deriving DecidableEq, Repr

/-- The message about a name. -/
def FactoryProblem.message (name : Text) : FactoryProblem → Text
  | empty => utf8 "object factory cannot be empty"
  | badSegment segment =>
    utf8 "'" ++ segment ++ utf8 "' is not a valid PHP name segment in object factory '" ++ name ++ utf8 "'"
  | badMethod method =>
    utf8 "'" ++ method ++ utf8 "' is not a valid PHP method name in object factory '" ++ name ++ utf8 "'"

/-- The class and the method of a name, around the first double colon. -/
def splitMethod : Text → Text × Option Text
  | [] => ([], none)
  | b :: rest =>
    match b, rest with
    | Ascii.colon, Ascii.colon :: method => ([], some method)
    | b, rest =>
      let (className, method) := splitMethod rest
      (b :: className, method)

/-- The name without one leading backslash. -/
def withoutRoot : Text → Text
  | Ascii.backslash :: rest => rest
  | t => t

/-- The first thing that is wrong with the name of a function. -/
def factoryProblem? (name : Text) : Option FactoryProblem :=
  if name.isEmpty then some .empty
  else
    let (className, method) := splitMethod (withoutRoot name)
    match (splitOn Ascii.backslash className).find? (!isIdentifier ·), method with
    | some segment, _ => some (.badSegment segment)
    | none, some method => if isIdentifier method then none else some (.badMethod method)
    | none, none => none

end PhpLiteral
