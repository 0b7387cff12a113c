import PhpLiteral.Render

/-!
# Writing values as PHP code

The two operations of the library: `dump` writes a value as a PHP expression, and `format` fills a template with
values.
-/

namespace PhpLiteral

/-- The PHP expression for a value. `column` is the number of bytes before it on its line, and can be any number of 64
bits. -/
def dump (s : Settings) (heap : Heap) (v : Value) (column : Nat) : Except Stop Text :=
  v.render s heap [] ⟨0, 0, column⟩

/-- A template filled with values, each placeholder taking one. A column is here the length of a text that is in memory
together with those it is added to, so that no sum leaves 64 bits. -/
def format (s : Settings) (heap : Heap) (template : Text) (args : List Value) : Except DumpError Text :=
  let t := Template.parse template
  (renderSlotsWith .exact s heap [] 0 (columnAfter 0 t.lead) t.slots args).map (t.lead ++ ·)

/-- Raw code with its arguments filled in, if it has any. -/
def renderLiteral (s : Settings) (heap : Heap) (code : Text) (args : List Value) : Except DumpError Text :=
  if args.isEmpty then .ok code else format s heap code args

end PhpLiteral
