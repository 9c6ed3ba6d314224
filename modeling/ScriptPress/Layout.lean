/-! # Layout

The layout of expanded output: where lines begin. Widths are in columns.
-/
namespace ScriptPress

/-- `setback` moves labels and the clauses of a switch left of the statements around them. -/
structure Layout where
  offset : Nat := 0
  indent : Nat := 4
  setback : Nat := 2
  tabs : Bool := false
  blankBeforeLabel : Bool := false
  deriving Repr, DecidableEq, Inhabited

namespace Layout

/-- Every line begins at the margin. -/
def flat : Layout where
  indent := 0
  setback := 0

/-- The white space before a line that begins at `column`: with tabs, one for each full indent
unit, and spaces for the rest. -/
def indentation (layout : Layout) (column : Nat) : List Char :=
  if layout.tabs && layout.indent > 0 then
    List.replicate (column / layout.indent) '\t' ++ List.replicate (column % layout.indent) ' '
  else List.replicate column ' '

end Layout
end ScriptPress
