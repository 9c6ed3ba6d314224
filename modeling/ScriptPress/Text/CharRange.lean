/-! # Character ranges

A class of characters is kept as an ascending list of inclusive ranges of code points. A look-up
stops at the first range that starts above the character, so the small code points are found
after a few comparisons.
-/
namespace ScriptPress.Text

abbrev CharRange := Nat × Nat

/-- Membership in an ascending list of ranges. -/
def inRanges (code : Nat) : List CharRange → Bool
  | [] => false
  | (first, last) :: rest =>
    if code < first then false else if code ≤ last then true else inRanges code rest

end ScriptPress.Text
