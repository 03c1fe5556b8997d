/-!
# Blank characters

The characters with the property White_Space, and the fields of a line that they set apart.
-/

namespace TopicModel.Text

/-- The characters that separate fields, those of the Unicode property White_Space. -/
def isBlank (c : Char) : Bool :=
  (0x09 ≤ c.val && c.val ≤ 0x0d) || c.val == 0x20 || c.val == 0x85 || c.val == 0xa0 ||
    c.val == 0x1680 || (0x2000 ≤ c.val && c.val ≤ 0x200a) || c.val == 0x2028 ||
    c.val == 0x2029 || c.val == 0x202f || c.val == 0x205f || c.val == 0x3000

/-- The maximal runs of characters that are not blank. -/
def fields (cs : List Char) : List (List Char) :=
  (cs.splitOnP isBlank).filter fun run => !run.isEmpty

end TopicModel.Text
