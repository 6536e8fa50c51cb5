/-!
# Text/Blank — white space, trimming and words

A character is blank when it has the Unicode property White_Space: 25 code points in ten ranges.
`trim` drops blanks at both ends, `words` keeps the stretches between blanks.  Texts are lists of
characters here, so that cutting one up is recursion on it.
-/

namespace GrammarTables.Text

/-- The code points of the property White_Space, as ranges that hold both of their ends. -/
def blankRanges : List (Nat × Nat) :=
  [(0x0009, 0x000D), (0x0020, 0x0020), (0x0085, 0x0085), (0x00A0, 0x00A0), (0x1680, 0x1680),
   (0x2000, 0x200A), (0x2028, 0x2029), (0x202F, 0x202F), (0x205F, 0x205F), (0x3000, 0x3000)]

/-- Whether `c` is white space. -/
def isBlank (c : Char) : Bool :=
  blankRanges.any fun (low, high) => low ≤ c.toNat && c.toNat ≤ high

/-- `cs` without the blanks at its end. -/
def trimEnd : List Char → List Char
  | [] => []
  | c :: cs =>
    match trimEnd cs with
    | [] => if isBlank c then [] else [c]
    | d :: ds => c :: d :: ds

/-- `cs` without the blanks at its ends. -/
def trim (cs : List Char) : List Char :=
  trimEnd (cs.dropWhile isBlank)

/-- The stretches before, between and after the characters that satisfy `p`: one more than there
are of these, since a stretch may be empty. -/
def pieces (p : Char → Bool) : List Char → List (List Char)
  | [] => [[]]
  | c :: cs => if p c then [] :: pieces p cs else (pieces p cs).modifyHead (c :: ·)

/-- The longest stretches without a blank. -/
def words (cs : List Char) : List (List Char) :=
  (pieces isBlank cs).filter fun w => !w.isEmpty

end GrammarTables.Text
