/-!
# Blanks

Type names, signatures and logged payloads may be written with blanks
around them. A blank is a character of the Unicode property `White_Space`,
which is wider than the ASCII blanks and does not contain the zero-width
characters.
-/

namespace EthCall.Text

/-- The ranges of blank code points, first and last of each, in ascending
order. -/
def blankRanges : List (Nat × Nat) :=
  [(0x09, 0x0d), (0x20, 0x20), (0x85, 0x85), (0xa0, 0xa0), (0x1680, 0x1680),
   (0x2000, 0x200a), (0x2028, 0x2029), (0x202f, 0x202f), (0x205f, 0x205f),
   (0x3000, 0x3000)]

/-- Whether a character is blank. -/
def isBlank (c : Char) : Bool :=
  blankRanges.any fun range => range.1 ≤ c.toNat && c.toNat ≤ range.2

/-- The text without the blanks in front of it. -/
def trimStart (cs : List Char) : List Char :=
  cs.dropWhile isBlank

/-- The text without the blanks behind it. -/
def trimEnd (cs : List Char) : List Char :=
  (trimStart cs.reverse).reverse

/-- **The text without the blanks around it.** -/
def trim (cs : List Char) : List Char :=
  trimEnd (trimStart cs)

/-- Whether nothing but blanks is there. -/
def isEmptyOrBlank (cs : List Char) : Bool :=
  cs.all isBlank

/-! ## Trimming shortens -/

theorem length_trimStart_le (cs : List Char) : (trimStart cs).length ≤ cs.length :=
  List.Sublist.length_le (List.dropWhile_sublist isBlank)

theorem length_trimEnd_le (cs : List Char) : (trimEnd cs).length ≤ cs.length := by
  simpa [trimEnd] using length_trimStart_le cs.reverse

theorem length_trim_le (cs : List Char) : (trim cs).length ≤ cs.length :=
  Nat.le_trans (length_trimEnd_le _) (length_trimStart_le cs)

end EthCall.Text
