import Packrat.Text.RangeTable

/-! # Ignorable characters

    The characters with the Unicode property `Default_Ignorable_Code_Point` (version
    17), assigned or not: a text is shown without them unless they are supported in
    some special way.  Among them are fillers that count as letters. -/

namespace Packrat.Text

/-- The first and last code point of each run of characters with the property
    `Default_Ignorable_Code_Point`. -/
def ignorableRanges : RangeTable :=
  [(0x00AD, 0x00AD), (0x034F, 0x034F), (0x061C, 0x061C), (0x115F, 0x1160), (0x17B4, 0x17B5),
   (0x180B, 0x180F), (0x200B, 0x200F), (0x202A, 0x202E), (0x2060, 0x206F), (0x3164, 0x3164),
   (0xFE00, 0xFE0F), (0xFEFF, 0xFEFF), (0xFFA0, 0xFFA0), (0xFFF0, 0xFFF8), (0x1BCA0, 0x1BCA3),
   (0x1D173, 0x1D17A), (0xE0000, 0xE0FFF)]

/-- The character is not shown by default. -/
def isIgnorable (c : Char) : Bool := ignorableRanges.contains c.toNat

/-- The runs are listed in order, without overlap. -/
theorem ignorableRanges_isOrdered : ignorableRanges.isOrderedFrom 0 = true := by decide +kernel

end Packrat.Text
