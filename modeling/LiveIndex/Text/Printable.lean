import LiveIndex.Text.PrintableTable
import LiveIndex.Text.Ranges

namespace LiveIndex.Text

/-- Whether a character can be shown as itself. -/
def isPrintable (c : Char) : Bool :=
  if c.toNat < 128 then 32 ≤ c.toNat && c.toNat < 127
  else !inRanges unprintableRanges c.toNat

end LiveIndex.Text
