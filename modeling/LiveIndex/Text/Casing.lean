import LiveIndex.Text.CasingTable
import LiveIndex.Text.Ranges

namespace LiveIndex.Text

/-- The lower-case form of a character on its own; a dotted capital I leaves its dot behind. -/
def lowerChar (c : Char) : List Char :=
  let n := c.toNat
  if n < 128 then [c.toLower]
  else if n = 0x130 then ['i', '\u0307']
  else match lowerRuns.find? fun r => r.1 ≤ n && n ≤ r.2.1 && (n - r.1) % r.2.2.1 == 0 with
    | some r => [Char.ofNat (n + r.2.2.2).toNat]
    | none => [c]

/-- Letters with case, as far as the form of a sigma depends on them. -/
def isCased (c : Char) : Bool :=
  if c.toNat < 128 then c.isAlpha else inRanges casedRanges c.toNat

/-- Marks and signs that are looked through when choosing the form of a sigma. -/
def isSkippable (c : Char) : Bool :=
  inRanges skippableRanges c.toNat

/-- Whether the first character that is not looked through is a cased letter. -/
def startsCased (cs : List Char) : Bool :=
  ((cs.dropWhile isSkippable).head?.map isCased).getD false

/-- Lower-cases a text whose part before is given in reverse. A sigma takes its final form
after a cased letter when no cased letter follows. -/
def lowerFrom (before : List Char) : List Char → List Char
  | [] => []
  | c :: rest =>
    let form :=
      if c = 'Σ' then [if startsCased before && !startsCased rest then 'ς' else 'σ']
      else lowerChar c
    form ++ lowerFrom (c :: before) rest

def lower (s : String) : String :=
  if s.toList.all fun c => c.toNat < 128 then s.map Char.toLower
  else String.ofList (lowerFrom [] s.toList)

end LiveIndex.Text
