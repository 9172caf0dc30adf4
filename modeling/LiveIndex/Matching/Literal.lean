import LiveIndex.Matching.Finder

namespace LiveIndex.Matching

/-- Whether the name of an entry is the needle or its relative path holds it, whatever the
case. -/
def isLiteralHit (needle : String) (e : Entry) : Bool :=
  Text.lower e.name = needle || Text.occursIn needle (Text.lower e.relativePath)

/-- Goes through entries until the wanted number of them is found. -/
def firstHits (needle : String) : Option Nat → List Entry → List Entry
  | some 0, _ => []
  | _, [] => []
  | wanted, e :: rest =>
    if isLiteralHit needle e then e :: firstHits needle (wanted.map (· - 1)) rest
    else firstHits needle wanted rest

/-- The entries that hold a query literally, in their order. -/
def literalSearch (entries : List Entry) (query : String) (limit : Option Int) : List Hit :=
  let needle := Text.lower (Text.strip query)
  if needle = "" then []
  else (firstHits needle (limit.map Int.toNat) entries).map fun e => ⟨e, 0, none⟩

end LiveIndex.Matching
