namespace LiveIndex.Text

/-- Texts in order, by code points. -/
def sorted (ts : List String) : List String :=
  ts.mergeSort fun a b => a ≤ b

/-- A set of texts, written in order. -/
def sortedSet (ts : List String) : List String :=
  sorted (ts.foldl (fun seen s => if s ∈ seen then seen else s :: seen) [])

end LiveIndex.Text
