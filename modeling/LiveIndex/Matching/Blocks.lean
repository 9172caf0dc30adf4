/-! Common blocks of two texts: the longest common run, then the same on its left and on its right.
Which run comes first among equals matters, since it decides what is left on the sides. -/

namespace LiveIndex.Matching

/-- Lengths of the common runs that end at one place of the first text and at each place of the
second, from the lengths one place earlier. -/
def nextRow (c : Char) : Nat → List Nat → List Char → List Nat
  | _, _, [] => []
  | diagonal, previous, d :: ds =>
    (if c = d then diagonal + 1 else 0) :: nextRow c (previous.headD 0) previous.tail ds

/-- A common run of two texts: where it starts in each, and its length. -/
structure Block where
  left : Nat
  right : Nat
  length : Nat
  deriving DecidableEq, Repr

/-- The better of the best block so far and the runs of a row that ends at place `i` of the first
text. Only a longer run is better. -/
def bestInRow (i : Nat) : Nat → List Nat → Block → Block
  | _, [], best => best
  | j, n :: ns, best =>
    bestInRow i (j + 1) ns (if best.length < n then ⟨i + 1 - n, j + 1 - n, n⟩ else best)

/-- Goes through the rows of the first text from place `i` on. -/
def bestBlock (b : List Char) : Nat → List Nat → List Char → Block → Block
  | _, _, [], best => best
  | i, previous, c :: cs, best =>
    let row := nextRow c 0 previous b
    bestBlock b (i + 1) row cs (bestInRow i 0 row best)

/-- The longest common run of two texts; of several the one that starts first in the first text,
then in the second. -/
def longestBlock (a b : List Char) : Block :=
  bestBlock b 0 (b.map fun _ => 0) a ⟨0, 0, 0⟩

/-- The longest common run, and in the same way those on both sides of it, in order. The fuel
bounds the length of the first text. -/
def splitBlocks : Nat → Nat → Nat → List Char → List Char → List Block
  | 0, _, _, _, _ => []
  | fuel + 1, i, j, a, b =>
    let best := longestBlock a b
    if best.length = 0 then []
    else
      splitBlocks fuel i j (a.take best.left) (b.take best.right) ++
        ⟨i + best.left, j + best.right, best.length⟩ ::
          splitBlocks fuel (i + best.left + best.length) (j + best.right + best.length)
            (a.drop (best.left + best.length)) (b.drop (best.right + best.length))

/-- Joins blocks that touch in both texts. -/
def joinBlocks : List Block → List Block
  | [] => []
  | x :: rest =>
    match joinBlocks rest with
    | [] => [x]
    | y :: ys =>
      if x.left + x.length = y.left ∧ x.right + x.length = y.right then
        ⟨x.left, x.right, x.length + y.length⟩ :: ys
      else x :: y :: ys

/-- The blocks that two texts have in common, in order and apart. -/
def blocks (a b : List Char) : List Block :=
  joinBlocks (splitBlocks a.length 0 0 a b)

/-- The number of characters in the common blocks of two texts. -/
def shared (a b : List Char) : Nat :=
  ((splitBlocks a.length 0 0 a b).map Block.length).foldl (· + ·) 0

/-- The number of characters that two texts have in common, wherever they stand. -/
def common : List Char → List Char → Nat
  | [], _ => 0
  | c :: cs, b => if c ∈ b then common cs (b.erase c) + 1 else common cs b

end LiveIndex.Matching
