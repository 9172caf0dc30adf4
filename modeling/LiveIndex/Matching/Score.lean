import LiveIndex.Matching.Blocks
import LiveIndex.Number.Rounding
import LiveIndex.Text.Split

/-! Approximate matching. A pattern is laid against every window of its own width, and the window
that shares most with it counts; scores are exact ratios until the end. -/

namespace LiveIndex.Matching

/-- A run of characters in a text. -/
structure Span where
  start : Nat
  length : Nat
  deriving DecidableEq, Repr

/-- How well a pattern fits a text: the part of both that is shared, and where it lies in the
text. The ratio is exact, from nothing (0) to everything (1). -/
structure Fit where
  ratio : Rat
  spans : List Span
  deriving DecidableEq, Repr

/-- The score of a ratio, 0 for a full match and 1 for none, in doubles. -/
def scoreOf (ratio : Rat) : Rat :=
  Number.nearest (1 - Number.nearest ratio)

def Fit.score (f : Fit) : Rat :=
  scoreOf f.ratio

/-- A window of a text: where it starts and what it holds. -/
structure Window where
  start : Nat
  chars : List Char
  deriving DecidableEq, Repr

/-- The windows of a given width from place `i` on. -/
def windowsFrom (width i : Nat) (text : List Char) : List Window :=
  match text with
  | [] => []
  | c :: cs =>
    if width ≤ cs.length + 1 then ⟨i, (c :: cs).take width⟩ :: windowsFrom width (i + 1) cs
    else []

/-- The windows that a pattern is laid against: all of its own width, or the whole text if that is
not longer. -/
def windows (pattern text : List Char) : List Window :=
  if text.length ≤ pattern.length then [⟨0, text⟩] else windowsFrom pattern.length 0 text

/-- The ratio of a window and a pattern with so many characters in common: those of both over the
length of both. -/
def ratioOf (pattern : List Char) (w : Window) (inCommon : Nat) : Rat :=
  mkRat (2 * inCommon) (w.chars.length + pattern.length)

/-- The best window so far, with its ratio. -/
structure Best where
  ratio : Rat
  window : Window
  deriving DecidableEq, Repr

/-- Looks at one window. Windows whose lengths or letters alone show that they are no better are
left out before blocks are compared. -/
def improve (pattern : List Char) (best : Best) (w : Window) : Best :=
  -- Blocks share at most the letters in common, and these at most the shorter length.
  if ratioOf pattern w (min w.chars.length pattern.length) ≤ best.ratio then best
  else if ratioOf pattern w (common w.chars pattern) ≤ best.ratio then best
  else
    let ratio := ratioOf pattern w (shared w.chars pattern)
    if best.ratio < ratio then ⟨ratio, w⟩ else best

/-- The first window with the greatest ratio. -/
def bestWindow (pattern text : List Char) : Best :=
  (windows pattern text).foldl (improve pattern) ⟨0, 0, []⟩

/-- Fits a pattern to a text. A text that holds the pattern fits in full; else the best window
counts, with twice the shared part over the length of both. -/
def fit (pattern text : List Char) : Fit :=
  if text.isEmpty then ⟨0, []⟩
  else
    match Text.find? pattern text with
    | some i => ⟨1, [⟨i, pattern.length⟩]⟩
    | none =>
      let best := bestWindow pattern text
      if best.ratio = 0 then ⟨0, []⟩
      else
        let spans := (blocks best.window.chars pattern).map fun b =>
          ⟨best.window.start + b.left, b.length⟩
        ⟨best.ratio, spans⟩

end LiveIndex.Matching
