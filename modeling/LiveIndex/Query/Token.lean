import LiveIndex.Text.Blank

/-! The pieces of a query. Quoted text is always a term, and a bare word that spells a connective
is that connective. -/

namespace LiveIndex.Query

/-- The words that join terms. -/
inductive Connective
  | and
  | or
  | not
  deriving DecidableEq, Repr

/-- The pieces of a query. A connective keeps the spelling it was written in. -/
inductive Token
  | term (value : String) (exact : Bool)
  | connective (c : Connective) (word : String)
  | leftParen
  | rightParen
  deriving DecidableEq, Repr

/-- The connective that a word spells in any case. Only ASCII letters have the letters of these
words as their capitals. -/
def Connective.ofWord? (word : List Char) : Option Connective :=
  match word.map Char.toUpper with
  | ['A', 'N', 'D'] => some .and
  | ['O', 'R'] => some .or
  | ['N', 'O', 'T'] => some .not
  | _ => none

def Token.ofWord (word : List Char) : Token :=
  match Connective.ofWord? word with
  | some c => .connective c (String.ofList word)
  | none => .term (String.ofList word) false

/-- Whether a character belongs to a bare word. -/
def isBare (c : Char) : Bool :=
  !Text.isBlank c && c ≠ '(' && c ≠ ')' && c ≠ '"'

/-- The text up to the closing quote, and what follows the quote. A backslash stands before a
character that is taken as it is; without a closing quote the text runs to the end. -/
def unquote : List Char → List Char × List Char
  | [] => ([], [])
  | '"' :: rest => ([], rest)
  | '\\' :: c :: rest =>
    let r := unquote rest
    (c :: r.1, r.2)
  | c :: rest =>
    let r := unquote rest
    (c :: r.1, r.2)

theorem length_unquote (cs : List Char) : (unquote cs).2.length ≤ cs.length := by
  fun_induction unquote cs <;> grind

theorem length_dropWhile {α : Type} (p : α → Bool) (cs : List α) :
    (cs.dropWhile p).length ≤ cs.length :=
  (List.dropWhile_sublist p).length_le

/-- The tokens of a query: parentheses, quoted phrases, and the runs of all other characters
between white space. -/
def tokens : List Char → List Token
  | [] => []
  | c :: rest =>
    if Text.isBlank c then tokens rest
    else if c = '(' then .leftParen :: tokens rest
    else if c = ')' then .rightParen :: tokens rest
    else if c = '"' then
      let r := unquote rest
      .term (String.ofList r.1) true :: tokens r.2
    else .ofWord (c :: rest.takeWhile isBare) :: tokens (rest.dropWhile isBare)
termination_by cs => cs.length
decreasing_by
  all_goals simp only [List.length_cons]
  all_goals have := length_unquote rest
  all_goals have := length_dropWhile isBare rest
  all_goals omega

def tokenize (query : String) : List Token :=
  tokens query.toList

/-- The name of a token's kind; what comes after the last token is the end. -/
def Token.kindName : Option Token → String
  | some (.term ..) => "TERM"
  | some (.connective .and _) => "AND"
  | some (.connective .or _) => "OR"
  | some (.connective .not _) => "NOT"
  | some .leftParen => "LPAREN"
  | some .rightParen => "RPAREN"
  | none => "EOF"

/-- The text that a token was written with, quotes aside. -/
def Token.value : Token → String
  | .term value _ => value
  | .connective _ word => word
  | .leftParen => "("
  | .rightParen => ")"

end LiveIndex.Query
