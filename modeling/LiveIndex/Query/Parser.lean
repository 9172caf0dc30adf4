import LiveIndex.Query.Expr
import LiveIndex.Query.Token

/-! Queries by precedence: negation, then conjunction, then disjunction. A text that does not fit
together is still searched, as one literal term. -/

namespace LiveIndex.Query

/-- Why tokens are no query. `none` for a token means the end. -/
inductive Fault
  | empty
  | unexpected (found : Option Token)
  | expectedClose (found : Option Token)
  | trailing
  deriving DecidableEq, Repr

def Fault.message : Fault → String
  | empty => "Empty query"
  | unexpected found => "Unexpected token: " ++ Token.kindName found
  | expectedClose found => "Unexpected token: expected RPAREN, got " ++ Token.kindName found
  | trailing => "Unexpected tokens after expression"

/-- Why parsing ends without a query: the tokens are at fault, or a token was asked for behind the
end, or the steps did not suffice. -/
inductive Halt
  | fault (f : Fault)
  | pastEnd
  | outOfFuel
  deriving DecidableEq, Repr

/-- Tokens with the mark `none` of their end behind them. -/
def marked (ts : List Token) : List (Option Token) :=
  ts.map some ++ [none]

/-- Where parsing stands: what is left to read, and the terms that were met. Nothing is left only
behind the mark of the end. -/
structure Cursor where
  rest : List (Option Token)
  terms : List String
  deriving DecidableEq, Repr

/-- A query at a place, and the place after it. -/
abbrev Parse := Except Halt (Formula × Cursor)

/-- Goes on after the first operand of a chain, as long as its connective follows; the operands are
grouped to the left. The fuel bounds their number. -/
def chain (c : Connective) (join : Formula → Formula → Formula) (operand : Cursor → Parse) :
    Nat → Formula → Cursor → Parse
  | 0, _, _ => .error .outOfFuel
  | fuel + 1, left, cur =>
    match cur.rest with
    | [] => .error .pastEnd
    | some (.connective d _) :: rest =>
      if d = c then
        match operand { cur with rest } with
        | .error e => .error e
        | .ok (right, cur) => chain c join operand fuel (join left right) cur
      else .ok (left, cur)
    | _ => .ok (left, cur)

mutual

/-- Conjunctions joined by `OR`. The fuel bounds the nesting. -/
def parseOr : Nat → Cursor → Parse
  | 0, _ => .error .outOfFuel
  | fuel + 1, cur =>
    match parseAnd fuel cur with
    | .error e => .error e
    | .ok (left, cur) => chain .or .or (parseAnd fuel) cur.rest.length left cur

/-- Negations joined by `AND`. -/
def parseAnd : Nat → Cursor → Parse
  | 0, _ => .error .outOfFuel
  | fuel + 1, cur =>
    match parseNot fuel cur with
    | .error e => .error e
    | .ok (left, cur) => chain .and .and (parseNot fuel) cur.rest.length left cur

/-- A term or a group, behind any number of `NOT`. -/
def parseNot : Nat → Cursor → Parse
  | 0, _ => .error .outOfFuel
  | fuel + 1, cur =>
    match cur.rest with
    | some (.connective .not _) :: rest =>
      match parseNot fuel { cur with rest } with
      | .error e => .error e
      | .ok (operand, cur) => .ok (.not operand, cur)
    | _ => parsePrimary fuel cur

/-- A term, which is noted, or a query in parentheses. -/
def parsePrimary : Nat → Cursor → Parse
  | 0, _ => .error .outOfFuel
  | fuel + 1, cur =>
    match cur.rest with
    | [] => .error .pastEnd
    | some (.term value exact) :: rest => .ok (.term value exact, ⟨rest, cur.terms ++ [value]⟩)
    | some .leftParen :: rest =>
      match parseOr fuel { cur with rest } with
      | .error e => .error e
      | .ok (inner, cur) =>
        match cur.rest with
        | [] => .error .pastEnd
        | some .rightParen :: rest => .ok (inner, { cur with rest })
        | found :: _ => .error (.fault (.expectedClose found))
    | found :: _ => .error (.fault (.unexpected found))

end

/-- The query that all the tokens together spell, and its terms in the order in which they were
met. -/
def parseTokens (ts : List Token) : Except Halt (Formula × List String) :=
  if ts.isEmpty then .error (.fault .empty)
  else
    match parseOr (4 * ts.length + 4) ⟨marked ts, []⟩ with
    | .error e => .error e
    | .ok (q, cur) =>
      match cur.rest with
      | [] => .error .pastEnd
      | none :: _ => .ok (q, cur.terms)
      | some _ :: _ => .error (.fault .trailing)

/-- How a search text is understood. -/
structure Parsed where
  query : Option Formula
  isLogical : Bool
  terms : List String
  fault : Option Fault
  deriving DecidableEq, Repr

def Token.isConnective : Token → Bool
  | .connective .. => true
  | _ => false

/-- A text that is one term. -/
def Parsed.single (value : List Char) (exact : Bool) (fault : Option Fault) : Parsed :=
  ⟨some (.term (String.ofList value) exact), false, [String.ofList value], fault⟩

/-- A text in quotes, without them. -/
def insideQuotes? (cs : List Char) : Option (List Char) :=
  match cs with
  | '"' :: rest => if rest.getLast? = some '"' then some rest.dropLast else none
  | _ => none

/-- Understands a search text. Without connectives it is a single term, exact if it is in quotes
as a whole; with connectives that do not fit together it is one literal term. -/
def understand (text : String) : Except Halt Parsed :=
  let trimmed := Text.trimBlank text.toList
  if trimmed.isEmpty then .ok ⟨none, false, [], none⟩
  else
    let ts := tokens trimmed
    if !ts.any Token.isConnective then
      -- Only quotes around the whole text count here; escapes inside are left alone.
      match insideQuotes? trimmed with
      | some inner => .ok (.single inner true none)
      | none => .ok (.single trimmed false none)
    else
      match parseTokens ts with
      | .ok (q, terms) => .ok ⟨some q, true, terms, none⟩
      | .error (.fault fault) => .ok (.single trimmed false (some fault))
      | .error halt => .error halt

/-- How a search text is understood; `understand` always says. -/
def parse (text : String) : Parsed :=
  (understand text).toOption.getD ⟨none, false, [], none⟩

end LiveIndex.Query
