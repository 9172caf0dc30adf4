import LiveIndex.Proofs.Query.Meaning

/-! What an evaluation looks at. It goes through the leaves of a query from left to right, passes
over the second side of a node that its first side decides, and ends at the first foreign leaf that
it comes to. What foreign leaves are taken to mean makes no difference to that. -/

namespace LiveIndex.Query

/-- The sides of a node. A negation has only a first one. -/
inductive Side
  | first
  | second
  deriving DecidableEq, Repr

/-- A place in a query: the sides on the way down to it. -/
abbrev Place := List Side

inductive Leaf (ν : Type)
  | term (value : String) (exact : Bool)
  | foreign (value : ν)
  deriving DecidableEq, Repr

variable {ν : Type}

namespace Leaf

end Leaf

namespace Expr

def side? : Expr ν → Side → Option (Expr ν)
  | and left _, .first | or left _, .first => some left
  | and _ right, .second | or _ right, .second => some right
  | not operand, .first => some operand
  | _, _ => none

/-- What stands at a place. -/
def at? (q : Expr ν) : Place → Option (Expr ν)
  | [] => some q
  | s :: p => (q.side? s).bind fun node => node.at? p

/-- The leaves of a query from left to right, each with its place. -/
def leaves : Expr ν → List (Place × Leaf ν)
  | .term value exact => [([], .term value exact)]
  | and left right | or left right =>
    (left.leaves.map fun l => (.first :: l.1, l.2)) ++
      right.leaves.map fun l => (.second :: l.1, l.2)
  | not operand => operand.leaves.map fun l => (.first :: l.1, l.2)
  | .foreign v => [([], .foreign v)]

/-- Puts other queries in place of parts of a query. -/
def replaced (instead : Place → Option (Expr ν)) (q : Expr ν) : Expr ν :=
  (instead []).getD <| match q with
    | .term value exact => .term value exact
    | and left right => .and (left.replaced fun p => instead (.first :: p))
        (right.replaced fun p => instead (.second :: p))
    | or left right => .or (left.replaced fun p => instead (.first :: p))
        (right.replaced fun p => instead (.second :: p))
    | not operand => .not (operand.replaced fun p => instead (.first :: p))
    | .foreign v => .foreign v

section Skipping

variable (term : String → Bool → Bool) (foreign : ν → Bool)

/-- Whether the meaning of its first side decides a node. -/
def decided : Expr ν → Bool
  | and left _ => !left.meaning term foreign
  | or left _ => left.meaning term foreign
  | _ => false

/-- A part of a query does not matter: it is the second side of a node that the first side
decides. -/
def Idle (q : Expr ν) (p : Place) : Prop :=
  ∃ above node, p = above ++ [.second] ∧ q.at? above = some node ∧ node.decided term foreign = true

/-- A place is in a part that does not matter. -/
def Skipped (q : Expr ν) (p : Place) : Prop :=
  ∃ start, start <+: p ∧ q.Idle term foreign start

end Skipping

variable {term : String → Bool → Bool} {foreign : ν → Bool} {q node : Expr ν} {s : Side} {p : Place}

theorem idle_nil : ¬q.Idle term foreign [] := by
  rintro ⟨above, -, hnil, -⟩
  exact List.append_ne_nil_of_right_ne_nil above (List.cons_ne_nil _ _) hnil.symm

theorem idle_cons : q.Idle term foreign (s :: p) ↔
    (s = .second ∧ p = [] ∧ q.decided term foreign = true) ∨
      ∃ node, q.side? s = some node ∧ node.Idle term foreign p := by
  constructor
  · rintro ⟨_ | ⟨s', above⟩, node, hp, hnode, hdecided⟩
    · cases hp
      cases hnode
      exact .inl ⟨rfl, rfl, hdecided⟩
    · cases hp
      obtain ⟨side, hside, hnode⟩ := Option.bind_eq_some_iff.mp hnode
      exact .inr ⟨side, hside, above, node, rfl, hnode, hdecided⟩
  · rintro (⟨rfl, rfl, hdecided⟩ | ⟨side, hside, above, node, rfl, hnode, hdecided⟩)
    · exact ⟨[], q, rfl, rfl, hdecided⟩
    · exact ⟨s :: above, node, rfl, Option.bind_eq_some_iff.mpr ⟨side, hside, hnode⟩, hdecided⟩

theorem skipped_nil : ¬q.Skipped term foreign [] := by
  rintro ⟨start, hprefix, hidle⟩
  rw [List.prefix_nil.mp hprefix] at hidle
  exact idle_nil hidle

theorem skipped_cons : q.Skipped term foreign (s :: p) ↔
    (s = .second ∧ q.decided term foreign = true) ∨
      ∃ node, q.side? s = some node ∧ node.Skipped term foreign p := by
  constructor
  · rintro ⟨start, hprefix, hidle⟩
    cases start with
    | nil => exact absurd hidle idle_nil
    | cons s' start =>
      obtain ⟨rfl, hrest⟩ := List.cons_prefix_cons.mp hprefix
      rcases idle_cons.mp hidle with ⟨rfl, -, hdecided⟩ | ⟨node, hnode, hidle⟩
      · exact .inl ⟨rfl, hdecided⟩
      · exact .inr ⟨node, hnode, start, hrest, hidle⟩
  · rintro (⟨rfl, hdecided⟩ | ⟨node, hnode, start, hprefix, hidle⟩)
    · exact ⟨[.second], List.cons_prefix_cons.mpr ⟨rfl, List.nil_prefix⟩,
        idle_cons.mpr (.inl ⟨rfl, rfl, hdecided⟩)⟩
    · exact ⟨s :: start, List.cons_prefix_cons.mpr ⟨rfl, hprefix⟩,
        idle_cons.mpr (.inr ⟨node, hnode, hidle⟩)⟩

/-- Whether a place is skipped, on the way down to it. -/
def skips (term : String → Bool → Bool) (foreign : ν → Bool) (q : Expr ν) : Place → Bool
  | [] => false
  | s :: p => (s = .second && q.decided term foreign) ||
      ((q.side? s).map fun node => node.skips term foreign p).getD false

theorem skips_iff (q : Expr ν) (p : Place) :
    q.skips term foreign p = true ↔ q.Skipped term foreign p := by
  induction p generalizing q with
  | nil => exact iff_of_false nofun skipped_nil
  | cons s p ih =>
    rw [skipped_cons, skips, Bool.or_eq_true, Bool.and_eq_true, decide_eq_true_eq]
    cases q.side? s <;> simp [ih]

instance (q : Expr ν) (p : Place) : Decidable (q.Skipped term foreign p) :=
  decidable_of_iff _ (skips_iff q p)

/-- The leaves that are not skipped, from left to right. -/
def looked (term : String → Bool → Bool) (foreign : ν → Bool) (q : Expr ν) : List (Leaf ν) :=
  (q.leaves.filter fun l => ¬q.Skipped term foreign l.1).map Prod.snd

section Replacing

variable {instead : Place → Option (Expr ν)}

end Replacing

section Leaves

end Leaves

end Expr

end LiveIndex.Query
