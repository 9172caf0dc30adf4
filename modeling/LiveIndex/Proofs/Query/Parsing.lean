import LiveIndex.Proofs.Query.Grammar

/-! Parsing against the grammar. Whatever the tokens are, a parser at any level either finds fault
with them or reads a derivation off their front; and it reads every derivation that what follows
does not extend. It never looks behind the end, and the fuel always suffices. -/

namespace LiveIndex.Query

/-- The parser of a level of precedence. -/
def parseAt : Precedence → Nat → Cursor → Parse
  | .disjunction => parseOr
  | .conjunction => parseAnd
  | .negation => parseNot
  | .primary => parsePrimary

def Precedence.depth : Precedence → Nat
  | disjunction => 4
  | conjunction => 3
  | negation => 2
  | primary => 1

/-- Fuel that suffices for a level is not used up. -/
theorem Precedence.exists_succ {p : Precedence} {n fuel : Nat} (h : n + p.depth ≤ fuel) :
    ∃ k, fuel = k + 1 := by
  have hp : 0 < p.depth := by cases p <;> decide
  exact ⟨fuel - 1, by omega⟩

/-- The place behind a query: its terms are noted, and `rest` is left. -/
def Cursor.behind (w : List String) (q : Formula) (rest : List Token) : Cursor :=
  ⟨marked rest, w ++ q.terms.map Prod.fst⟩

theorem marked_nil : marked [] = [none] := rfl

theorem marked_cons (t : Token) (ts : List Token) : marked (t :: ts) = some t :: marked ts := rfl

/-- Whether a connective comes first. -/
def StartsWith (c : Connective) (ts : List Token) : Prop :=
  ∃ word us, ts = .connective c word :: us

theorem chain_stop {c : Connective} {ts : List Token} (h : ¬ StartsWith c ts)
    (join : Formula → Formula → Formula) (operand : Cursor → Parse) (fuel : Nat) (left : Formula)
    (w : List String) :
    chain c join operand (fuel + 1) left ⟨marked ts, w⟩ = .ok (left, ⟨marked ts, w⟩) := by
  cases ts with
  | nil => rfl
  | cons t us =>
    cases t with
    | connective d word =>
      have hd : d ≠ c := fun hd => h ⟨word, us, hd ▸ rfl⟩
      simp only [chain, marked_cons, hd, if_false]
    | _ => rfl

theorem chain_fault {c : Connective} {operand : Cursor → Parse} {ts : List Token}
    {w : List String} {e : Halt} (h : operand ⟨marked ts, w⟩ = .error e)
    (join : Formula → Formula → Formula) (fuel : Nat) (left : Formula) (word : String) :
    chain c join operand (fuel + 1) left ⟨marked (.connective c word :: ts), w⟩ = .error e := by
  simp only [chain, marked_cons, if_true, h]

theorem chain_step {c : Connective} {operand : Cursor → Parse} {ts : List Token}
    {w : List String} {q : Formula} {cur : Cursor} (h : operand ⟨marked ts, w⟩ = .ok (q, cur))
    (join : Formula → Formula → Formula) (fuel : Nat) (left : Formula) (word : String) :
    chain c join operand (fuel + 1) left ⟨marked (.connective c word :: ts), w⟩ =
      chain c join operand fuel (join left q) cur := by
  simp only [chain, marked_cons, if_true, h]

theorem parseNot_operand {ts : List Token} (h : ¬ StartsWith .not ts) (fuel : Nat)
    (w : List String) :
    parseNot (fuel + 1) ⟨marked ts, w⟩ = parsePrimary fuel ⟨marked ts, w⟩ := by
  rw [parseNot]
  split
  · next word rest heq =>
    cases ts with
    | nil => simp [marked] at heq
    | cons t us =>
      obtain ⟨ht, _⟩ := List.cons.inj heq
      exact absurd ⟨word, us, by rw [Option.some.inj ht]⟩ h
  · rfl

theorem parseNot_fault {fuel : Nat} {ts : List Token} {w : List String} {e : Halt}
    (h : parseNot fuel ⟨marked ts, w⟩ = .error e) (word : String) :
    parseNot (fuel + 1) ⟨marked (.connective .not word :: ts), w⟩ = .error e := by
  simp only [parseNot, marked_cons, h]

theorem parseNot_not {fuel : Nat} {ts : List Token} {w : List String} {q : Formula} {cur : Cursor}
    (h : parseNot fuel ⟨marked ts, w⟩ = .ok (q, cur)) (word : String) :
    parseNot (fuel + 1) ⟨marked (.connective .not word :: ts), w⟩ = .ok (.not q, cur) := by
  simp only [parseNot, marked_cons, h]

/-- How reading tokens ends: with a fault of theirs, or behind a derivation at their front. -/
def Reads (p : Precedence) (ts : List Token) (w : List String) (r : Parse) : Prop :=
  (∃ f, r = .error (.fault f)) ∨
    ∃ us rest q, ts = us ++ rest ∧ Derives p us q ∧ r = .ok (q, .behind w q rest)

/-- How reading the further operands of a chain ends. -/
def ReadsLinks (c : Connective) (join : Formula → Formula → Formula) (p : Precedence)
    (left : Formula) (ts : List Token) (w : List String) (r : Parse) : Prop :=
  (∃ f, r = .error (.fault f)) ∨
    ∃ links rest, ts = linkTokens c links ++ rest ∧ (∀ l ∈ links, Derives p l.tokens l.tree) ∧
      r = .ok (linkTree join left links,
        ⟨marked rest, w ++ (links.flatMap fun l => l.tree.terms).map Prod.fst⟩)

theorem readsLinks_stop (c : Connective) (join : Formula → Formula → Formula) (p : Precedence)
    (left : Formula) (ts : List Token) (w : List String) :
    ReadsLinks c join p left ts w (.ok (left, ⟨marked ts, w⟩)) := by
  refine Or.inr ⟨[], ts, rfl, ?_, ?_⟩
  · intro l hl
    exact absurd hl List.not_mem_nil
  · simp [linkTree]

/-- The loop of a chain reads what its operands' parser reads. -/
theorem chain_reads (c : Connective) (join : Formula → Formula → Formula) (p : Precedence)
    (operand : Cursor → Parse) (n : Nat)
    (ho : ∀ ts w, ts.length ≤ n → Reads p ts w (operand ⟨marked ts, w⟩)) (fuel : Nat) :
    ∀ left ts w, ts.length ≤ n → ts.length < fuel →
      ReadsLinks c join p left ts w (chain c join operand fuel left ⟨marked ts, w⟩) := by
  -- Each link uses up a connective at least, so the fuel outlasts the tokens.
  induction fuel with
  | zero =>
    intro left ts w _ hf
    exact absurd hf (Nat.not_lt_zero _)
  | succ fuel ih =>
    intro left ts w hn hf
    by_cases hs : StartsWith c ts
    · obtain ⟨word, us, rfl⟩ := hs
      simp only [List.length_cons] at hn hf
      obtain ⟨f, hr⟩ | ⟨vs, rest, q, rfl, hq, hr⟩ := ho us w (by omega)
      · exact Or.inl ⟨f, chain_fault hr join fuel left word⟩
      · rw [chain_step hr join fuel left word]
        simp only [List.length_append] at hn hf
        obtain ⟨f, hr'⟩ | ⟨links, rest', rfl, hl, hr'⟩ :=
          ih (join left q) rest (w ++ q.terms.map Prod.fst) (by omega) (by omega)
        · exact Or.inl ⟨f, hr'⟩
        · refine Or.inr ⟨⟨word, vs, q⟩ :: links, rest', ?_, ?_, ?_⟩
          · simp only [linkTokens_cons, List.cons_append, List.append_assoc]
          · intro l hmem
            rcases List.mem_cons.mp hmem with rfl | hmem
            · exact hq
            · exact hl l hmem
          · simpa only [linkTree_cons, List.flatMap_cons, List.map_append, List.append_assoc,
              Cursor.behind] using hr'
    · rw [chain_stop hs]
      exact readsLinks_stop c join p left ts w

theorem reads_chain {c : Connective} {join : Formula → Formula → Formula} {p p' : Precedence}
    (hj : KeepsTerms join)
    (hd : ∀ ts q links, Derives p ts q → (∀ l ∈ links, Derives p l.tokens l.tree) →
      Derives p' (ts ++ linkTokens c links) (linkTree join q links))
    {ts rest : List Token} {q : Formula} {w : List String} {r : Parse} (hq : Derives p ts q)
    (hr : ReadsLinks c join p q rest (w ++ q.terms.map Prod.fst) r) :
    Reads p' (ts ++ rest) w r := by
  obtain ⟨f, hr⟩ | ⟨links, rest', rfl, hl, hr⟩ := hr
  · exact Or.inl ⟨f, hr⟩
  · refine Or.inr ⟨_, rest', _, (List.append_assoc ..).symm, hd ts q links hq hl, ?_⟩
    rw [hr, Cursor.behind, terms_linkTree hj, List.map_append, List.append_assoc]

-- The four levels go down one unit of fuel each, and a group comes back to the first with one token
-- less, which is why a token is worth four units.
mutual

theorem parseOr_reads (fuel : Nat) (ts : List Token) (w : List String)
    (h : 4 * ts.length + 4 ≤ fuel) : Reads .disjunction ts w (parseOr fuel ⟨marked ts, w⟩) := by
  obtain ⟨fuel, rfl⟩ := Nat.exists_eq_succ_of_ne_zero (show fuel ≠ 0 by omega)
  rw [parseOr]
  obtain ⟨f, hr⟩ | ⟨us, rest, q, rfl, hq, hr⟩ := parseAnd_reads fuel ts w (by omega)
  · rw [hr]
    exact Or.inl ⟨f, rfl⟩
  · rw [hr]
    refine reads_chain keepsTerms_or (fun _ _ links h hl => .disjunction links h hl) hq ?_
    refine chain_reads .or .or .conjunction (parseAnd fuel) rest.length ?_ _ _ _ _
      (Nat.le_refl _) ?_
    · intro ts' w' hl
      exact parseAnd_reads fuel ts' w' (by simp only [List.length_append] at h; omega)
    · simp [Cursor.behind, marked]

theorem parseAnd_reads (fuel : Nat) (ts : List Token) (w : List String)
    (h : 4 * ts.length + 3 ≤ fuel) : Reads .conjunction ts w (parseAnd fuel ⟨marked ts, w⟩) := by
  obtain ⟨fuel, rfl⟩ := Nat.exists_eq_succ_of_ne_zero (show fuel ≠ 0 by omega)
  rw [parseAnd]
  obtain ⟨f, hr⟩ | ⟨us, rest, q, rfl, hq, hr⟩ := parseNot_reads fuel ts w (by omega)
  · rw [hr]
    exact Or.inl ⟨f, rfl⟩
  · rw [hr]
    refine reads_chain keepsTerms_and (fun _ _ links h hl => .conjunction links h hl) hq ?_
    refine chain_reads .and .and .negation (parseNot fuel) rest.length ?_ _ _ _ _ (Nat.le_refl _) ?_
    · intro ts' w' hl
      exact parseNot_reads fuel ts' w' (by simp only [List.length_append] at h; omega)
    · simp [Cursor.behind, marked]

theorem parseNot_reads (fuel : Nat) (ts : List Token) (w : List String)
    (h : 4 * ts.length + 2 ≤ fuel) : Reads .negation ts w (parseNot fuel ⟨marked ts, w⟩) := by
  obtain ⟨fuel, rfl⟩ := Nat.exists_eq_succ_of_ne_zero (show fuel ≠ 0 by omega)
  by_cases hs : StartsWith .not ts
  · obtain ⟨word, us, rfl⟩ := hs
    obtain ⟨f, hr⟩ | ⟨vs, rest, q, rfl, hq, hr⟩ := parseNot_reads fuel us w
      (by simp only [List.length_cons] at h; omega)
    · exact Or.inl ⟨f, parseNot_fault hr word⟩
    · exact Or.inr ⟨_, rest, .not q, (List.cons_append ..).symm, .not word hq, parseNot_not hr word⟩
  · rw [parseNot_operand hs]
    obtain ⟨f, hr⟩ | ⟨us, rest, q, hts, hq, hr⟩ := parsePrimary_reads fuel ts w (by omega)
    · exact Or.inl ⟨f, hr⟩
    · exact Or.inr ⟨us, rest, q, hts, .operand hq, hr⟩

theorem parsePrimary_reads (fuel : Nat) (ts : List Token) (w : List String)
    (h : 4 * ts.length + 1 ≤ fuel) : Reads .primary ts w (parsePrimary fuel ⟨marked ts, w⟩) := by
  obtain ⟨fuel, rfl⟩ := Nat.exists_eq_succ_of_ne_zero (show fuel ≠ 0 by omega)
  cases ts with
  | nil => exact Or.inl ⟨.unexpected none, rfl⟩
  | cons t us =>
    cases t with
    | term value exact =>
      exact Or.inr ⟨[.term value exact], us, _, rfl, .term value exact, rfl⟩
    | connective c word => exact Or.inl ⟨.unexpected (some (.connective c word)), rfl⟩
    | rightParen => exact Or.inl ⟨.unexpected (some .rightParen), rfl⟩
    | leftParen =>
      simp only [parsePrimary, marked_cons]
      obtain ⟨f, hr⟩ | ⟨vs, rest, q, rfl, hq, hr⟩ := parseOr_reads fuel us w
        (by simp only [List.length_cons] at h; omega)
      · rw [hr]
        exact Or.inl ⟨f, rfl⟩
      · rw [hr]
        cases rest with
        | nil => exact Or.inl ⟨.expectedClose none, rfl⟩
        | cons t rest =>
          cases t with
          | rightParen =>
            refine Or.inr ⟨.leftParen :: vs ++ [.rightParen], rest, q, ?_, .group hq, rfl⟩
            simp only [List.cons_append, List.append_assoc, List.nil_append]
          | term value exact => exact Or.inl ⟨.expectedClose (some (.term value exact)), rfl⟩
          | connective c word => exact Or.inl ⟨.expectedClose (some (.connective c word)), rfl⟩
          | leftParen => exact Or.inl ⟨.expectedClose (some .leftParen), rfl⟩

end

/-- What may follow a derivation so that it is read as a whole. -/
def Precedence.EndsBefore : Precedence → List Token → Prop
  | disjunction, rest => ¬ StartsWith .or rest ∧ ¬ StartsWith .and rest
  | conjunction, rest => ¬ StartsWith .and rest
  | negation, _ => True
  | primary, _ => True

theorem endsBefore_links {p : Precedence} {c : Connective} {rest : List Token}
    (hp : ∀ word us, p.EndsBefore (.connective c word :: us)) (hr : p.EndsBefore rest)
    (links : List Link) : p.EndsBefore (linkTokens c links ++ rest) := by
  cases links with
  | nil => exact hr
  | cons l links => exact hp l.word _

/-- The loop of a chain takes every link, if its operands' parser takes every operand. -/
theorem chain_links {c : Connective} {p : Precedence} {operand : Cursor → Parse} {n : Nat}
    {rest : List Token} (join : Formula → Formula → Formula)
    (hp : ∀ word us, p.EndsBefore (.connective c word :: us)) (hr : p.EndsBefore rest)
    (hc : ¬ StartsWith c rest) (links : List Link)
    (hl : ∀ l ∈ links, ∀ rest w, p.EndsBefore rest → l.tokens.length + rest.length ≤ n →
      operand ⟨marked (l.tokens ++ rest), w⟩ = .ok (l.tree, .behind w l.tree rest)) :
    ∀ fuel left w, (linkTokens c links ++ rest).length ≤ n →
      (linkTokens c links ++ rest).length < fuel →
      chain c join operand fuel left ⟨marked (linkTokens c links ++ rest), w⟩ =
        .ok (linkTree join left links,
          ⟨marked rest, w ++ (links.flatMap fun l => l.tree.terms).map Prod.fst⟩) := by
  induction links with
  | nil =>
    intro fuel left w _ hf
    obtain ⟨fuel, rfl⟩ : ∃ k, fuel = k + 1 := ⟨fuel - 1, by omega⟩
    simpa [linkTokens, linkTree] using chain_stop hc join operand fuel left w
  | cons l links ih =>
    intro fuel left w hn hf
    obtain ⟨fuel, rfl⟩ : ∃ k, fuel = k + 1 := ⟨fuel - 1, by omega⟩
    simp only [linkTokens_cons, List.cons_append, List.append_assoc, List.length_cons,
      List.length_append] at hn hf ih ⊢
    have hhead := hl l (List.mem_cons_self ..) (linkTokens c links ++ rest) w
      (endsBefore_links hp hr links) (by simp only [List.length_append]; omega)
    rw [chain_step hhead, Cursor.behind,
      ih (fun l' hl' => hl l' (List.mem_cons_of_mem _ hl')) fuel _ _ (by omega) (by omega)]
    simp only [linkTree_cons, List.flatMap_cons, List.map_append, List.append_assoc]

/-- A derivation is read as a whole, whatever follows that does not extend it. -/
theorem Derives.parses {p : Precedence} {ts : List Token} {q : Formula} (h : Derives p ts q) :
    ∀ rest w fuel, p.EndsBefore rest → 4 * (ts.length + rest.length) + p.depth ≤ fuel →
      parseAt p fuel ⟨marked (ts ++ rest), w⟩ = .ok (q, .behind w q rest) := by
  -- The fuel of an operand is that of its chain less one, so it depends on the level alone.
  induction h with
  | @disjunction ts q links first more ih ihm =>
    intro rest w fuel hr hf
    obtain ⟨fuel, rfl⟩ := Precedence.exists_succ hf
    simp only [Precedence.depth, List.length_append] at hf ih ihm
    have hp (word : String) (us : List Token) :
        Precedence.conjunction.EndsBefore (.connective .or word :: us) := by
      rintro ⟨_, _, he⟩
      cases he
    have hfirst : parseAnd fuel ⟨marked (ts ++ (linkTokens .or links ++ rest)), w⟩ =
        .ok (q, .behind w q (linkTokens .or links ++ rest)) :=
      ih _ w fuel (endsBefore_links hp hr.2 links) (by simp only [List.length_append]; omega)
    rw [parseAt, parseOr, List.append_assoc, hfirst]
    refine (chain_links (n := (linkTokens .or links ++ rest).length) .or hp hr.2 hr.1 links ?_ _ _ _
      (Nat.le_refl _) ?_).trans ?_
    · intro l hl rest' w' hr' hn
      exact ihm l hl rest' w' fuel hr' (by simp only [List.length_append] at hn; omega)
    · simp [Cursor.behind, marked]
    · rw [Cursor.behind, terms_linkTree keepsTerms_or, List.map_append, List.append_assoc]
  | @conjunction ts q links first more ih ihm =>
    intro rest w fuel hr hf
    obtain ⟨fuel, rfl⟩ := Precedence.exists_succ hf
    simp only [Precedence.depth, List.length_append] at hf ih ihm
    have hfirst : parseNot fuel ⟨marked (ts ++ (linkTokens .and links ++ rest)), w⟩ =
        .ok (q, .behind w q (linkTokens .and links ++ rest)) :=
      ih _ w fuel trivial (by simp only [List.length_append]; omega)
    rw [parseAt, parseAnd, List.append_assoc, hfirst]
    refine (chain_links (p := .negation) (n := (linkTokens .and links ++ rest).length) .and
      (fun _ _ => trivial) trivial hr links ?_ _ _ _ (Nat.le_refl _) ?_).trans ?_
    · intro l hl rest' w' hr' hn
      exact ihm l hl rest' w' fuel hr' (by simp only [List.length_append] at hn; omega)
    · simp [Cursor.behind, marked]
    · rw [Cursor.behind, terms_linkTree keepsTerms_and, List.map_append, List.append_assoc]
  | @not ts q word operand ih =>
    intro rest w fuel hr hf
    obtain ⟨fuel, rfl⟩ := Precedence.exists_succ hf
    simp only [Precedence.depth, List.length_cons] at hf ih
    exact parseNot_not (ih rest w fuel trivial (by omega)) word
  | @operand ts q h ih =>
    intro rest w fuel hr hf
    obtain ⟨fuel, rfl⟩ := Precedence.exists_succ hf
    -- A primary begins with a term or a parenthesis.
    have hs : ¬ StartsWith .not (ts ++ rest) := by
      rintro ⟨word, us, he⟩
      cases h <;> cases he
    rw [parseAt, parseNot_operand hs]
    exact ih rest w fuel trivial (by simp only [Precedence.depth] at hf ⊢; omega)
  | term value exact =>
    intro rest w fuel _ hf
    obtain ⟨fuel, rfl⟩ := Precedence.exists_succ hf
    rfl
  | @group ts q inner ih =>
    intro rest w fuel _ hf
    obtain ⟨fuel, rfl⟩ := Precedence.exists_succ hf
    simp only [Precedence.depth, List.length_append, List.length_cons, List.length_nil] at hf ih
    -- A parenthesis that closes extends nothing, so the inner query ends before it.
    have hclose : Precedence.disjunction.EndsBefore (.rightParen :: rest) := by
      constructor <;>
      · rintro ⟨_, _, he⟩
        cases he
    have hinner : parseOr fuel ⟨marked (ts ++ .rightParen :: rest), w⟩ =
        .ok (q, .behind w q (.rightParen :: rest)) :=
      ih _ w fuel hclose (by simp only [List.length_cons]; omega)
    simp only [List.cons_append, List.append_assoc, List.nil_append, parseAt, parsePrimary,
      marked_cons, hinner, Cursor.behind]

end LiveIndex.Query
