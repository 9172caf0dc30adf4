import LiveIndex.Proofs.Path.Descent

/-! The parts of a path and of its parent. They differ by the last name; where nothing but slashes
is left of the parent, or a dot, it has a part that leads nowhere else. -/

namespace LiveIndex

namespace Text

/-- What is put behind a text without a mark goes to its last part. -/
theorem splitChars_append_of_notMem {mark : Char} {b : List Char} (hb : mark ∉ b)
    (a : List Char) : ∃ parts last, splitChars mark a = parts ++ [last] ∧
      splitChars mark (a ++ b) = parts ++ [last ++ b] := by
  induction a with
  | nil => exact ⟨[], [], rfl, splitChars_of_notMem hb⟩
  | cons c rest ih =>
    obtain ⟨parts, last, hrest, happend⟩ := ih
    rw [List.cons_append, splitChars, splitChars, hrest, happend]
    split
    · exact ⟨[] :: parts, last, rfl, rfl⟩
    · cases parts with
      | nil => exact ⟨[], c :: last, rfl, rfl⟩
      | cons part parts => exact ⟨(c :: part) :: parts, last, rfl, rfl⟩

theorem split_append_of_notMem {a b last : String} {parts : List String}
    (hb : '/' ∉ b.toList) (ha : split '/' a = parts ++ [last]) :
    split '/' (a ++ b) = parts ++ [last ++ b] := by
  obtain ⟨parts', last', hsplit, happend⟩ := splitChars_append_of_notMem hb a.toList
  rw [split, hsplit, List.map_append] at ha
  obtain ⟨rfl, hlast⟩ := List.append_inj' ha rfl
  obtain rfl := List.singleton_inj.mp hlast
  rw [split, String.toList_append, happend, List.map_append, List.map_singleton,
    String.ofList_append, String.ofList_toList]

end Text

namespace Path

variable {p q x : String} {ns : List String}

theorem anchor_cases (p : String) : anchor p = "" ∨ anchor p = "/" ∨ anchor p = "//" := by
  unfold anchor
  split
  · exact .inr (.inl rfl)
  · exact .inr (.inr rfl)
  · exact .inr (.inl rfl)
  · exact .inl rfl

theorem split_anchor (p : String) :
    ∃ front, ∀ x, Text.split '/' (anchor p ++ x) = front ++ Text.split '/' x := by
  have hslash (x : String) : Text.split '/' ("/" ++ x) = "" :: Text.split '/' x := by
    rw [← String.empty_append (s := "/"), Text.split_slash_append]
    rfl
  rcases anchor_cases p with hanchor | hanchor | hanchor <;> rw [hanchor]
  · exact ⟨[], fun x => by rw [String.empty_append, List.nil_append]⟩
  · exact ⟨[""], hslash⟩
  · refine ⟨["", ""], fun x => ?_⟩
    have hslashes : "//" ++ x = "/" ++ ("/" ++ x) := by
      rw [← String.append_assoc]
      rfl
    rw [hslashes, hslash, hslash]
    rfl

/-- Slashes stay at the front if none follow. -/
theorem anchor_append (h : isAbsolute x = false) : anchor (anchor p ++ x) = anchor p := by
  have hhead : x.toList.head? ≠ some '/' := of_decide_eq_false h
  rcases anchor_cases p with hanchor | hanchor | hanchor <;> rw [hanchor]
  · rw [String.empty_append]
    unfold anchor
    split
    · next hx => exact absurd (by rw [hx]; rfl) hhead
    · next hx => exact absurd (by rw [hx]; rfl) hhead
    · next hx => exact absurd (by rw [hx]; rfl) hhead
    · rfl
  · have hchars : ("/" ++ x).toList = '/' :: x.toList := String.toList_append
    unfold anchor
    rw [hchars]
    split
    · next hx => exact absurd (by rw [(List.cons.inj hx).2]; rfl) hhead
    · next hx => exact absurd (by rw [(List.cons.inj hx).2]; rfl) hhead
    · rfl
    · next hx => exact absurd rfl (hx x.toList)
  · have hchars : ("//" ++ x).toList = '/' :: '/' :: x.toList := String.toList_append
    unfold anchor
    rw [hchars]
    split
    · next hx => exact absurd (by rw [(List.cons.inj (List.cons.inj hx).2).2]; rfl) hhead
    · rfl
    · next hx htail => exact (hx x.toList (List.cons.inj htail).2.symm).elim
    · next hx => exact absurd rfl (hx ('/' :: x.toList))

/-- The spelling that a path has when it has been made tidy. -/
inductive IsTidy : String → Prop
  | spelled (p : String) (ns : List String) (h : ∀ name ∈ ns, IsName name ∧ name ≠ ".") :
      IsTidy (build (anchor p) ns)

theorem build_ne_empty (a : String) (ns : List String) : build a ns ≠ "" := by
  unfold build
  dsimp only
  split
  · decide
  · next hne => exact hne

theorem IsTidy.ne_empty (h : IsTidy q) : q ≠ "" := by
  cases h with
  | spelled p ns _ => exact build_ne_empty _ _

theorem anchor_build (h : ∀ name ∈ ns, IsName name) : anchor (build (anchor p) ns) = anchor p := by
  have hanchor := anchor_append (p := p) (isAbsolute_intercalate h)
  unfold build
  dsimp only
  split
  · next hempty =>
    rw [hempty] at hanchor
    exact hanchor
  · exact hanchor

theorem parent_build (h : ∀ name ∈ ns, IsName name ∧ name ≠ ".") :
    parent (build (anchor p) ns) = build (anchor p) ns.dropLast := by
  rw [parent, names_build p h, anchor_build fun name hname => (h name hname).1]

theorem IsTidy.parent (h : IsTidy q) : IsTidy (Path.parent q) := by
  cases h with
  | spelled p ns h =>
    rw [parent_build h]
    exact .spelled p _ fun name hname => h name (List.dropLast_subset ns hname)

/-- A path goes on from another one by a name, but for parts that lead nowhere else. -/
structure GoesOn (above name q : String) : Prop where
  parts : ∃ parts tail, Text.split '/' q = parts ++ [name] ∧
    Text.split '/' above = parts ++ tail ∧ ∀ part ∈ tail, part = "" ∨ part = "."
  above_ne_empty : above ≠ ""
  ne_empty : q ≠ ""

/-- What is put behind the name is put behind the path. -/
theorem GoesOn.append {above name : String} (h : GoesOn above name q) (hx : '/' ∉ x.toList) :
    GoesOn above (name ++ x) (q ++ x) := by
  obtain ⟨⟨parts, tail, hparts, habove, htail⟩, hne, hq⟩ := h
  refine ⟨⟨parts, tail, Text.split_append_of_notMem hx hparts, habove, htail⟩, hne, ?_⟩
  intro hempty
  have hchars := congrArg String.toList hempty
  rw [String.toList_append] at hchars
  exact hq (String.toList_eq_nil_iff.mp (List.append_eq_nil_iff.mp hchars).1)

theorem IsTidy.goesOn (h : IsTidy q) (hlast : lastName q ≠ "") :
    GoesOn (Path.parent q) (lastName q) q := by
  refine ⟨?_, h.parent.ne_empty, h.ne_empty⟩
  cases h with
  | spelled p ns h =>
    have hparent := parent_build (p := p) h
    rw [lastName, names_build p h] at hlast ⊢
    rcases List.eq_nil_or_concat' ns with rfl | ⟨above, last, rfl⟩
    · exact absurd rfl hlast
    · obtain ⟨front, hfront⟩ := split_anchor p
      have hname (name : String) (hname : name ∈ above ++ [last]) : IsName name :=
        (h name hname).1
      have hsplit : Text.split '/' (build (anchor p) (above ++ [last])) =
          front ++ (above ++ [last]) := by
        have hne : above ++ [last] ≠ [] :=
          List.append_ne_nil_of_right_ne_nil _ (List.cons_ne_nil _ _)
        have hpath : anchor p ++ "/".intercalate (above ++ [last]) ≠ "" := by
          intro hempty
          have hnames := congrArg names hempty
          rw [names_anchor, names_intercalate h] at hnames
          exact hne hnames
        rw [build, if_neg hpath, hfront, split_intercalate hne hname]
      rw [List.getLastD_concat, hsplit, hparent, List.dropLast_concat, ← List.append_assoc]
      by_cases habove : above = []
      · subst habove
        -- Of the parent, slashes are left at most.
        rw [List.append_nil]
        rcases anchor_cases p with hanchor | hanchor | hanchor
        · have hnone := hfront "."
          rw [hanchor] at hnone ⊢
          exact ⟨front, ["."], rfl, hnone, by simp⟩
        · have hnone := hfront ""
          rw [hanchor] at hnone ⊢
          exact ⟨front, [""], rfl, hnone, by simp⟩
        · have hnone := hfront ""
          rw [hanchor] at hnone ⊢
          exact ⟨front, [""], rfl, hnone, by simp⟩
      · have hpath : anchor p ++ "/".intercalate above ≠ "" := by
          intro hempty
          have hnames := congrArg names hempty
          rw [names_anchor, names_intercalate fun name hname =>
            h name (List.mem_append_left _ hname)] at hnames
          exact habove hnames
        refine ⟨front ++ above, [], rfl, ?_, fun part hpart => absurd hpart List.not_mem_nil⟩
        rw [build, if_neg hpath, hfront, split_intercalate habove fun name hmem =>
          hname name (List.mem_append_left _ hmem), List.append_nil]

end Path

end LiveIndex
