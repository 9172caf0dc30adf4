import LiveIndex.Proofs.Path.Beneath

/-! Paths that lead down from a directory, one name after another. The names on such a path are
those of the directory and the ones that it goes down by, and the latter are what is seen of it from
the directory. -/

namespace LiveIndex

namespace Text

theorem splitChars_ne_nil (mark : Char) (l : List Char) : splitChars mark l ≠ [] := by
  cases l with
  | nil => exact List.cons_ne_nil _ _
  | cons c rest =>
    unfold splitChars
    split
    · exact List.cons_ne_nil _ _
    · split <;> exact List.cons_ne_nil _ _

/-- A mark parts what is before it from what is after it. -/
theorem splitChars_append (mark : Char) (a b : List Char) :
    splitChars mark (a ++ mark :: b) = splitChars mark a ++ splitChars mark b := by
  induction a with
  | nil => simp [splitChars]
  | cons c rest ih =>
    rw [List.cons_append, splitChars, splitChars, ih]
    split
    · rfl
    · cases hrest : splitChars mark rest with
      | nil => exact absurd hrest (splitChars_ne_nil mark rest)
      | cons part parts => rfl

theorem splitChars_of_notMem {mark : Char} {l : List Char} (h : mark ∉ l) :
    splitChars mark l = [l] := by
  induction l with
  | nil => rfl
  | cons c rest ih =>
    rw [List.mem_cons, not_or] at h
    rw [splitChars, ih h.2, if_neg (Ne.symm h.1)]

theorem split_slash_append (a b : String) :
    split '/' (a ++ "/" ++ b) = split '/' a ++ split '/' b := by
  have hchars : (a ++ "/" ++ b).toList = a.toList ++ '/' :: b.toList := by
    rw [String.toList_append, String.toList_append, List.append_assoc]
    rfl
  rw [split, hchars, splitChars_append, List.map_append]
  rfl

end Text

namespace Path

/-- A name that stands for itself, unlike a dot or two. -/
def IsPlain (name : String) : Prop :=
  IsName name ∧ name ≠ "." ∧ name ≠ ".."

variable {dir p root : String} {ns : List String}

theorem split_of_isName {name : String} (h : IsName name) : Text.split '/' name = [name] := by
  rw [Text.split, Text.splitChars_of_notMem h.2, List.map_singleton, String.ofList_toList]

/-- A path is what follows its last slash, and nothing before that or something up to the slash. -/
theorem exists_afterSlash (p : String) :
    ∃ front, p.toList = front ++ (afterSlash p).toList ∧ ∀ c ∈ front.getLast?, c = '/' := by
  by_cases h : '/' ∈ p.toList
  · obtain ⟨back, front, hsplit, hback⟩ := List.eq_append_cons_of_mem (List.mem_reverse.mpr h)
    have hchars : p.toList = front.reverse ++ '/' :: back.reverse := by
      rw [← List.reverse_reverse p.toList, hsplit]
      simp
    have hnone : '/' ∉ back.reverse := fun hm => hback (List.mem_reverse.mp hm)
    refine ⟨front.reverse ++ ['/'], ?_, by simp⟩
    rw [afterSlash, Text.split, hchars, Text.splitChars_append, Text.splitChars_of_notMem hnone]
    simp
  · refine ⟨[], ?_, by simp⟩
    rw [afterSlash, Text.split, Text.splitChars_of_notMem h]
    simp

theorem names_slash_append (a b : String) : names (a ++ "/" ++ b) = names a ++ names b := by
  rw [names, Text.split_slash_append, List.filter_append]
  rfl

theorem names_of_isName {name : String} (h : IsName name) (hdot : name ≠ ".") :
    names name = [name] := by
  rw [names, split_of_isName h]
  simp [h.1, hdot]

theorem names_slash_start (b : String) : names ("/" ++ b) = names b := by
  rw [← String.empty_append (s := "/"), names_slash_append]
  rfl

theorem names_anchor (p b : String) : names (anchor p ++ b) = names b := by
  unfold anchor
  split
  · exact names_slash_start b
  · have hsplit : "//" ++ b = "/" ++ ("/" ++ b) := by
      rw [← String.append_assoc]
      rfl
    rw [hsplit, names_slash_start, names_slash_start]
  · exact names_slash_start b
  · rw [String.empty_append]

theorem names_intercalate (h : ∀ name ∈ ns, IsName name ∧ name ≠ ".") :
    names ("/".intercalate ns) = ns := by
  induction ns with
  | nil => rfl
  | cons first rest ih =>
    have hfirst := h first List.mem_cons_self
    have hrest := ih fun name hname => h name (List.mem_cons_of_mem _ hname)
    cases rest with
    | nil => rw [String.intercalate_singleton, names_of_isName hfirst.1 hfirst.2]
    | cons second rest =>
      rw [String.intercalate_cons_cons, names_slash_append, hrest,
        names_of_isName hfirst.1 hfirst.2]
      rfl

/-- What is built from names has these names. -/
theorem names_build (p : String) (h : ∀ name ∈ ns, IsName name ∧ name ≠ ".") :
    names (build (anchor p) ns) = ns := by
  have hnames : names (anchor p ++ "/".intercalate ns) = ns := by
    rw [names_anchor, names_intercalate h]
  unfold build
  dsimp only
  split
  · next hempty =>
    rw [hempty] at hnames
    exact hnames
  · exact hnames

theorem dropParents_cons {absolute : Bool} {name : String} (h : name ≠ "..")
    (before rest : List String) :
    dropParents absolute before (name :: rest) = dropParents absolute (name :: before) rest := by
  cases before <;> rw [dropParents, if_pos h]

/-- Names other than parents stay behind what is left of those before them. -/
theorem dropParents_append {absolute : Bool} {before rest : List String} (h : ".." ∉ ns) :
    dropParents absolute before (rest ++ ns) = dropParents absolute before rest ++ ns := by
  fun_induction dropParents absolute before rest with
  | case1 before =>
    rw [List.nil_append]
    induction ns generalizing before with
    | nil => rw [dropParents, List.append_nil]
    | cons name ns ih =>
      rw [List.mem_cons, not_or] at h
      rw [dropParents_cons (Ne.symm h.1), ih h.2, List.reverse_cons, List.append_assoc]
      rfl
  | case2 before first rest hfirst ih => rw [List.cons_append, dropParents_cons hfirst, ih]
  | case3 first rest hfirst habsolute ih =>
    rw [List.cons_append, dropParents, if_neg hfirst, if_pos habsolute, ih]
  | case4 first rest hfirst habsolute ih =>
    rw [List.cons_append, dropParents, if_neg hfirst, if_neg habsolute, ih]
  | case5 first rest hfirst before ih =>
    rw [List.cons_append, dropParents, if_neg hfirst, if_pos rfl, ih]
  | case6 first rest hfirst b before hb ih =>
    rw [List.cons_append, dropParents, if_neg hfirst, if_neg hb, ih]

theorem names_normal (p : String) :
    names (normal p) = dropParents (isAbsolute p) [] (names p) := by
  refine names_build p fun name hname => ?_
  rcases mem_dropParents hname with h | h | rfl
  · exact absurd h List.not_mem_nil
  · have hdot := (List.mem_filter.mp h).2
    rw [Bool.and_eq_true, decide_eq_true_eq, decide_eq_true_eq] at hdot
    exact ⟨isName_of_mem_names h, hdot.2⟩
  · refine ⟨⟨by decide, by decide⟩, by decide⟩

theorem absoluteNames_of_absolute (h : isAbsolute p = true) :
    absoluteNames p = dropParents true [] (names p) := by
  rw [absoluteNames, join, if_pos h, names_normal, h]

/-- The path below a directory that goes down by names. -/
def descend (dir : String) (ns : List String) : String :=
  ns.foldl join dir

theorem descend_concat (dir : String) (ns : List String) (name : String) :
    descend dir (ns ++ [name]) = join (descend dir ns) name := by
  rw [descend, List.foldl_append]
  rfl

/-- A directory that paths are joined to without a slash, and one that needs it. -/
theorem join_cases (dir : String) {name : String} (h : IsName name) :
    (∃ rest, Text.split '/' dir = rest ++ [""] ∧ Text.split '/' (join dir name) = rest ++ [name]) ∨
      Text.split '/' (join dir name) = Text.split '/' dir ++ [name] := by
  have hjoin : join dir name =
      if dir = "" ∨ dir.toList.getLast? = some '/' then dir ++ name else dir ++ "/" ++ name := by
    rw [join, h.relative]
    rfl
  rw [hjoin]
  split
  · next hdir =>
    left
    rcases hdir with rfl | hslash
    · exact ⟨[], rfl, by rw [String.empty_append, split_of_isName h, List.nil_append]⟩
    · obtain ⟨front, hfront⟩ := List.getLast?_eq_some_iff.mp hslash
      have hdir : dir = String.ofList front ++ "/" := by
        apply String.toList_inj.mp
        rw [hfront, String.toList_append, String.toList_ofList]
        rfl
      refine ⟨Text.split '/' (String.ofList front), ?_, ?_⟩
      · rw [hdir, ← String.append_empty (s := String.ofList front ++ "/"),
          Text.split_slash_append]
        rfl
      · rw [hdir, Text.split_slash_append, split_of_isName h]
  · right
    rw [Text.split_slash_append, split_of_isName h]

theorem names_join {name : String} (h : IsPlain name) :
    names (join dir name) = names dir ++ [name] := by
  have hkept : [name].filter (fun s => s ≠ "" && s ≠ ".") = [name] := by
    simp [h.1.1, h.2.1]
  rcases join_cases dir h.1 with ⟨rest, hdir, hjoin⟩ | hjoin
  · rw [names, names, hdir, hjoin, List.filter_append, List.filter_append, hkept]
    simp
  · rw [names, names, hjoin, List.filter_append, hkept]

theorem names_descend (h : ∀ name ∈ ns, IsPlain name) :
    names (descend dir ns) = names dir ++ ns := by
  induction ns using List.reverseRecOn with
  | nil => rw [List.append_nil]; rfl
  | append_singleton ns name ih =>
    rw [descend_concat, names_join (h name (List.mem_append_right _ List.mem_cons_self)),
      ih fun n hn => h n (List.mem_append_left _ hn), List.append_assoc]

theorem descend_ne_empty (h : ∀ name ∈ ns, IsPlain name) (hne : ns ≠ []) :
    descend dir ns ≠ "" := by
  intro hempty
  have hnames : names (descend dir ns) = names dir ++ ns := names_descend h
  rw [hempty] at hnames
  exact hne (List.append_eq_nil_iff.mp hnames.symm).2

/-- The parts of a path that leads down are those of the directory, an empty one at its end aside,
and the names. -/
theorem split_descend (dir : String) (h : ∀ name ∈ ns, IsPlain name) (hne : ns ≠ []) :
    ∃ parts tail, Text.split '/' dir = parts ++ tail ∧ (∀ part ∈ tail, part = "") ∧
      Text.split '/' (descend dir ns) = parts ++ ns := by
  induction ns using List.reverseRecOn with
  | nil => exact absurd rfl hne
  | append_singleton ns name ih =>
    have hname := (h name (List.mem_append_right _ List.mem_cons_self)).1
    rw [descend_concat]
    have hcases := join_cases (descend dir ns) hname
    by_cases hns : ns = []
    · subst hns
      rcases hcases with ⟨parts, hdir, hjoin⟩ | hjoin
      · exact ⟨parts, [""], hdir, fun part hpart => List.mem_singleton.mp hpart, hjoin⟩
      · exact ⟨Text.split '/' dir, [], (List.append_nil _).symm,
          fun part hpart => absurd hpart List.not_mem_nil, hjoin⟩
    · obtain ⟨parts, tail, hdir, htail, hparts⟩ :=
        ih (fun n hn => h n (List.mem_append_left _ hn)) hns
      refine ⟨parts, tail, hdir, htail, ?_⟩
      rcases hcases with ⟨rest, hempty, -⟩ | hjoin
      · -- The last part is a name.
        obtain ⟨front, last, rfl⟩ := (List.eq_nil_or_concat' ns).resolve_left hns
        rw [hparts, ← List.append_assoc] at hempty
        obtain ⟨-, hlast⟩ := List.append_inj' hempty rfl
        have hplain := h last (List.mem_append_left _ (List.mem_append_right _ List.mem_cons_self))
        exact absurd (List.singleton_inj.mp hlast) hplain.1.1
      · rw [hjoin, hparts, List.append_assoc]

theorem descend_inj {ms : List String} (hns : ∀ name ∈ ns, IsPlain name)
    (hms : ∀ name ∈ ms, IsPlain name) (h : descend dir ns = descend dir ms) : ns = ms := by
  have hnames := congrArg names h
  rw [names_descend hns, names_descend hms] at hnames
  exact List.append_cancel_left hnames

theorem isAbsolute_join {name : String} (h : IsName name) :
    isAbsolute (join dir name) = isAbsolute dir := by
  by_cases hdir : dir = ""
  · have hjoin : join dir name = name := by simp [join, h.relative, hdir]
    rw [hjoin, h.relative, hdir]
    rfl
  · have hchars : dir.toList ≠ [] := fun hnil => hdir (String.toList_eq_nil_iff.mp hnil)
    have hhead : (front dir).head? = dir.toList.head? := by
      unfold front
      split
      · rfl
      · exact List.head?_append_of_ne_nil _ hchars
    have hfront : front dir ≠ [] := by
      unfold front
      split
      · exact hchars
      · exact List.append_ne_nil_of_left_ne_nil hchars _
    rw [isAbsolute, toList_join h.relative, List.head?_append_of_ne_nil _ hfront, hhead]
    rfl

theorem isAbsolute_descend (h : ∀ name ∈ ns, IsPlain name) :
    isAbsolute (descend dir ns) = isAbsolute dir := by
  induction ns using List.reverseRecOn with
  | nil => rfl
  | append_singleton ns name ih =>
    rw [descend_concat, isAbsolute_join (h name (List.mem_append_right _ List.mem_cons_self)).1,
      ih fun n hn => h n (List.mem_append_left _ hn)]

theorem absoluteNames_descend (hdir : isAbsolute dir = true) (h : ∀ name ∈ ns, IsPlain name) :
    absoluteNames (descend dir ns) = absoluteNames dir ++ ns := by
  have hpath : isAbsolute (descend dir ns) = true := (isAbsolute_descend h).trans hdir
  have hparent : ".." ∉ ns := fun hmem => (h _ hmem).2.2 rfl
  rw [absoluteNames_of_absolute hpath, absoluteNames_of_absolute hdir, names_descend h,
    dropParents_append hparent]

theorem dropCommon_append (as bs : List String) : dropCommon (as ++ bs) as = (bs, []) := by
  induction as with
  | nil => cases bs <;> rfl
  | cons a as ih => rw [List.cons_append, dropCommon, if_pos rfl, ih]

theorem relativeNames_descend (hdir : isAbsolute dir = true) (h : ∀ name ∈ ns, IsPlain name) :
    relativeNames (descend dir ns) dir = ns := by
  simp only [relativeNames, absoluteNames_descend hdir h, dropCommon_append, List.map_nil,
    List.nil_append]

theorem split_intercalate (hne : ns ≠ []) (h : ∀ name ∈ ns, IsName name) :
    Text.split '/' ("/".intercalate ns) = ns := by
  induction ns with
  | nil => exact absurd rfl hne
  | cons first rest ih =>
    have hfirst := split_of_isName (h first List.mem_cons_self)
    cases rest with
    | nil => rw [String.intercalate_singleton, hfirst]
    | cons second rest =>
      rw [String.intercalate_cons_cons, Text.split_slash_append, hfirst,
        ih (List.cons_ne_nil _ _) fun name hname => h name (List.mem_cons_of_mem _ hname)]
      rfl

/-- What is seen of a path from the directory that it goes down from is the names that it goes down
by. -/
theorem relative?_descend_eq (hdir : isAbsolute dir = true) (hne : ns ≠ [])
    (h : ∀ name ∈ ns, IsPlain name) :
    relative? (descend dir ns) dir = some ("/".intercalate ns) := by
  have hpath : descend dir ns ≠ "" := descend_ne_empty h hne
  obtain ⟨c, hc, -⟩ := getLast?_intercalate hne fun name hname => (h name hname).1
  have hjoined : "/".intercalate ns ≠ "" := by
    intro hempty
    rw [hempty] at hc
    cases hc
  rw [relative?, if_neg hpath, relativeNames_descend hdir h, build, String.empty_append,
    if_neg hjoined]

theorem relative?_descend (hdir : isAbsolute dir = true) (hne : ns ≠ [])
    (h : ∀ name ∈ ns, IsPlain name) :
    ∃ r, relative? (descend dir ns) dir = some r ∧ Text.split '/' r = ns :=
  ⟨_, relative?_descend_eq hdir hne h, split_intercalate hne fun name hname => (h name hname).1⟩

theorem isAbsolute_intercalate (h : ∀ name ∈ ns, IsName name) :
    isAbsolute ("/".intercalate ns) = false := by
  cases ns with
  | nil => rfl
  | cons first rest =>
    have hfirst := h first List.mem_cons_self
    cases rest with
    | nil =>
      rw [String.intercalate_singleton]
      exact hfirst.relative
    | cons second rest =>
      rw [String.intercalate_cons_cons, isAbsolute, String.append_assoc, String.toList_append,
        List.head?_append_of_ne_nil _ hfirst.toList_ne_nil]
      exact hfirst.relative

/-- Names go down all at once as they do one by one. -/
theorem join_intercalate (hne : ns ≠ []) (h : ∀ name ∈ ns, IsPlain name) :
    join dir ("/".intercalate ns) = descend dir ns := by
  induction ns generalizing dir with
  | nil => exact absurd rfl hne
  | cons first rest ih =>
    cases rest with
    | nil =>
      rw [String.intercalate_singleton]
      rfl
    | cons second rest =>
      obtain ⟨hfirst, hrest⟩ := List.forall_mem_cons.mp h
      have hne' : second :: rest ≠ [] := List.cons_ne_nil _ _
      have hdeeper : descend dir (first :: second :: rest) =
          join (join dir first) ("/".intercalate (second :: rest)) := (ih hne' hrest).symm
      apply String.toList_inj.mp
      rw [hdeeper, toList_join (isAbsolute_intercalate fun name hname => (hrest name hname).1),
        toList_join (isAbsolute_intercalate fun name hname => (h name hname).1),
        hfirst.1.front_join,
        String.intercalate_cons_cons, String.toList_append, String.toList_append,
        List.append_assoc, List.append_assoc, List.append_assoc]
      rfl

theorem getLast?_descend (hne : ns ≠ []) (h : ∀ name ∈ ns, IsPlain name) :
    (descend dir ns).toList.getLast? ≠ some '/' := by
  obtain ⟨front, name, rfl⟩ := (List.eq_nil_or_concat' ns).resolve_left hne
  have hname := (h name (List.mem_append_right _ List.mem_cons_self)).1
  rw [descend_concat, toList_join hname.relative,
    List.getLast?_append_of_ne_nil _ hname.toList_ne_nil]
  exact fun hlast => hname.2 (List.mem_of_getLast? hlast)

/-- A path that lies beneath another one that leads down from the same directory goes on from it. -/
theorem descend_of_isBeneath {ms : List String} (hne : ns ≠ []) (hns : ∀ name ∈ ns, IsPlain name)
    (hms : ∀ name ∈ ms, IsPlain name)
    (h : isBeneath (descend dir ns) (descend dir ms) = true) :
    ∃ rest, rest ≠ [] ∧ ms = ns ++ rest := by
  have hplain : (descend dir ns).toList.getLast? ≠ some '/' := getLast?_descend hne hns
  rw [isBeneath_iff, trunk_of_plain hplain] at h
  obtain ⟨rest, hrest⟩ := h
  have hpath : descend dir ms = descend dir ns ++ "/" ++ String.ofList rest := by
    apply String.toList_inj.mp
    rw [← hrest, String.toList_append, String.toList_append, String.toList_ofList (l := rest)]
    rfl
  have hnames := congrArg names hpath
  rw [names_descend hms, names_slash_append, names_descend hns, List.append_assoc] at hnames
  refine ⟨names (String.ofList rest), ?_, List.append_cancel_left hnames⟩
  -- With no more names it would be the same path.
  intro hnone
  rw [hnone, List.append_nil, List.append_cancel_left_eq] at hnames
  have hlength := congrArg List.length hrest
  rw [hnames, List.length_append, List.length_append, List.length_singleton] at hlength
  omega

/-- The last name on a path that goes down by names is the last of these. -/
theorem baseName_descend {above : List String} {name : String}
    (h : ∀ n ∈ above ++ [name], IsPlain n) : baseName (descend dir (above ++ [name])) = name := by
  have hname := h name (List.mem_append_right _ (List.mem_singleton_self name))
  have hplain : (descend dir (above ++ [name])).toList.getLast? ≠ some '/' :=
    getLast?_descend (List.append_ne_nil_of_right_ne_nil _ (List.cons_ne_nil _ _)) h
  have hend : Text.dropEnd '/' (descend dir (above ++ [name])) = descend dir (above ++ [name]) := by
    apply String.toList_inj.mp
    rw [Text.dropEnd, String.toList_ofList]
    exact trunk_of_plain hplain
  have hafter : afterSlash (descend dir (above ++ [name])) = name := by
    rw [afterSlash, descend_concat]
    rcases join_cases (descend dir above) hname.1 with ⟨rest, -, hjoin⟩ | hjoin
    · rw [hjoin, List.getLastD_concat]
    · rw [hjoin, List.getLastD_concat]
  rw [baseName, hend, hafter, if_neg hname.1.1]

/-- Of two ways down, one that does not begin like the other one leads neither to the same path nor
to one beneath. -/
theorem descend_apart {ms : List String} (hns : ∀ name ∈ ns, IsPlain name)
    (hms : ∀ name ∈ ms, IsPlain name) (hne : ms ≠ []) (h : ¬ms <+: ns) :
    descend dir ns ≠ descend dir ms ∧
      isBeneath (descend dir ms) (descend dir ns) = false := by
  constructor
  · intro hsame
    rw [descend_inj hns hms hsame] at h
    exact h List.prefix_rfl
  · rw [Bool.eq_false_iff]
    intro hbeneath
    obtain ⟨rest, -, rfl⟩ := descend_of_isBeneath hne hms hns hbeneath
    exact h (List.prefix_append ms rest)

end Path

end LiveIndex
