import LiveIndex.Path
import Mathlib.Data.List.DropRight

/-! Which paths lie beneath which, by their characters. -/

namespace LiveIndex.Path

/-- The characters of a path, slashes at its end aside. -/
def trunk (p : String) : List Char :=
  p.toList.rdropWhile (· = '/')

theorem toList_beneath (dir : String) : (beneath dir).toList = trunk dir ++ ['/'] := by
  rw [beneath, String.toList_append, Text.dropEnd, String.toList_ofList]
  rfl

theorem isBeneath_iff {dir p : String} :
    isBeneath dir p = true ↔ trunk dir ++ ['/'] <+: p.toList := by
  rw [isBeneath, Text.startsWith, toList_beneath, List.isPrefixOf_iff_prefix]

theorem trunk_of_plain {p : String} (h : p.toList.getLast? ≠ some '/') : trunk p = p.toList := by
  refine List.rdropWhile_eq_self_iff.mpr fun hne hlast => h ?_
  rw [List.getLast?_eq_some_getLast hne, of_decide_eq_true hlast]

/-- What lies beneath a path that lies beneath another one lies beneath that one too. -/
theorem isBeneath_trans {dir mid p : String} (hmid : isBeneath dir mid = true)
    (hp : isBeneath mid p = true) : isBeneath dir p = true := by
  rw [isBeneath_iff] at hmid hp ⊢
  have hsplit : trunk mid ++ mid.toList.rtakeWhile (· = '/') = mid.toList :=
    List.rdropWhile_append_rtakeWhile
  rw [← hsplit] at hmid
  rcases Nat.lt_or_ge (trunk dir).length (trunk mid).length with hlt | hge
  · -- The trunk of the one in the middle goes on after the slash.
    have hprefix : trunk dir ++ ['/'] <+: trunk mid :=
      List.prefix_of_prefix_length_le hmid (List.prefix_append ..) (by
        rw [List.length_append, List.length_singleton]
        exact hlt)
    exact hprefix.trans ((List.prefix_append ..).trans hp)
  · -- It is followed by slashes only, and a trunk does not end in one.
    have hshort : trunk mid <+: trunk dir :=
      List.prefix_of_prefix_length_le (List.prefix_append _ _) ((List.prefix_append _ _).trans hmid)
        hge
    obtain ⟨rest, hrest⟩ := hshort
    have hnil : rest = [] := by
      by_contra hne
      have hdir : trunk dir ≠ [] := by
        rw [← hrest]
        exact fun h => hne (List.append_eq_nil_iff.mp h).2
      refine List.rdropWhile_last_not _ _ hdir ?_
      have hslashes : rest <+: mid.toList.rtakeWhile (· = '/') := by
        have hmid := (List.prefix_append _ _).trans hmid
        rw [← hrest] at hmid
        exact (List.prefix_append_right_inj _).mp hmid
      have hlast : (trunk dir).getLast hdir = rest.getLast hne := by
        simp only [← hrest]
        exact List.getLast_append_of_ne_nil _ hne
      have hmem := hslashes.mem (List.getLast_mem hne)
      have hslash := List.mem_rtakeWhile_imp hmem
      rw [← hlast] at hslash
      exact hslash
    rw [hnil, List.append_nil] at hrest
    rw [← hrest]
    exact hp

/-- Of two paths that differ by slashes at their ends, one lies beneath the other. -/
theorem eq_or_isBeneath_of_trunk {a b : String} (h : trunk a = trunk b) :
    a = b ∨ isBeneath a b = true ∨ isBeneath b a = true := by
  have hsplit (p : String) : trunk p ++ p.toList.rtakeWhile (· = '/') = p.toList :=
    List.rdropWhile_append_rtakeWhile
  have hslash {p q : String} (hpq : trunk p = trunk q) {c : Char} {rest : List Char}
      (hq : q.toList.rtakeWhile (· = '/') = c :: rest) : isBeneath p q = true := by
    have hc : c = '/' := by
      have hmem : c ∈ q.toList.rtakeWhile (· = '/') := by
        rw [hq]
        exact List.mem_cons_self
      simpa using List.mem_rtakeWhile_imp hmem
    rw [isBeneath_iff, ← hsplit q, hq, hpq, hc]
    exact (List.prefix_append_right_inj _).mpr (List.cons_prefix_cons.mpr ⟨rfl, List.nil_prefix⟩)
  cases ha : a.toList.rtakeWhile (· = '/') with
  | cons c rest => exact .inr (.inr (hslash h.symm ha))
  | nil =>
    cases hb : b.toList.rtakeWhile (· = '/') with
    | cons c rest => exact .inr (.inl (hslash h hb))
    | nil =>
      left
      rw [← String.toList_inj, ← hsplit a, ← hsplit b, ha, hb, h]

/-- Of two paths that have a path beneath them in common, one lies beneath the other. -/
theorem eq_or_isBeneath_of_common {a b p : String} (ha : isBeneath a p = true)
    (hb : isBeneath b p = true) : a = b ∨ isBeneath a b = true ∨ isBeneath b a = true := by
  rw [isBeneath_iff] at ha hb
  have hlonger {c d : String} (h : trunk c ++ ['/'] <+: trunk d ++ ['/']) :
      trunk c = trunk d ∨ isBeneath c d = true := by
    rcases List.prefix_concat_iff.mp h with heq | hstart
    · exact .inl (List.append_cancel_right heq)
    · exact .inr (isBeneath_iff.mpr (hstart.trans (List.rdropWhile_prefix _ _)))
  rcases List.prefix_or_prefix_of_prefix ha hb with h | h
  · rcases hlonger h with heq | hbeneath
    · exact eq_or_isBeneath_of_trunk heq
    · exact .inr (.inl hbeneath)
  · rcases hlonger h with heq | hbeneath
    · exact eq_or_isBeneath_of_trunk heq.symm
    · exact .inr (.inr hbeneath)

/-- The characters that all paths start with which are joined to a directory. -/
def front (dir : String) : List Char :=
  if dir = "" ∨ dir.toList.getLast? = some '/' then dir.toList else dir.toList ++ ['/']

theorem prefix_front (dir : String) : dir.toList <+: front dir := by
  rw [front]
  split
  · exact List.prefix_rfl
  · exact List.prefix_append ..

/-- Beneath a path that does not end in a slash is what goes on from it after one. -/
theorem isBeneath_iff_front {dir p : String} (hne : dir ≠ "")
    (hlast : dir.toList.getLast? ≠ some '/') :
    isBeneath dir p = true ↔ front dir <+: p.toList := by
  rw [isBeneath_iff, trunk_of_plain hlast, front, if_neg (not_or.mpr ⟨hne, hlast⟩)]

theorem toList_join {dir p : String} (h : isAbsolute p = false) :
    (join dir p).toList = front dir ++ p.toList := by
  rw [join, if_neg (by rw [h]; exact Bool.false_ne_true), front]
  split
  · exact String.toList_append
  · rw [String.toList_append, String.toList_append]
    rfl

/-- Of two ways down that go together, one of which starts with a name and a slash, the other one
is that name or goes deeper. -/
theorem eq_or_deeper {name x y : List Char} (hname : '/' ∉ name)
    (h : x ++ ['/'] <+: name ++ ['/'] ++ y) : x = name ∨ name ++ ['/'] <+: x := by
  rcases Nat.lt_or_ge name.length x.length with hlt | hge
  · right
    refine List.prefix_of_prefix_length_le (List.prefix_append ..)
      ((List.prefix_append x ['/']).trans h) ?_
    rw [List.length_append, List.length_singleton]
    exact hlt
  · left
    rw [List.append_assoc] at h
    have hshort : x <+: name :=
      List.prefix_of_prefix_length_le ((List.prefix_append x ['/']).trans h)
        (List.prefix_append ..) hge
    obtain ⟨_ | ⟨c, rest⟩, rfl⟩ := hshort
    · rw [List.append_nil]
    · -- The slash after the first way would be in the name.
      rw [List.append_assoc, List.prefix_append_right_inj] at h
      obtain rfl : '/' = c := (List.cons_prefix_cons.mp h).1
      exact absurd (List.mem_append_right _ List.mem_cons_self) hname

theorem notMem_splitChars (mark : Char) (l : List Char) :
    ∀ part ∈ Text.splitChars mark l, mark ∉ part := by
  induction l with
  | nil =>
    intro part hpart
    rw [List.mem_singleton.mp hpart]
    exact List.not_mem_nil
  | cons c rest ih =>
    unfold Text.splitChars
    split
    · intro part hpart
      rcases List.mem_cons.mp hpart with rfl | hpart
      · exact List.not_mem_nil
      · exact ih part hpart
    · next hc =>
      intro part hpart
      have hne : mark ≠ c := fun h => hc h.symm
      split at hpart
      · rw [List.mem_singleton.mp hpart, List.mem_singleton]
        exact hne
      · next first parts hparts =>
        rw [hparts] at ih
        rcases List.mem_cons.mp hpart with rfl | hpart
        · rw [List.mem_cons, not_or]
          exact ⟨hne, ih first List.mem_cons_self⟩
        · exact ih part (List.mem_cons_of_mem _ hpart)

/-- A name is not empty and has no slash. -/
def IsName (name : String) : Prop :=
  name ≠ "" ∧ '/' ∉ name.toList

theorem isName_of_mem_names {p name : String} (h : name ∈ names p) : IsName name := by
  obtain ⟨hmem, hname⟩ := List.mem_filter.mp h
  rw [Bool.and_eq_true, decide_eq_true_eq] at hname
  obtain ⟨part, hpart, rfl⟩ := List.mem_map.mp hmem
  refine ⟨hname.1, ?_⟩
  rw [String.toList_ofList]
  exact notMem_splitChars '/' _ part hpart

theorem IsName.relative {name : String} (h : IsName name) : isAbsolute name = false := by
  rw [isAbsolute, decide_eq_false_iff_not]
  exact fun hhead => h.2 (List.mem_of_head? hhead)

theorem IsName.toList_ne_nil {name : String} (h : IsName name) : name.toList ≠ [] :=
  fun hnil => h.1 (String.toList_eq_nil_iff.mp hnil)

theorem IsName.front_join {name : String} (h : IsName name) (dir : String) :
    front (join dir name) = front dir ++ name.toList ++ ['/'] := by
  have hchars : (join dir name).toList = _ := toList_join h.relative
  have hplain : ¬(join dir name = "" ∨ (join dir name).toList.getLast? = some '/') := by
    rintro (hempty | hslash)
    · rw [hempty] at hchars
      exact h.toList_ne_nil (List.append_eq_nil_iff.mp hchars.symm).2
    · rw [hchars, List.getLast?_append_of_ne_nil _ h.toList_ne_nil] at hslash
      exact h.2 (List.mem_of_getLast? hslash)
  rw [front, if_neg hplain, hchars]

/-- Taking parents away leaves names that were there, or parents. -/
theorem mem_dropParents {absolute : Bool} {before rest : List String} {name : String}
    (h : name ∈ dropParents absolute before rest) :
    name ∈ before ∨ name ∈ rest ∨ name = ".." := by
  fun_induction dropParents absolute before rest with
  | case1 before => exact .inl (List.mem_reverse.mp h)
  | case2 before first rest _ ih =>
    rcases ih h with h | h | h
    · rcases List.mem_cons.mp h with rfl | h
      · exact .inr (.inl List.mem_cons_self)
      · exact .inl h
    · exact .inr (.inl (List.mem_cons_of_mem _ h))
    · exact .inr (.inr h)
  | case3 first rest _ _ ih =>
    rcases ih h with h | h | h
    · exact absurd h List.not_mem_nil
    · exact .inr (.inl (List.mem_cons_of_mem _ h))
    · exact .inr (.inr h)
  | case4 first rest _ _ ih =>
    rcases ih h with h | h | h
    · exact .inr (.inr (List.mem_singleton.mp h))
    · exact .inr (.inl (List.mem_cons_of_mem _ h))
    · exact .inr (.inr h)
  | case5 first rest _ before ih =>
    rcases ih h with h | h | h
    · rcases List.mem_cons.mp h with rfl | h
      · exact .inr (.inr rfl)
      · exact .inl h
    · exact .inr (.inl (List.mem_cons_of_mem _ h))
    · exact .inr (.inr h)
  | case6 first rest _ b before _ ih =>
    rcases ih h with h | h | h
    · exact .inl (List.mem_cons_of_mem _ h)
    · exact .inr (.inl (List.mem_cons_of_mem _ h))
    · exact .inr (.inr h)

theorem isName_of_mem_dropParents {absolute : Bool} {rest : List String}
    (hrest : ∀ name ∈ rest, IsName name) :
    ∀ name ∈ dropParents absolute [] rest, IsName name := by
  intro name hname
  rcases mem_dropParents hname with h | h | rfl
  · exact absurd h List.not_mem_nil
  · exact hrest name h
  · refine ⟨by decide, by decide⟩

theorem getLast?_intercalate {l : List String} (hne : l ≠ []) (hnames : ∀ name ∈ l, IsName name) :
    ∃ c, ("/".intercalate l).toList.getLast? = some c ∧ c ≠ '/' := by
  induction l with
  | nil => exact absurd rfl hne
  | cons first rest ih =>
    cases rest with
    | nil =>
      obtain ⟨hfirst, hslash⟩ := hnames first List.mem_cons_self
      have hchars : first.toList ≠ [] := fun h => hfirst (String.toList_eq_nil_iff.mp h)
      refine ⟨first.toList.getLast hchars, ?_, ?_⟩
      · rw [String.intercalate_singleton, List.getLast?_eq_some_getLast hchars]
      · intro hlast
        exact hslash (hlast ▸ List.getLast_mem hchars)
    | cons second rest =>
      obtain ⟨c, hc, hslash⟩ := ih (List.cons_ne_nil _ _) fun name h =>
        hnames name (List.mem_cons_of_mem _ h)
      refine ⟨c, ?_, hslash⟩
      rw [String.intercalate_cons_cons, String.toList_append, List.getLast?_append, hc]
      rfl

/-- A path in its shortest spelling does not end in a slash, unless it is nothing but slashes. -/
theorem last_of_normal {p : String} (h : normal p = p) (hlast : p.toList.getLast? = some '/') :
    p = anchor p := by
  obtain ⟨l, hl⟩ : ∃ l, l = dropParents (isAbsolute p) [] (names p) := ⟨_, rfl⟩
  have hnames : ∀ name ∈ l, IsName name := by
    rw [hl]
    exact isName_of_mem_dropParents fun _ h => isName_of_mem_names h
  rw [normal, ← hl, build] at h
  by_cases hempty : l = []
  · rw [hempty, String.intercalate_nil, String.append_empty] at h
    split at h
    · rw [← h] at hlast
      cases hlast
    · exact h.symm
  · obtain ⟨c, hc, hslash⟩ := getLast?_intercalate hempty hnames
    exfalso
    split at h
    · rw [← h] at hlast
      cases hlast
    · rw [← h, String.toList_append, List.getLast?_append, hc] at hlast
      exact hslash (Option.some.inj hlast)

/-- A path in its shortest spelling that lies strictly under a root, where it is joined by a
relative path. -/
def Inside (root p : String) : Prop :=
  normal p = p ∧ ∃ rest, rest ≠ "" ∧ isAbsolute rest = false ∧ p = join root rest

theorem eq_slash_of_mem_anchor {p : String} {c : Char} (h : c ∈ (anchor p).toList) : c = '/' := by
  unfold anchor at h
  split at h
  · exact List.mem_singleton.mp h
  · simpa using h
  · exact List.mem_singleton.mp h
  · cases h

theorem Inside.plain {root p : String} (h : Inside root p) : p.toList.getLast? ≠ some '/' := by
  obtain ⟨hnormal, rest, hne, hrelative, rfl⟩ := h
  intro hlast
  have hanchor := last_of_normal hnormal hlast
  -- If it is nothing but slashes, the relative path starts with one.
  cases hrest : rest.toList with
  | nil => exact hne (String.toList_eq_nil_iff.mp hrest)
  | cons c tail =>
    have hc : c = '/' := by
      refine eq_slash_of_mem_anchor (p := join root rest) ?_
      rw [← hanchor, toList_join hrelative, hrest]
      exact List.mem_append_right _ List.mem_cons_self
    rw [isAbsolute, hrest, hc] at hrelative
    cases hrelative

end LiveIndex.Path
