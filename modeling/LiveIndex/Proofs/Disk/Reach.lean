import LiveIndex.Proofs.Disk.Walk
import LiveIndex.Proofs.Path.Descent

/-! The ways that a walk goes. It comes upon what stands at the end of a way of names through
directories that can be listed, and takes it or leaves it by the names on the way. Looking up the
path of such a way finds the same thing. -/

namespace LiveIndex

/-- A tree as disks have them: the names in a directory stand for themselves, and each is there
once. -/
inductive Tree.Proper : Tree → Prop
  | file (content : Content) : Proper (.file content)
  | link (target : String) : Proper (.link target)
  | dir (children : List (String × Tree)) (plain : ∀ c ∈ children, Path.IsPlain c.1)
      (distinct : (children.map Prod.fst).Nodup) (below : ∀ c ∈ children, Proper c.2) :
      Proper (.dir children)

namespace Tree

theorem Proper.named {t : Tree} (h : t.Proper) : t.Named := by
  induction h with
  | file content => exact .file content
  | link target => exact .link target
  | dir children plain _ _ ih => exact .dir children (fun c hc => (plain c hc).1) ih

theorem Proper.child {t u : Tree} {name : String} (h : t.Proper) (hu : t.child? name = some u) :
    u.Proper := by
  cases h with
  | file => cases hu
  | link => cases hu
  | dir children _ _ below =>
    obtain ⟨c, hc, rfl⟩ := Option.map_eq_some_iff.mp hu
    exact below c (List.mem_of_find?_eq_some hc)

theorem Proper.child?_of_mem {children : List (String × Tree)} (h : Proper (.dir children))
    {name : String} {u : Tree} (hu : (name, u) ∈ children) :
    child? name (.dir children) = some u := by
  cases h with
  | dir _ _ distinct _ => exact OrderedMap.get?_of_mem (m := ⟨children, distinct⟩) hu

/-- Empty parts and dots lead nowhere else. -/
theorem locate_blank {root t : Tree} {follow : Bool} {links : Nat} {here tail names : List String}
    (htail : ∀ part ∈ tail, part = "" ∨ part = ".")
    (h : root.locate follow links here tail = .ok (names, t)) : names = here.reverse := by
  induction tail with
  | nil =>
    rw [locate] at h
    split at h
    · cases h
      rfl
    · cases h
  | cons part rest ih =>
    obtain ⟨hpart, hrest⟩ := List.forall_mem_cons.mp htail
    rw [locate] at h
    split at h
    · cases h
    · split at h
      · cases h
      · exact ih hrest h

/-- A path that goes on behind another one is looked up from where that one leads. Empty parts and
dots at the end of the shorter path make no difference. -/
theorem locate_append {root t : Tree} {links : Nat} {here parts tail names : List String}
    (htail : ∀ part ∈ tail, part = "" ∨ part = ".")
    (h : root.locate true links here (parts ++ tail) = .ok (names, t)) (follow : Bool) :
    ∃ links', ∀ {rest}, rest ≠ [] →
      root.locate follow links here (parts ++ rest) =
        root.locate follow links' names.reverse rest := by
  match parts with
  | [] =>
    rw [locate_blank htail h, List.reverse_reverse]
    exact ⟨links, fun _ => rfl⟩
  | part :: parts =>
    have hgo {links' : Nat} {here' parts' : List String}
        (hstep : ∀ {rest : List String}, rest ≠ [] →
          root.locate follow links here (part :: (parts ++ rest)) =
            root.locate follow links' here' (parts' ++ rest))
        (hlater : ∃ links'', ∀ {rest : List String}, rest ≠ [] →
          root.locate follow links' here' (parts' ++ rest) =
            root.locate follow links'' names.reverse rest) :
        ∃ links'', ∀ {rest : List String}, rest ≠ [] →
          root.locate follow links here (part :: parts ++ rest) =
            root.locate follow links'' names.reverse rest := by
      obtain ⟨links'', hlater⟩ := hlater
      exact ⟨links'', fun hrest => (hstep hrest).trans (hlater hrest)⟩
    rw [List.cons_append, locate] at h
    split at h
    · cases h
    · next u hu =>
      split at h
      · cases h
      · next hdir =>
        split at h
        · next hdot =>
          refine hgo (fun _ => ?_) (locate_append htail h follow)
          rw [locate]
          simp [hu, hdir, hdot]
        · next hdot =>
          split at h
          · next hparent =>
            refine hgo (fun _ => ?_) (locate_append htail h follow)
            rw [locate]
            simp [hu, hdir, hparent]
          · next hparent =>
            split at h
            · cases h
            · next target hchild =>
              -- With more to come the link is followed in any case.
              simp only [Bool.not_true, Bool.and_false, Bool.false_eq_true, if_false] at h
              split at h
              · cases h
              · rw [← List.append_assoc] at h
                refine hgo (fun hrest => ?_) (locate_append htail h follow)
                rw [locate]
                simp [hu, hdir, hdot, hparent, hchild, hrest]
            · next hchild =>
              refine hgo (fun _ => ?_) (locate_append htail h follow)
              rw [locate]
              simp [hu, hdir, hdot, hparent, hchild]
termination_by (links, parts.length)

/-- Whether a link at the end is followed makes a difference only where one stands. -/
theorem locate_follow (root : Tree) (links : Nat) (here parts : List String) :
    root.locate false links here parts = root.locate true links here parts ∨
      ∃ names target, root.locate false links here parts = .ok (names, .link target) := by
  match parts with
  | [] =>
    left
    rw [locate, locate]
  | part :: rest =>
    rw [locate, locate]
    split
    · exact .inl rfl
    · split
      · exact .inl rfl
      · split
        · exact locate_follow root links here rest
        · split
          · exact locate_follow root links here.tail rest
          · split
            · exact .inl rfl
            · next target _ =>
              by_cases hrest : rest.isEmpty = true
              · exact .inr ⟨(part :: here).reverse, target, by simp [hrest]⟩
              · simp only [hrest, Bool.false_and, Bool.false_eq_true, if_false]
                split
                · exact .inl rfl
                · exact locate_follow root _ _ _
            · exact locate_follow root links (part :: here) rest
termination_by (links, parts.length)

theorem mem_of_child? {children : List (String × Tree)} {name : String} {u : Tree}
    (hu : child? name (.dir children) = some u) : (name, u) ∈ children := by
  obtain ⟨c, hc, rfl⟩ := Option.map_eq_some_iff.mp hu
  have hname : c.1 = name := by simpa using List.find?_some hc
  rw [← hname]
  exact List.mem_of_find?_eq_some hc

end Tree

namespace Disk

open Path (descend IsPlain)

/-- From a directory a way leads to what stands at its end under a name, through the directories
above that, all of which can be listed. -/
inductive Way (d : Disk) : String → Tree → List String → String → Tree → Prop
  | last {dir : String} {children : List (String × Tree)} {name : String} {u : Tree}
      (listed : (d.markOf dir).unreadable = false) (child : (name, u) ∈ children) :
      Way d dir (.dir children) [] name u
  | deeper {dir : String} {children : List (String × Tree)} {first : String} {t : Tree}
      {above : List String} {name : String} {u : Tree}
      (listed : (d.markOf dir).unreadable = false) (child : (first, t) ∈ children)
      (rest : Way d (Path.join dir first) t above name u) :
      Way d dir (.dir children) (first :: above) name u

variable {d : Disk} {f : Filter} {directories : Bool} {root dir p q name : String} {t u : Tree}
  {above : List String}

theorem Way.plain (h : d.Way dir t above name u) (ht : t.Proper) :
    ∀ n ∈ above ++ [name], IsPlain n := by
  induction h with
  | last _ child =>
    cases ht with
    | dir _ plain _ _ =>
      intro n hn
      rw [List.mem_singleton.mp hn]
      exact plain _ child
  | deeper _ child _ ih =>
    cases ht with
    | dir _ plain _ below =>
      intro n hn
      rcases List.mem_cons.mp hn with rfl | hn
      · exact plain _ child
      · exact ih (below _ child) n hn

/-- A way ends at one thing only. -/
theorem Way.unique (h : d.Way dir t above name u) (ht : t.Proper) {v : Tree}
    (hv : d.Way dir t above name v) : u = v := by
  induction h with
  | last _ child =>
    cases hv with
    | last _ child' =>
      exact Option.some.inj ((ht.child?_of_mem child).symm.trans (ht.child?_of_mem child'))
  | deeper _ child _ ih =>
    cases hv with
    | deeper _ child' rest' =>
      have hchild := ht.child?_of_mem child
      obtain rfl := Option.some.inj (hchild.symm.trans (ht.child?_of_mem child'))
      exact ih (ht.child hchild) rest'

/-- What a longer way passes through is a directory. -/
theorem Way.isDir (h : d.Way dir t above name u) (ht : t.Proper) {below : List String}
    {last : String} {v : Tree} (hv : d.Way dir t (above ++ name :: below) last v) :
    u.isDir = true := by
  induction h with
  | last _ child =>
    cases hv with
    | deeper _ child' rest' =>
      obtain rfl := Option.some.inj ((ht.child?_of_mem child).symm.trans (ht.child?_of_mem child'))
      cases rest' <;> rfl
  | deeper _ child _ ih =>
    cases hv with
    | deeper _ child' rest' =>
      have hchild := ht.child?_of_mem child
      obtain rfl := Option.some.inj (hchild.symm.trans (ht.child?_of_mem child'))
      exact ih (ht.child hchild) rest'

/-- A way to a directory goes on to what that directory holds. -/
theorem Way.concat {children : List (String × Tree)} {last : String}
    (h : d.Way dir t above name (.dir children))
    (hlisted : (d.markOf (descend dir (above ++ [name]))).unreadable = false)
    (hchild : (last, u) ∈ children) : d.Way dir t (above ++ [name]) last u := by
  generalize hv : Tree.dir children = v at h
  induction h with
  | last listed child =>
    subst hv
    exact .deeper listed child (.last hlisted hchild)
  | deeper listed child _ ih => exact .deeper listed child (ih hlisted hv)

/-- The walk of a tree finds what it takes of all that it comes upon, and it does not go into
directories whose names are left out. -/
theorem mem_treePaths_iff_way (ht : t.Proper) : p ∈ d.treePaths f directories dir t ↔
    ∃ above name u, d.Way dir t above name u ∧ p = descend dir (above ++ [name]) ∧
      (∀ n ∈ above, n ∉ f.excluded) ∧ d.Taken f directories p name u := by
  constructor
  · intro hp
    induction ht generalizing dir with
    | file content => cases (mem_treePaths_iff.mp hp).choose_spec.1
    | link target => cases (mem_treePaths_iff.mp hp).choose_spec.1
    | dir children _ _ _ ih =>
      obtain ⟨_, heq, hlisted, hfound⟩ := mem_treePaths_iff.mp hp
      cases heq
      rcases hfound with hlevel | ⟨c, hc, hname, hbelow⟩
      · obtain ⟨c, hc, hpath, htaken⟩ := mem_levelPaths_iff.mp hlevel
        exact ⟨[], c.1, c.2, .last hlisted hc, hpath, fun _ hn => absurd hn List.not_mem_nil,
          htaken⟩
      · obtain ⟨above, name, u, hway, hpath, habove, htaken⟩ := ih c hc hbelow
        exact ⟨c.1 :: above, name, u, .deeper hlisted hc hway, hpath,
          List.forall_mem_cons.mpr ⟨hname, habove⟩, htaken⟩
  · rintro ⟨above, name, u, hway, hpath, habove, htaken⟩
    induction hway with
    | last listed child =>
      exact mem_treePaths_iff.mpr ⟨_, rfl, listed,
        .inl (mem_levelPaths_iff.mpr ⟨_, child, hpath, htaken⟩)⟩
    | deeper listed child rest ih =>
      cases ht with
      | dir _ _ _ below =>
        obtain ⟨hfirst, hrest⟩ := List.forall_mem_cons.mp habove
        exact mem_treePaths_iff.mpr ⟨_, rfl, listed,
          .inr ⟨_, child, hfirst, ih (below _ child) hpath hrest htaken⟩⟩

/-- Looking up the names of a way finds what stands at its end. -/
theorem Way.locate (h : d.Way dir t above name u) (ht : t.Proper) {tree : Tree}
    {here : List String} (hhere : tree.get? here.reverse = some t) (links : Nat) :
    ∃ names, tree.locate false links here (above ++ [name]) = .ok (names, u) := by
  induction h generalizing here with
  | @last _ children name u listed child =>
    obtain ⟨hname, hdot, hparent⟩ :=
      Way.plain (.last listed child) ht name (List.mem_singleton_self name)
    have hchild := ht.child?_of_mem child
    have hend := Tree.get?_child hhere hchild
    rw [List.nil_append, Tree.locate]
    simp only [hhere, Tree.isDir, Bool.not_true, Bool.false_eq_true, if_false, hname.1, hdot,
      or_self, hparent, hchild]
    cases u with
    | link target => exact ⟨_, rfl⟩
    | file content => exact ⟨_, by rw [Tree.locate, hend]⟩
    | dir below => exact ⟨_, by rw [Tree.locate, hend]⟩
  | @deeper _ children first v above name u listed child rest ih =>
    obtain ⟨hname, hdot, hparent⟩ :=
      Way.plain (.deeper listed child rest) ht first List.mem_cons_self
    have hchild := ht.child?_of_mem child
    -- A way goes on only through directories, so this is no link.
    obtain ⟨names, hnames⟩ := ih (ht.child hchild) (Tree.get?_child hhere hchild)
    refine ⟨names, ?_⟩
    rw [List.cons_append, Tree.locate]
    cases rest <;> simp only [hhere, Tree.isDir, Bool.not_true, Bool.false_eq_true, if_false,
      hname.1, hdot, or_self, hparent, hchild, hnames]

/-- A walk below a root comes upon something at a path: a way leads there, and the path is spelled
by it. -/
def Reaches (d : Disk) (root p : String) (above : List String) (name : String) (u : Tree) : Prop :=
  ∃ t, d.find root = .ok t ∧ d.Way root t above name u ∧ p = descend root (above ++ [name])

theorem find_eq_ok (h : d.find root = .ok t) :
    root ≠ "" ∧ ∃ names, d.tree.locate true Tree.maxLinks [] (Text.split '/' root) =
      .ok (names, t) := by
  unfold find Tree.find at h
  split at h
  · next names v hv =>
    cases h
    split at hv
    · cases hv
    · next hroot => exact ⟨hroot, names, hv⟩
  · cases h

/-- A path leads to what stands there, unless that is a link. -/
theorem find_or_link (d : Disk) (p : String) : d.find p = d.peek p ∨ d.isLink p = true := by
  by_cases hp : p = ""
  · left
    rw [find, peek, Tree.find, Tree.find, if_pos hp, if_pos hp]
  · have hfind (follow : Bool) : d.tree.find follow p =
        d.tree.locate follow Tree.maxLinks [] (Text.split '/' p) := if_neg hp
    rcases Tree.locate_follow d.tree Tree.maxLinks [] (Text.split '/' p) with hsame | hlink
    · left
      rw [find, peek, hfind, hfind, hsame]
    · obtain ⟨names, target, hlink⟩ := hlink
      right
      rw [isLink, peek, hfind, hlink]
      rfl

theorem isLink_or_isDir_of_peek (hpeek : d.peek p = .ok u) :
    u.isLink = true ∨ d.isDir p = u.isDir := by
  rcases d.find_or_link p with hfind | hfollow
  · right
    rw [isDir, hfind, hpeek]
  · left
    rwa [isLink, hpeek] at hfollow

/-- A directory that is no link stands where a directory is looked up. -/
theorem isDir_of_peek (hpeek : d.peek p = .ok u) : (d.isDir p && !d.isLink p) = u.isDir := by
  have hlink : d.isLink p = u.isLink := by rw [isLink, hpeek]
  rw [hlink]
  rcases isLink_or_isDir_of_peek hpeek with hu | hdir
  · rw [hu, Bool.not_true, Bool.and_false]
    cases u <;> first | rfl | cases hu
  · rw [hdir]
    cases u <;> rfl

/-- What leads to a directory is listed among the directories. -/
theorem amongDirs_of_peek (hpeek : d.peek p = .ok u) : d.amongDirs p u = d.isDir p := by
  rcases isLink_or_isDir_of_peek hpeek with hu | hdir
  · cases u <;> first | rfl | cases hu
  · rw [amongDirs, hdir]
    cases u <;> rfl

/-- What stands at a name below a path is the child of what the path leads to. -/
theorem child?_of_peek (ht : d.find p = .ok t) (hname : IsPlain name)
    (hu : d.peek (Path.join p name) = .ok u) : t.child? name = some u := by
  have hplain : ∀ n ∈ [name], IsPlain n := fun n hn => by rwa [List.mem_singleton.mp hn]
  obtain ⟨parts, tail, hp, htail, hsplit⟩ :=
    Path.split_descend p hplain (List.cons_ne_nil name [])
  obtain ⟨-, names, hlocate⟩ := find_eq_ok ht
  rw [hp] at hlocate
  obtain ⟨links, hlinks⟩ :=
    Tree.locate_append (fun part hpart => .inl (htail part hpart)) hlocate false
  have hget : d.tree.get? names.reverse.reverse = some t := by
    rw [List.reverse_reverse]
    exact Tree.get?_of_locate hlocate
  have hjoin : Path.join p name ≠ "" :=
    Path.descend_ne_empty hplain (List.cons_ne_nil name [])
  obtain ⟨ends, hends⟩ :
      ∃ ends, d.tree.locate false links names.reverse [name] = .ok (ends, u) := by
    rw [peek, Tree.find, if_neg hjoin] at hu
    change Text.split '/' (Path.join p name) = _ at hsplit
    rw [hsplit, hlinks (List.cons_ne_nil name [])] at hu
    split at hu
    · next ends v hv =>
      cases hu
      exact ⟨ends, hv⟩
    · cases hu
  obtain ⟨⟨hne, -⟩, hdot, hparent⟩ := hname
  rw [Tree.locate, hget] at hends
  simp only [hne, hdot, hparent, or_self, if_false] at hends
  split at hends
  · cases hends
  · split at hends
    · cases hends
    · next target hchild =>
      cases hends
      exact hchild
    · next v hchild =>
      have hend := Tree.get?_of_locate hends
      have hhere := Tree.get?_child hget hchild
      rw [Tree.locate] at hends
      rw [hhere] at hends
      cases hends
      exact hchild

theorem proper_of_find (hd : d.tree.Proper) (h : d.find root = .ok t) : t.Proper := by
  obtain ⟨-, names, hnames⟩ := find_eq_ok h
  exact Tree.get?_keeps (fun h hchild => h.child hchild) hd (Tree.get?_of_locate hnames)

theorem Reaches.plain (h : d.Reaches root p above name u) (hd : d.tree.Proper) :
    ∀ n ∈ above ++ [name], IsPlain n := by
  obtain ⟨t, ht, hway, -⟩ := h
  exact hway.plain (proper_of_find hd ht)

/-- A path that a walk comes upon has the names of the root, and then those of the way. -/
theorem Reaches.names (h : d.Reaches root p above name u) (hd : d.tree.Proper) :
    Path.names p = Path.names root ++ (above ++ [name]) := by
  have hplain := h.plain hd
  obtain ⟨-, -, -, rfl⟩ := h
  exact Path.names_descend hplain

/-- A path has one way at most. -/
theorem Reaches.unique (h : d.Reaches root p above name u) (hd : d.tree.Proper)
    {above' : List String} {name' : String} {v : Tree}
    (hv : d.Reaches root p above' name' v) : above = above' ∧ name = name' ∧ u = v := by
  have hplain := h.plain hd
  have hplain' := hv.plain hd
  obtain ⟨t, ht, hway, hpath⟩ := h
  obtain ⟨t', ht', hway', hpath'⟩ := hv
  obtain rfl : t = t' := Except.ok.inj (ht.symm.trans ht')
  have hnames := Path.descend_inj hplain hplain' (hpath.symm.trans hpath')
  obtain ⟨rfl, hname⟩ := List.append_inj' hnames rfl
  obtain rfl := List.singleton_inj.mp hname
  exact ⟨rfl, rfl, hway.unique (proper_of_find hd ht) hway'⟩

/-- What a walk comes upon at a path is what stands there. -/
theorem Reaches.peek (h : d.Reaches root p above name u) (hd : d.tree.Proper) :
    d.peek p = .ok u := by
  have hplain := h.plain hd
  obtain ⟨t, ht, hway, rfl⟩ := h
  have hne : above ++ [name] ≠ [] := List.append_ne_nil_of_right_ne_nil _ (List.cons_ne_nil _ _)
  obtain ⟨parts, tail, hroot, htail, hpath⟩ := Path.split_descend root hplain hne
  obtain ⟨-, names, hlocate⟩ := find_eq_ok ht
  rw [hroot] at hlocate
  obtain ⟨links, hlinks⟩ :=
    Tree.locate_append (fun part hpart => .inl (htail part hpart)) hlocate false
  have hget : d.tree.get? names.reverse.reverse = some t := by
    rw [List.reverse_reverse]
    exact Tree.get?_of_locate hlocate
  obtain ⟨ends, hends⟩ := hway.locate (proper_of_find hd ht) hget links
  have hfind : d.tree.find false (descend root (above ++ [name])) = .ok (ends, u) := by
    rw [Tree.find, if_neg (Path.descend_ne_empty hplain hne), hpath, hlinks hne, hends]
  rw [Disk.peek, hfind]

/-- The directories on the way from a root down can be listed, and those below the root are no
links. -/
structure Listed (d : Disk) (root : String) (above : List String) : Prop where
  listed : ∀ ns, ns <+: above → ∃ children, d.list (descend root ns) = .ok children
  real : ∀ ns, ns <+: above → ns ≠ [] → d.isLink (descend root ns) = false

theorem list_eq_ok {children : List (String × Tree)} (h : d.list p = .ok children) :
    (d.markOf p).unreadable = false ∧ d.find p = .ok (.dir children) := by
  unfold list at h
  split at h
  · cases h
  · next hlisted =>
    refine ⟨Bool.eq_false_iff.mpr hlisted, ?_⟩
    split at h
    · next hfind =>
      cases h
      exact hfind
    · cases h
    · cases h

/-- A walk comes upon everything that stands below a root in directories that can be listed. -/
theorem Listed.reaches (h : d.Listed root above) (hplain : ∀ n ∈ above ++ [name], IsPlain n)
    (hu : d.peek (descend root (above ++ [name])) = .ok u) :
    d.Reaches root (descend root (above ++ [name])) above name u := by
  induction above using List.reverseRecOn generalizing name u with
  | nil =>
    obtain ⟨children, hlist⟩ := h.listed [] List.prefix_rfl
    obtain ⟨hlisted, hroot⟩ := list_eq_ok hlist
    have hchild := child?_of_peek hroot (hplain name (List.mem_singleton_self name)) hu
    exact ⟨_, hroot, .last hlisted (Tree.mem_of_child? hchild), rfl⟩
  | append_singleton above dirName ih =>
    obtain ⟨children, hlist⟩ := h.listed _ List.prefix_rfl
    obtain ⟨hlisted, hdir⟩ := list_eq_ok hlist
    have hreal := h.real _ List.prefix_rfl
      (List.append_ne_nil_of_right_ne_nil _ (List.cons_ne_nil _ _))
    have hstands : d.peek (descend root (above ++ [dirName])) = .ok (.dir children) := by
      rcases d.find_or_link (descend root (above ++ [dirName])) with hfind | hlink
      · exact hfind.symm.trans hdir
      · rw [hreal] at hlink
        cases hlink
    have habove : d.Listed root above :=
      ⟨fun ns hns => h.listed ns (hns.trans (List.prefix_append ..)),
        fun ns hns => h.real ns (hns.trans (List.prefix_append ..))⟩
    obtain ⟨t, ht, hway, -⟩ := ih habove (fun n hn => hplain n (List.mem_append_left _ hn)) hstands
    have hname := hplain name (List.mem_append_right _ (List.mem_singleton_self name))
    rw [Path.descend_concat] at hu
    have hchild := child?_of_peek hdir hname hu
    exact ⟨t, ht, hway.concat hlisted (Tree.mem_of_child? hchild), rfl⟩

theorem mem_walk_iff (hd : d.tree.Proper) : p ∈ d.walk f directories root ↔
    ∃ above name u, d.Reaches root p above name u ∧ (∀ n ∈ above, n ∉ f.excluded) ∧
      d.Taken f directories p name u := by
  unfold walk
  split
  · next t ht =>
    rw [mem_treePaths_iff_way (proper_of_find hd ht)]
    constructor
    · rintro ⟨above, name, u, hway, hpath, habove, htaken⟩
      exact ⟨above, name, u, ⟨t, ht, hway, hpath⟩, habove, htaken⟩
    · rintro ⟨above, name, u, ⟨t', ht', hway, hpath⟩, habove, htaken⟩
      obtain rfl : t = t' := Except.ok.inj (ht.symm.trans ht')
      exact ⟨above, name, u, hway, hpath, habove, htaken⟩
  · next failure hfail =>
    refine iff_of_false List.not_mem_nil ?_
    rintro ⟨_, _, _, ⟨t, ht, -⟩, -⟩
    rw [hfail] at ht
    cases ht

/-- Whether a walk takes what it comes upon is a matter of the names on the way and of what stands
at the end. -/
theorem Reaches.mem_walk_iff (h : d.Reaches root p above name u) (hd : d.tree.Proper) :
    p ∈ d.walk f directories root ↔
      (∀ n ∈ above, n ∉ f.excluded) ∧ d.Taken f directories p name u := by
  rw [Disk.mem_walk_iff hd]
  constructor
  · rintro ⟨above', name', u', h', hnames, htaken⟩
    obtain ⟨rfl, rfl, rfl⟩ := h.unique hd h'
    exact ⟨hnames, htaken⟩
  · rintro ⟨hnames, htaken⟩
    exact ⟨above, name, u, h, hnames, htaken⟩

theorem peek_of_stat {st : Stat} (hst : d.stat p = .ok st) : ∃ u, d.peek p = .ok u := by
  cases hpeek : d.peek p with
  | ok u => exact ⟨u, rfl⟩
  | error failure =>
    simp only [Disk.stat, hpeek] at hst
    split at hst <;> cases hst

theorem kind_of_stat {st : Stat} (hst : d.stat p = .ok st) (hpeek : d.peek p = .ok u) :
    decide (st.kind = .directory) = u.isDir := by
  simp only [Disk.stat, hpeek] at hst
  cases u with
  | file content =>
    split at hst <;> cases hst
    rfl
  | link target =>
    split at hst <;> cases hst
    rfl
  | dir children =>
    split at hst <;> cases hst
    rfl

/-- The entry of a path that a walk comes upon is one of a directory just if a directory is
there. -/
theorem Reaches.isDirectory (h : d.Reaches root p above name u) (hd : d.tree.Proper) {e : Entry}
    (he : d.entry p root = .ok e) : e.isDirectory = u.isDir := by
  obtain ⟨st, hst, -, hkind⟩ := entry_eq_ok he
  rw [Entry.isDirectory, hkind]
  exact kind_of_stat hst (h.peek hd)

end Disk

end LiveIndex
