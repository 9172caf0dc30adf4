import LiveIndex.Disk.Walk
import LiveIndex.Proofs.Path.Beneath
import LiveIndex.Proofs.Store.OrderedMap

/-! What the walk of a disk finds. With a path it finds all directories between the root and that
path, and the inventory has an entry of each path that it finds. -/

namespace LiveIndex

/-- A tree whose names are names: not empty, and without slashes. -/
inductive Tree.Named : Tree → Prop
  | file (content : Content) : Named (.file content)
  | link (target : String) : Named (.link target)
  | dir (children : List (String × Tree)) (names : ∀ c ∈ children, Path.IsName c.1)
      (below : ∀ c ∈ children, Named c.2) : Named (.dir children)

namespace Tree

theorem Named.child {t u : Tree} (h : t.Named) {name : String} (hu : t.child? name = some u) :
    u.Named := by
  cases h with
  | file => cases hu
  | link => cases hu
  | dir children names below =>
    obtain ⟨c, hc, rfl⟩ := Option.map_eq_some_iff.mp hu
    exact below c (List.mem_of_find?_eq_some hc)

/-- What holds of a directory and so of each child holds of everything beneath. -/
theorem get?_keeps {P : Tree → Prop}
    (hchild : ∀ {t u : Tree} {name : String}, P t → t.child? name = some u → P u) {t u : Tree}
    (h : P t) {names : List String} (hu : t.get? names = some u) : P u := by
  induction names generalizing t with
  | nil =>
    cases hu
    exact h
  | cons name rest ih =>
    obtain ⟨v, hv, hu⟩ := Option.bind_eq_some_iff.mp hu
    exact ih (hchild h hv) hu

theorem get?_concat (names : List String) (name : String) (t : Tree) :
    t.get? (names ++ [name]) = (t.get? names).bind (child? name) := by
  induction names generalizing t with
  | nil => exact Option.bind_fun_some (t.child? name)
  | cons first rest ih =>
    change (t.child? first).bind (get? (rest ++ [name])) = _
    rw [funext ih, get?, Option.bind_assoc]

theorem get?_child {root t u : Tree} {here : List String} {name : String}
    (ht : root.get? here.reverse = some t) (hu : t.child? name = some u) :
    root.get? (name :: here).reverse = some u := by
  rw [List.reverse_cons, get?_concat, ht]
  exact hu

/-- What a path leads to stands at the names that it leads to. -/
theorem get?_of_locate {root : Tree} {follow : Bool} {links : Nat} {here parts names : List String}
    {t : Tree} (ht : root.locate follow links here parts = .ok (names, t)) :
    root.get? names = some t := by
  unfold Tree.locate at ht
  split at ht
  · split at ht
    · next hu =>
      cases ht
      exact hu
    · cases ht
  · split at ht
    · cases ht
    · next hdir =>
      split at ht
      · cases ht
      · split at ht
        · exact get?_of_locate ht
        · split at ht
          · exact get?_of_locate ht
          · split at ht
            · cases ht
            · next hchild =>
              -- A link is the end of the way, or the way goes on at its target.
              split at ht
              · cases ht
                exact get?_child hdir hchild
              · split at ht
                · cases ht
                · exact get?_of_locate ht
            · exact get?_of_locate ht
termination_by (links, parts.length)

theorem get?_of_find {root : Tree} {follow : Bool} {path : String} {names : List String} {t : Tree}
    (ht : root.find follow path = .ok (names, t)) : root.get? names = some t := by
  unfold Tree.find at ht
  split at ht
  · cases ht
  · exact get?_of_locate ht

end Tree

namespace Disk

variable {d : Disk} {f : Filter} {directories : Bool} {root dir p q : String}

/-- Whether what stands at a path is listed among the directories: a link to one is. -/
def amongDirs (d : Disk) (path : String) (t : Tree) : Bool :=
  t.isDir || (t.isLink && d.isDir path)

/-- Whether the walk takes what it comes upon under a name: nothing among the directories whose name
is left out; besides, directories if they are wanted, and everything else by its extension. -/
def Taken (d : Disk) (f : Filter) (directories : Bool) (path name : String) (t : Tree) : Prop :=
  (d.amongDirs path t = true → name ∉ f.excluded) ∧
    (if t.isDir then directories else f.wantsExtension path) = true

theorem mem_levelPaths_iff {children : List (String × Tree)} :
    p ∈ d.levelPaths f directories dir children ↔
      ∃ c ∈ children, p = Path.join dir c.1 ∧ d.Taken f directories p c.1 c.2 := by
  unfold levelPaths
  simp only [List.mem_map, List.mem_filter, List.mem_append, sortByName, List.mem_mergeSort]
  constructor
  · rintro ⟨n, ⟨hkind, hwanted⟩, rfl⟩
    rcases hkind with ⟨⟨c, hc, rfl⟩, hkind⟩ | ⟨⟨c, hc, rfl⟩, hkind⟩
    · simp only [Bool.and_eq_true, decide_eq_true_eq] at hkind
      exact ⟨c, hc, rfl, fun _ => hkind.2, hwanted⟩
    · refine ⟨c, hc, rfl, fun hdir => ?_, hwanted⟩
      rw [amongDirs] at hdir
      rw [hdir] at hkind
      cases hkind
  · rintro ⟨c, hc, rfl, hname, hwanted⟩
    refine ⟨(c.1, Path.join dir c.1, c.2), ⟨?_, hwanted⟩, rfl⟩
    cases hdir : d.amongDirs (Path.join dir c.1) c.2 with
    | true =>
      rw [amongDirs] at hdir
      exact .inl ⟨⟨c, hc, rfl⟩, by simp [hdir, hname (by rw [amongDirs, hdir])]⟩
    | false =>
      rw [amongDirs] at hdir
      exact .inr ⟨⟨c, hc, rfl⟩, by simp [hdir]⟩

theorem mem_childPaths_iff {children : List (String × Tree)} :
    (∃ n ∈ d.childPaths f directories dir children, p ∈ n.2) ↔
      ∃ c ∈ children, c.1 ∉ f.excluded ∧
        p ∈ d.treePaths f directories (Path.join dir c.1) c.2 := by
  induction children with
  | nil =>
    rw [childPaths]
    exact iff_of_false (fun ⟨_, h, _⟩ => absurd h List.not_mem_nil)
      fun ⟨_, h, _⟩ => absurd h List.not_mem_nil
  | cons c rest ih =>
    have hfirst : (p ∈ if c.1 ∈ f.excluded then [] else
        d.treePaths f directories (Path.join dir c.1) c.2) ↔
        c.1 ∉ f.excluded ∧ p ∈ d.treePaths f directories (Path.join dir c.1) c.2 := by
      split <;> simp [*]
    simp only [childPaths, List.mem_cons, or_and_right, exists_or, exists_eq_left, hfirst, ih]

/-- What the walk of a tree finds: nothing in what cannot be listed, and else what is looked at in
the directory itself and what it finds in those beneath that are not left out. -/
theorem mem_treePaths_iff {t : Tree} : p ∈ d.treePaths f directories dir t ↔
    ∃ children, t = .dir children ∧ (d.markOf dir).unreadable = false ∧
      (p ∈ d.levelPaths f directories dir children ∨
        ∃ c ∈ children, c.1 ∉ f.excluded ∧
          p ∈ d.treePaths f directories (Path.join dir c.1) c.2) := by
  cases t with
  | file content => simp [treePaths]
  | link target => simp [treePaths]
  | dir children =>
    have hsorted : (∃ n ∈ sortByName (d.childPaths f directories dir children), p ∈ n.2) ↔
        ∃ n ∈ d.childPaths f directories dir children, p ∈ n.2 := by
      simp only [sortByName, List.mem_mergeSort]
    rw [treePaths]
    split
    · next h => simp [h]
    · next h =>
      rw [List.mem_append, List.mem_flatMap, hsorted, mem_childPaths_iff]
      simp [h]

/-- Every path that the walk of a tree finds is spelled from its root on. -/
theorem front_of_mem_treePaths {t : Tree} (ht : t.Named)
    (hp : p ∈ d.treePaths f directories dir t) :
    ∃ x, x ≠ [] ∧ p.toList = Path.front dir ++ x := by
  induction ht generalizing dir with
  | file content => cases (mem_treePaths_iff.mp hp).choose_spec.1
  | link target => cases (mem_treePaths_iff.mp hp).choose_spec.1
  | dir children names below ih =>
    obtain ⟨_, heq, -, hfound⟩ := mem_treePaths_iff.mp hp
    cases heq
    rcases hfound with hlevel | ⟨c, hc, -, hbelow⟩
    · obtain ⟨c, hc, rfl, -⟩ := mem_levelPaths_iff.mp hlevel
      exact ⟨c.1.toList, (names c hc).toList_ne_nil, Path.toList_join (names c hc).relative⟩
    · obtain ⟨x, hx, hchars⟩ := ih c hc hbelow
      refine ⟨c.1.toList ++ ['/'] ++ x, ?_, ?_⟩
      · exact List.append_ne_nil_of_right_ne_nil _ hx
      · rw [hchars, (names c hc).front_join, List.append_assoc, List.append_assoc,
          List.append_assoc]

/-- With a path, the walk of a tree finds the directories above it. They are compared with it name
by name: the slash after such a directory is one between two names of the path. -/
theorem treePaths_closed {t : Tree} (ht : t.Named) (hp : p ∈ d.treePaths f true dir t)
    {x : List Char} (hq : q.toList = Path.front dir ++ x) (hx : x ≠ [])
    (hplain : x.getLast? ≠ some '/') (habove : q.toList ++ ['/'] <+: p.toList) :
    q ∈ d.treePaths f true dir t := by
  induction ht generalizing dir x with
  | file content => cases (mem_treePaths_iff.mp hp).choose_spec.1
  | link target => cases (mem_treePaths_iff.mp hp).choose_spec.1
  | dir children names below ih =>
    obtain ⟨_, heq, hreadable, hfound⟩ := mem_treePaths_iff.mp hp
    cases heq
    refine mem_treePaths_iff.mpr ⟨children, rfl, hreadable, ?_⟩
    rw [hq, List.append_assoc] at habove
    rcases hfound with hlevel | ⟨c, hc, hname, hbelow⟩
    · -- What is found in the directory itself has no slash after its front.
      obtain ⟨c, hc, rfl, -⟩ := mem_levelPaths_iff.mp hlevel
      rw [Path.toList_join (names c hc).relative] at habove
      have hstart := (List.prefix_append_right_inj _).mp habove
      exact absurd (hstart.mem (List.mem_append_right _ List.mem_cons_self)) (names c hc).2
    · obtain ⟨y, -, hy⟩ := front_of_mem_treePaths (below c hc) hbelow
      rw [hy, (names c hc).front_join, List.append_assoc, List.append_assoc,
        List.prefix_append_right_inj, ← List.append_assoc c.1.toList] at habove
      rcases Path.eq_or_deeper (names c hc).2 habove with hsame | ⟨z, hz⟩
      · have hpath : q = Path.join dir c.1 := by
          apply String.toList_inj.mp
          rw [hq, hsame, Path.toList_join (names c hc).relative]
        -- Something was found beneath it, so it is a directory.
        have hdir : c.2.isDir = true := by
          obtain ⟨_, heq, -⟩ := mem_treePaths_iff.mp hbelow
          rw [heq]
          rfl
        exact .inl (mem_levelPaths_iff.mpr ⟨c, hc, hpath, fun _ => hname, by rw [if_pos hdir]⟩)
      · -- The path has the name and its slash too, and ends in a name, so more of it is left.
        have hne : z ≠ [] := by
          rintro rfl
          rw [List.append_nil] at hz
          rw [← hz, List.getLast?_append, List.getLast?_singleton] at hplain
          exact hplain rfl
        refine .inr ⟨c, hc, hname, ih c hc hbelow (x := z) ?_ hne ?_⟩
        · rw [hq, (names c hc).front_join, ← hz, List.append_assoc, List.append_assoc,
            List.append_assoc]
        · rwa [← hz, List.getLast?_append_of_ne_nil _ hne] at hplain

theorem named_of_find (hd : d.tree.Named) {t : Tree} (ht : d.find root = .ok t) : t.Named := by
  unfold find at ht
  split at ht
  · next names u hu =>
    cases ht
    exact Tree.get?_keeps (fun h hchild => h.child hchild) hd (Tree.get?_of_find hu)
  · cases ht

theorem ne_empty_of_mem_walk (hd : d.tree.Named) (hp : p ∈ d.walk f directories root) :
    p ≠ "" := by
  unfold walk at hp
  split at hp
  · next t ht =>
    obtain ⟨x, hx, hchars⟩ := front_of_mem_treePaths (named_of_find hd ht) hp
    rintro rfl
    exact hx (List.append_eq_nil_iff.mp hchars.symm).2
  · exact absurd hp List.not_mem_nil

/-- With a path, the walk below a root finds the directories above it that lie inside that root. -/
theorem walk_closed (hd : d.tree.Named) (hp : p ∈ d.walk f true root) (hq : Path.Inside root q)
    (habove : Path.isBeneath q p = true) : q ∈ d.walk f true root := by
  have hplain := hq.plain
  rw [Path.isBeneath_iff, Path.trunk_of_plain hplain] at habove
  obtain ⟨-, rest, hne, hrelative, rfl⟩ := hq
  have hchars : (Path.join root rest).toList = _ := Path.toList_join hrelative
  unfold walk at hp ⊢
  split at hp
  · next t ht =>
    have hrest : rest.toList ≠ [] := fun hnil => hne (String.toList_eq_nil_iff.mp hnil)
    refine treePaths_closed (named_of_find hd ht) hp hchars hrest ?_ habove
    rwa [hchars, List.getLast?_append_of_ne_nil _ hrest] at hplain
  · exact absurd hp List.not_mem_nil

/-- The metadata of a path can be read, and its times are in the calendar. -/
def Dated (d : Disk) (p : String) : Prop :=
  ∃ st created modified, d.stat p = .ok st ∧ stampOf st.created = .ok created ∧
    stampOf st.modified = .ok modified

theorem relativeTo_ok (hp : p ≠ "") (root : String) : ∃ r, relativeTo p root = .ok r := by
  rw [relativeTo, Path.relative?, if_neg hp]
  exact ⟨_, rfl⟩

theorem Dated.entry (h : d.Dated p) (hp : p ≠ "") (root : String) :
    ∃ e, d.entry p root = .ok e := by
  obtain ⟨st, created, modified, hst, hcreated, hmodified⟩ := h
  obtain ⟨r, hr⟩ := relativeTo_ok hp root
  simp only [Disk.entry, Stat.entry, hst, hr, hcreated, hmodified, bind, Except.bind, pure,
    Except.pure]
  exact ⟨_, rfl⟩

/-- What the entry of a path says of it. -/
theorem fields_of_entry {e : Entry} (h : d.entry p root = .ok e) :
    ∃ st, d.stat p = .ok st ∧ e.path = p ∧ e.name = Path.baseName p ∧ e.kind = st.kind ∧
      relativeTo p root = .ok e.relativePath := by
  unfold entry Stat.entry at h
  cases hst : d.stat p with
  | error failure =>
    rw [hst] at h
    cases h
  | ok st =>
    cases hrelative : relativeTo p root with
    | error failure =>
      rw [hst] at h
      simp only [bind, Except.bind, hrelative, reduceCtorEq] at h
    | ok relativePath =>
      cases hcreated : stampOf st.created <;> cases hmodified : stampOf st.modified <;>
        simp only [hst, bind, Except.bind, hrelative, hcreated, hmodified, reduceCtorEq] at h
      cases h
      dsimp only
      exact ⟨st, rfl, rfl, rfl, rfl, rfl⟩

theorem entry_eq_ok {e : Entry} (h : d.entry p root = .ok e) :
    ∃ st, d.stat p = .ok st ∧ e.path = p ∧ e.kind = st.kind := by
  obtain ⟨st, hst, hpath, -, hkind, -⟩ := fields_of_entry h
  exact ⟨st, hst, hpath, hkind⟩

theorem path_of_entry {e : Entry} (h : d.entry p root = .ok e) : e.path = p := by
  obtain ⟨-, -, hpath, -⟩ := entry_eq_ok h
  exact hpath

theorem family_of_peek {failure : Failure} (h : d.peek p = .error failure) :
    failure.family = .system := by
  unfold peek at h
  split at h
  · cases h
  · next dead _ =>
    cases h
    cases dead <;> rfl

/-- Metadata cannot be read only where the system fails. -/
theorem family_of_stat {failure : Failure} (h : d.stat p = .error failure) :
    failure.family = .system := by
  simp only [stat] at h
  cases hfault : (d.markOf p).statFault with
  | some fault =>
    rw [hfault] at h
    cases fault <;> cases h <;> rfl
  | none =>
    rw [hfault] at h
    cases hpeek : d.peek p with
    | error dead =>
      rw [hpeek] at h
      cases h
      exact family_of_peek hpeek
    | ok t =>
      rw [hpeek] at h
      cases t <;> cases h

/-- A scan ends well if all metadata that can be read is dated. -/
theorem entriesOf_of_dated {paths : List String} (hnames : ∀ p ∈ paths, p ≠ "")
    (hdated : ∀ p ∈ paths, ∀ st, d.stat p = .ok st → d.Dated p) :
    ∃ es, d.entriesOf root paths = .ok es := by
  induction paths with
  | nil => exact ⟨[], rfl⟩
  | cons p rest ih =>
    obtain ⟨es, hes⟩ := ih (fun q hq => hnames q (List.mem_cons_of_mem _ hq))
      fun q hq => hdated q (List.mem_cons_of_mem _ hq)
    rw [entriesOf, hes]
    cases hst : d.stat p with
    | ok st =>
      have hpath : d.Dated p := hdated p List.mem_cons_self st hst
      obtain ⟨e, he⟩ := hpath.entry (hnames p List.mem_cons_self) root
      rw [he]
      exact ⟨e :: es, rfl⟩
    | error failure =>
      have hentry : d.entry p root = .error failure := by
        rw [entry, hst]
        rfl
      rw [hentry]
      dsimp only
      rw [if_pos (family_of_stat hst)]
      exact ⟨es, rfl⟩

/-- A scan that ends well gives the entries of all paths that have one. -/
theorem mem_entriesOf_iff {paths : List String} {es : List Entry}
    (hes : d.entriesOf root paths = .ok es) {e : Entry} :
    e ∈ es ↔ ∃ p ∈ paths, d.entry p root = .ok e := by
  induction paths generalizing es with
  | nil =>
    cases hes
    simp
  | cons p rest ih =>
    rw [entriesOf] at hes
    split at hes
    · next first hfirst =>
      obtain ⟨more, hmore, rfl⟩ :
          ∃ more, d.entriesOf root rest = .ok more ∧ first :: more = es := by
        cases hrest : d.entriesOf root rest with
        | error failure =>
          rw [hrest] at hes
          cases hes
        | ok more =>
          rw [hrest] at hes
          exact ⟨more, rfl, Except.ok.inj hes⟩
      simp [ih hmore, hfirst, eq_comm]
    · next failure hfail =>
      split at hes
      · simp [ih hes, hfail]
      · cases hes

/-- An inventory holds the entries of all paths of the walk that have one, and nothing else. -/
theorem get?_inventory_iff {m : OrderedMap String Entry} (hm : d.inventory f root = .ok m)
    {e : Entry} : m.get? p = some e ↔ p ∈ d.walk f true root ∧ d.entry p root = .ok e := by
  obtain ⟨es, hes, rfl⟩ : ∃ es, d.scan f true root = .ok es ∧
      .ofList (es.map fun e => (e.path, e)) = m := by
    cases hscan : d.scan f true root with
    | error failure =>
      rw [inventory, hscan] at hm
      cases hm
    | ok es =>
      rw [inventory, hscan] at hm
      exact ⟨es, rfl, Except.ok.inj hm⟩
  have hpair (p : String) (e : Entry) : (p, e) ∈ es.map (fun e => (e.path, e)) ↔
      p ∈ d.walk f true root ∧ d.entry p root = .ok e := by
    constructor
    · intro hpe
      obtain ⟨e', he', heq⟩ := List.mem_map.mp hpe
      cases heq
      obtain ⟨q, hq, hentry⟩ := (mem_entriesOf_iff hes).mp he'
      rw [path_of_entry hentry]
      exact ⟨hq, hentry⟩
    · rintro ⟨hp, hentry⟩
      refine List.mem_map.mpr ⟨e, (mem_entriesOf_iff hes).mpr ⟨p, hp, hentry⟩, ?_⟩
      rw [path_of_entry hentry]
  rw [OrderedMap.get?_ofList_iff, hpair]
  -- A path has one entry.
  intro q e₁ e₂ h₁ h₂
  have heq := ((hpair q e₁).mp h₁).2.symm.trans ((hpair q e₂).mp h₂).2
  exact Except.ok.inj heq

theorem contains_inventory_iff {m : OrderedMap String Entry} (hm : d.inventory f root = .ok m) :
    m.contains p = true ↔ p ∈ d.walk f true root ∧ ∃ e, d.entry p root = .ok e := by
  rw [OrderedMap.contains_eq_isSome, Option.isSome_iff_exists]
  simp only [get?_inventory_iff hm, exists_and_left]

/-- If all paths that the walk finds are dated, there is an inventory. -/
theorem inventory_of_dated (hd : d.tree.Named) (h : ∀ p ∈ d.walk f true root, d.Dated p) :
    ∃ m, d.inventory f root = .ok m ∧
      ∀ p e, m.get? p = some e ↔ p ∈ d.walk f true root ∧ d.entry p root = .ok e := by
  obtain ⟨es, hes⟩ : ∃ es, d.entriesOf root (d.walk f true root) = .ok es :=
    entriesOf_of_dated (fun p hp => ne_empty_of_mem_walk hd hp) fun p hp _ _ => h p hp
  have hm : d.inventory f root = .ok (.ofList (es.map fun e => (e.path, e))) := by
    rw [inventory, scan, hes]
    rfl
  exact ⟨_, hm, fun p e => get?_inventory_iff hm⟩

end Disk

end LiveIndex
