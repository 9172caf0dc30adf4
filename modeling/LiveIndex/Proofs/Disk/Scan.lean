import LiveIndex.Proofs.Watch.Discovery

/-! What a scan gives, and in which order. It gives what is wanted below the directories that can be
listed and are not left out, each thing once, a directory before what is beneath it; and an entry is
spelled as its path is seen from the root. -/

namespace LiveIndex.Disk

open Path (descend IsPlain)

variable {d : Disk} {f : Filter} {directories : Bool} {root dir p name : String} {t u : Tree}
  {above : List String}

section Order

/-- Whether a path may stand behind another one: it is neither that path nor above it. -/
def MayFollow (p q : String) : Prop :=
  p ≠ q ∧ Path.isBeneath q p = false

/-- Paths that go down by other names from the first one on may stand in any order. -/
theorem mayFollow_of_head_ne {a b : String} (hne : b ≠ a) {ns ms : List String}
    (hns : ∀ n ∈ a :: ns, IsPlain n) (hms : ∀ n ∈ b :: ms, IsPlain n) :
    MayFollow (descend dir (a :: ns)) (descend dir (b :: ms)) :=
  Path.descend_apart hns hms (List.cons_ne_nil _ _) fun h => hne (List.cons_prefix_cons.mp h).1

theorem pairwise_sortByName {α : Type} {items : List (String × α)}
    (h : (items.map Prod.fst).Nodup) :
    (sortByName items).Pairwise fun a b => b.1 ≠ a.1 := by
  have hperm : (sortByName items).Perm items := List.mergeSort_perm ..
  have hnodup : ((sortByName items).map Prod.fst).Nodup := (hperm.map Prod.fst).nodup_iff.mpr h
  exact (List.pairwise_map.mp hnodup).imp fun hne => hne.symm

/-- What is looked at in one directory comes in such an order: the names there are distinct. -/
theorem pairwise_levelPaths {children : List (String × Tree)}
    (hplain : ∀ c ∈ children, IsPlain c.1) (hdistinct : (children.map Prod.fst).Nodup) :
    (d.levelPaths f directories dir children).Pairwise MayFollow := by
  obtain ⟨named, hnamed⟩ :
      ∃ named, named = (sortByName children).map fun c => (c.1, Path.join dir c.1, c.2) := ⟨_, rfl⟩
  have hapart : named.Pairwise fun a b => b.1 ≠ a.1 := by
    rw [hnamed]
    exact List.pairwise_map.mpr (pairwise_sortByName hdistinct)
  have hpath : ∀ c ∈ named, IsPlain c.1 ∧ c.2.1 = descend dir [c.1] := by
    intro c hc
    rw [hnamed] at hc
    obtain ⟨c', hc', rfl⟩ := List.mem_map.mp hc
    exact ⟨hplain c' ((List.mergeSort_perm ..).mem_iff.mp hc'), rfl⟩
  have hfollow : ∀ a ∈ named, ∀ b ∈ named, b.1 ≠ a.1 → MayFollow a.2.1 b.2.1 := by
    intro a ha b hb hne
    obtain ⟨hplaina, ha⟩ := hpath a ha
    obtain ⟨hplainb, hb⟩ := hpath b hb
    rw [ha, hb]
    exact mayFollow_of_head_ne hne (List.forall_mem_singleton.mpr hplaina)
      (List.forall_mem_singleton.mpr hplainb)
  have hall : named.Pairwise fun a b => MayFollow a.2.1 b.2.1 :=
    hapart.imp_of_mem fun ha hb => hfollow _ ha _ hb
  -- They are parted into two lists, and no name is in both.
  have hparted (P Q : String × String × Tree → Bool) (hPQ : ∀ c, P c = true → Q c = false) :
      (named.filter P ++ named.filter Q).Pairwise fun a b => MayFollow a.2.1 b.2.1 := by
    refine List.pairwise_append.mpr ⟨hall.filter _, hall.filter _, ?_⟩
    intro a ha b hb
    obtain ⟨ha, hPa⟩ := List.mem_filter.mp ha
    obtain ⟨hb, hQb⟩ := List.mem_filter.mp hb
    refine hfollow a ha b hb fun hsame => ?_
    have hnodup : (named.map Prod.fst).Nodup := List.pairwise_map.mpr (hapart.imp Ne.symm)
    obtain rfl : a = b := List.inj_on_of_nodup_map hnodup ha hb hsame.symm
    rw [hPQ a hPa] at hQb
    cases hQb
  unfold levelPaths
  rw [← hnamed]
  refine List.pairwise_map.mpr ((hparted _ _ fun c hc => ?_).filter _)
  rw [Bool.and_eq_true] at hc
  rw [hc.1]
  rfl

theorem childPaths_eq_map (children : List (String × Tree)) :
    d.childPaths f directories dir children = children.map fun c =>
      (c.1, if c.1 ∈ f.excluded then []
        else d.treePaths f directories (Path.join dir c.1) c.2) := by
  induction children with
  | nil => rw [childPaths, List.map_nil]
  | cons c rest ih => rw [childPaths, ih, List.map_cons]

/-- Everything that the walk of a tree finds goes down from its root by names. -/
theorem descend_of_mem_treePaths (ht : t.Proper) (hp : p ∈ d.treePaths f directories dir t) :
    ∃ n ns, (∀ m ∈ n :: ns, IsPlain m) ∧ p = descend dir (n :: ns) := by
  obtain ⟨above, name, u, hway, rfl, -⟩ := (mem_treePaths_iff_way ht).mp hp
  have hplain := hway.plain ht
  cases above with
  | nil => exact ⟨name, [], hplain, rfl⟩
  | cons n ns => exact ⟨n, ns ++ [name], hplain, rfl⟩

/-- The walk of a tree finds nothing twice, and a directory before what is beneath it. -/
theorem pairwise_treePaths (ht : t.Proper) :
    (d.treePaths f directories dir t).Pairwise MayFollow := by
  induction ht generalizing dir with
  | file content =>
    rw [treePaths]
    · exact List.Pairwise.nil
    · intro children h
      cases h
  | link target =>
    rw [treePaths]
    · exact List.Pairwise.nil
    · intro children h
      cases h
  | dir children plain distinct below ih =>
    rw [treePaths]
    split
    · exact List.Pairwise.nil
    · have hbelow : ∀ n ∈ d.childPaths f directories dir children, IsPlain n.1 ∧
          n.2.Pairwise MayFollow ∧ ∀ p ∈ n.2, ∃ m ms, (∀ k ∈ n.1 :: m :: ms, IsPlain k) ∧
            p = descend dir (n.1 :: m :: ms) := by
        intro n hn
        rw [childPaths_eq_map] at hn
        obtain ⟨c, hc, rfl⟩ := List.mem_map.mp hn
        dsimp only
        refine ⟨plain c hc, ?_, ?_⟩
        · split
          · exact List.Pairwise.nil
          · exact ih c hc
        · intro p hp
          split at hp
          · exact absurd hp List.not_mem_nil
          · obtain ⟨m, ms, hms, rfl⟩ := descend_of_mem_treePaths (below c hc) hp
            exact ⟨m, ms, List.forall_mem_cons.mpr ⟨plain c hc, hms⟩, rfl⟩
      have hsorted : ∀ n ∈ sortByName (d.childPaths f directories dir children),
          n ∈ d.childPaths f directories dir children :=
        fun n hn => (List.mergeSort_perm ..).mem_iff.mp hn
      refine List.pairwise_append.mpr ⟨pairwise_levelPaths plain distinct, ?_, ?_⟩
      · refine List.pairwise_flatMap.mpr ⟨fun n hn => (hbelow n (hsorted n hn)).2.1, ?_⟩
        have hnames : ((d.childPaths f directories dir children).map Prod.fst).Nodup := by
          rw [childPaths_eq_map, List.map_map]
          exact distinct
        refine (pairwise_sortByName hnames).imp_of_mem ?_
        intro a b ha hb hne p hp q hq
        obtain ⟨m, ms, hms, rfl⟩ := (hbelow a (hsorted a ha)).2.2 p hp
        obtain ⟨k, ks, hks, rfl⟩ := (hbelow b (hsorted b hb)).2.2 q hq
        exact mayFollow_of_head_ne hne hms hks
      · -- What is deeper by a name is not above what is looked at here.
        intro p hp q hq
        obtain ⟨c, hc, rfl, -⟩ := mem_levelPaths_iff.mp hp
        obtain ⟨n, hn, hq⟩ := List.mem_flatMap.mp hq
        obtain ⟨m, ms, hms, rfl⟩ := (hbelow n (hsorted n hn)).2.2 q hq
        have hplain : ∀ k ∈ [c.1], IsPlain k := List.forall_mem_singleton.mpr (plain c hc)
        refine Path.descend_apart hplain hms (List.cons_ne_nil _ _) fun hprefix => ?_
        have hlength := hprefix.length_le
        simp at hlength

theorem pairwise_walk (hd : d.tree.Proper) : (d.walk f directories root).Pairwise MayFollow := by
  unfold walk
  split
  · next t ht => exact pairwise_treePaths (proper_of_find hd ht)
  · exact List.Pairwise.nil

/-- A scan passes over some of the paths of its walk, and keeps their order. -/
theorem paths_entriesOf {paths : List String} {es : List Entry}
    (hes : d.entriesOf root paths = .ok es) : (es.map Entry.path).Sublist paths := by
  induction paths generalizing es with
  | nil =>
    cases hes
    exact List.Sublist.slnil
  | cons p rest ih =>
    rw [entriesOf] at hes
    split at hes
    · next e he =>
      cases hrest : d.entriesOf root rest with
      | error failure =>
        rw [hrest] at hes
        cases hes
      | ok more =>
        rw [hrest] at hes
        cases hes
        rw [List.map_cons, path_of_entry he]
        exact (ih hrest).cons_cons p
    · split at hes
      · exact (ih hes).cons p
      · cases hes

end Order

section Ancestors

/-- A way starts in a directory that can be listed. -/
theorem Way.origin (h : d.Way dir t above name u) :
    ∃ children, t = .dir children ∧ (d.markOf dir).unreadable = false := by
  cases h with
  | last listed _ => exact ⟨_, rfl, listed⟩
  | deeper listed _ _ => exact ⟨_, rfl, listed⟩

/-- And so does what is left of it at each directory that it goes through. -/
theorem Way.through (h : d.Way dir t above name u) {ns : List String} {n : String}
    (hns : ns ++ [n] <+: above) : ∃ children, d.Way dir t ns n (.dir children) ∧
      (d.markOf (descend dir (ns ++ [n]))).unreadable = false := by
  induction h generalizing ns with
  | last _ _ =>
    have hlength := hns.length_le
    simp at hlength
  | deeper listed child rest ih =>
    cases ns with
    | nil =>
      obtain ⟨children, rfl, hlisted⟩ := rest.origin
      obtain ⟨rfl, -⟩ := List.cons_prefix_cons.mp hns
      exact ⟨children, .last listed child, hlisted⟩
    | cons m ns =>
      obtain ⟨rfl, hrest⟩ := List.cons_prefix_cons.mp hns
      obtain ⟨children, hway, hlisted⟩ := ih hrest
      exact ⟨children, .deeper listed child hway, hlisted⟩

/-- A walk goes down through listable directories that are no links. -/
theorem Reaches.listed (h : d.Reaches root p above name u) (hd : d.tree.Proper) :
    d.Listed root above := by
  obtain ⟨t, ht, hway, -⟩ := h
  have hstep {ns : List String} (hns : ns <+: above) (hne : ns ≠ []) :
      ∃ children, d.peek (descend root ns) = .ok (.dir children) ∧
        (d.markOf (descend root ns)).unreadable = false := by
    obtain ⟨front, n, rfl⟩ := (List.eq_nil_or_concat' ns).resolve_left hne
    obtain ⟨children, hfront, hlisted⟩ := hway.through hns
    have hreaches : d.Reaches root (descend root (front ++ [n])) front n (.dir children) :=
      ⟨t, ht, hfront, rfl⟩
    exact ⟨children, hreaches.peek hd, hlisted⟩
  constructor
  · intro ns hns
    by_cases hne : ns = []
    · obtain ⟨children, rfl, hlisted⟩ := hway.origin
      have hroot : d.find (descend root ns) = .ok (.dir children) := by rw [hne]; exact ht
      have hmark : (d.markOf (descend root ns)).unreadable = false := by rw [hne]; exact hlisted
      rw [list, hroot, hmark]
      exact ⟨children, rfl⟩
    · obtain ⟨children, hpeek, hlisted⟩ := hstep hns hne
      -- What stands there is no link, so it is also what the path leads to.
      have hfind : d.find (descend root ns) = .ok (.dir children) := by
        rcases d.find_or_link (descend root ns) with hfind | hlink
        · rw [hfind, hpeek]
        · rw [isLink, hpeek] at hlink
          cases hlink
      rw [list, hfind, hlisted]
      exact ⟨children, rfl⟩
  · intro ns hns hne
    obtain ⟨children, hpeek, -⟩ := hstep hns hne
    rw [isLink, hpeek]
    rfl

end Ancestors

section Entries

/-- Whether a scan is to give what stands at a path under a name. Of directories and links to them,
neither are given if the name is left out; besides, directories are if they are wanted, and all else
by its extension. -/
def Wanted (d : Disk) (f : Filter) (directories : Bool) (p name : String) : Prop :=
  (d.isDir p = true ∧ d.isLink p = false ∧ name ∉ f.excluded ∧ directories = true) ∨
    (d.isDir p = true ∧ d.isLink p = true ∧ name ∉ f.excluded ∧ f.wantsExtension p = true) ∨
    (d.isDir p = false ∧ f.wantsExtension p = true)

/-- Whether a scan of a root is to give a path: its metadata can be read, it stands below the root
in directories that can be listed, are no links and have names that are not left out, and it is
wanted itself. -/
def InScope (d : Disk) (f : Filter) (directories : Bool) (root p : String) : Prop :=
  ∃ above name, p = descend root (above ++ [name]) ∧ (∀ n ∈ above ++ [name], IsPlain n) ∧
    (∃ st, d.stat p = .ok st) ∧ d.Listed root above ∧ (∀ n ∈ above, n ∉ f.excluded) ∧
    d.Wanted f directories p name

/-- The walk takes what is wanted. -/
theorem taken_iff_wanted (hpeek : d.peek p = .ok u) :
    d.Taken f directories p name u ↔ d.Wanted f directories p name := by
  have hdirs : d.amongDirs p u = d.isDir p := amongDirs_of_peek hpeek
  have hdir : (d.isDir p && !d.isLink p) = u.isDir := isDir_of_peek hpeek
  rw [Taken, hdirs, ← hdir, Wanted]
  cases d.isDir p <;> cases d.isLink p <;> simp

/-- An entry that a scan gives leads from the root to its path, and its name comes last on the
way. -/
theorem Reaches.spelled (h : d.Reaches root p above name u) (hd : d.tree.Proper)
    (hroot : Path.isAbsolute root = true) {e : Entry} (he : d.entry p root = .ok e) :
    Path.join root e.relativePath = e.path ∧
      (Text.split '/' e.relativePath).getLast? = some e.name := by
  have hplain := h.plain hd
  have hne : above ++ [name] ≠ [] := List.append_ne_nil_of_right_ne_nil _ (List.cons_ne_nil _ _)
  obtain ⟨-, -, -, rfl⟩ := h
  obtain ⟨-, -, -, hname, -, hrelative⟩ := fields_of_entry he
  have hseen : e.relativePath = "/".intercalate (above ++ [name]) := by
    rw [relativeTo, Path.relative?_descend_eq hroot hne hplain] at hrelative
    dsimp only at hrelative
    exact (Except.ok.inj hrelative).symm
  rw [hseen, path_of_entry he, hname, Path.baseName_descend hplain,
    Path.split_intercalate hne fun n hn => (hplain n hn).1]
  exact ⟨Path.join_intercalate hne hplain, List.getLast?_concat⟩

end Entries

/-- What the walk finds and has metadata is what is in scope. -/
theorem mem_walk_iff_inScope (hd : d.tree.Proper) :
    (p ∈ d.walk f directories root ∧ ∃ st, d.stat p = .ok st) ↔
      d.InScope f directories root p := by
  constructor
  · rintro ⟨hp, hst⟩
    obtain ⟨above, name, u, hreaches, habove, htaken⟩ := (mem_walk_iff hd).mp hp
    have hspelled : p = descend root (above ++ [name]) := by
      obtain ⟨-, -, -, hspelled⟩ := hreaches
      exact hspelled
    exact ⟨above, name, hspelled, hreaches.plain hd, hst, hreaches.listed hd, habove,
      (taken_iff_wanted (hreaches.peek hd)).mp htaken⟩
  · rintro ⟨above, name, hspelled, hplain, ⟨st, hst⟩, hlisted, habove, hwanted⟩
    obtain ⟨u, hpeek⟩ := peek_of_stat hst
    have hreaches : d.Reaches root p above name u := by
      rw [hspelled] at hpeek ⊢
      exact hlisted.reaches hplain hpeek
    exact ⟨(hreaches.mem_walk_iff hd).mpr ⟨habove, (taken_iff_wanted hpeek).mpr hwanted⟩, st, hst⟩

/-- A scan of an absolute root ends well if all metadata that can be read is dated. It gives just
the paths that are in scope. It gives each of them once, and none before one that is above it; and
its entries lead from the root to their paths, by their names. -/
theorem scan_exact (hd : d.tree.Proper) (hroot : Path.isAbsolute root = true)
    (hdated : ∀ q ∈ d.walk f directories root, ∀ st, d.stat q = .ok st → d.Dated q) :
    ∃ es, d.scan f directories root = .ok es ∧
      (∀ p, (∃ e ∈ es, e.path = p) ↔ d.InScope f directories root p) ∧
      (es.map Entry.path).Nodup ∧
      es.Pairwise (fun e e' => Path.isBeneath e'.path e.path = false) ∧
      ∀ e ∈ es, Path.join root e.relativePath = e.path ∧
        (Text.split '/' e.relativePath).getLast? = some e.name := by
  obtain ⟨es, hes⟩ : ∃ es, d.scan f directories root = .ok es :=
    entriesOf_of_dated (fun q hq => ne_empty_of_mem_walk hd.named hq) hdated
  have hgiven : ∀ e, e ∈ es ↔ ∃ p ∈ d.walk f directories root, d.entry p root = .ok e :=
    fun e => mem_entriesOf_iff hes
  have horder : (es.map Entry.path).Pairwise MayFollow :=
    (pairwise_walk hd).sublist (paths_entriesOf hes)
  refine ⟨es, hes, ?_, ?_, ?_, ?_⟩
  · intro p
    rw [← mem_walk_iff_inScope hd]
    constructor
    · rintro ⟨e, he, hpath⟩
      obtain ⟨q, hq, hentry⟩ := (hgiven e).mp he
      obtain rfl : q = p := (path_of_entry hentry).symm.trans hpath
      obtain ⟨st, hst, -⟩ := entry_eq_ok hentry
      exact ⟨hq, st, hst⟩
    · rintro ⟨hp, st, hst⟩
      obtain ⟨e, he⟩ := (hdated p hp st hst).entry (ne_empty_of_mem_walk hd.named hp) root
      exact ⟨e, (hgiven e).mpr ⟨p, hp, he⟩, path_of_entry he⟩
  · exact horder.imp fun h => h.1
  · exact (List.pairwise_map.mp horder).imp fun h => h.2
  · intro e he
    obtain ⟨p, hp, hentry⟩ := (hgiven e).mp he
    obtain ⟨above, name, u, hreaches, -⟩ := (mem_walk_iff hd).mp hp
    exact hreaches.spelled hd hroot hentry

section Small

open Reconciliation (smallDisk find_smallDisk stat_smallDisk)
open Keeper.Refreshing (proper_smallDisk reaches_smallDisk)
open Watch (everything listed_smallDisk dated_of_stat_smallDisk not_scanned_beyond_calendar)

/-- The scan of a small disk comes to the file in the directory, and has nothing twice. -/
theorem scan_exact_small :
    ∃ es, (smallDisk 1700000000).scan everything true "/r" = .ok es ∧
      (∃ e ∈ es, e.path = "/r/d/a.txt") ∧ (es.map Entry.path).Nodup := by
  have hproper := proper_smallDisk 1700000000
  have hfile : (smallDisk 1700000000).isDir "/r/d/a.txt" = false := by
    rw [isDir, find, (find_smallDisk 1700000000 true).2.2]
    rfl
  have hscope : (smallDisk 1700000000).InScope everything true "/r" "/r/d/a.txt" :=
    ⟨["d"], "a.txt", by decide, reaches_smallDisk.plain hproper,
      ⟨_, (stat_smallDisk 1700000000).2⟩, listed_smallDisk, by decide, .inr (.inr ⟨hfile, rfl⟩)⟩
  have hdated : ∀ q ∈ (smallDisk 1700000000).walk everything true "/r", ∀ st,
      (smallDisk 1700000000).stat q = .ok st → (smallDisk 1700000000).Dated q :=
    fun _ _ _ hst => dated_of_stat_smallDisk hst
  obtain ⟨es, hes, hgiven, hnodup, -⟩ := scan_exact hproper (by decide) hdated
  exact ⟨es, hes, (hgiven _).mpr hscope, hnodup⟩

/-- What is in scope by its metadata is not always given: a directory whose time is beyond the
calendar has no entry. -/
theorem scan_passes_over :
    ¬∀ (d : Disk) (f : Filter) (directories : Bool) (root : String),
      d.tree.Proper → Path.isAbsolute root = true → Path.normal root = root →
      d.isDir root = true → d.isLink root = false →
      ∃ es, d.scan f directories root = .ok es ∧
        ∀ p, (∃ e ∈ es, e.path = p) ↔ d.InScope f directories root p := by
  intro hclaim
  obtain ⟨hroot, hdir, -⟩ := find_smallDisk 100000000000000000 true
  obtain ⟨hroot', hdir', -⟩ := find_smallDisk 100000000000000000 false
  have hisRoot : (smallDisk 100000000000000000).isDir "/r" = true ∧
      (smallDisk 100000000000000000).isLink "/r" = false := by
    rw [isDir, isLink, find, peek, hroot, hroot']
    exact ⟨rfl, rfl⟩
  have hisDir : (smallDisk 100000000000000000).isDir "/r/d" = true ∧
      (smallDisk 100000000000000000).isLink "/r/d" = false := by
    rw [isDir, isLink, find, peek, hdir, hdir']
    exact ⟨rfl, rfl⟩
  have hlisted : (smallDisk 100000000000000000).Listed "/r" [] := by
    have hmark : (smallDisk 100000000000000000).markOf "/r" = .plain := rfl
    constructor
    · intro ns hns
      rw [List.prefix_nil.mp hns, descend, List.foldl_nil, list, hmark, find, hroot]
      exact ⟨_, rfl⟩
    · exact fun ns hns hne => absurd (List.prefix_nil.mp hns) hne
  have hplain : ∀ n ∈ ([] ++ ["d"] : List String), IsPlain n :=
    List.forall_mem_singleton.mpr ⟨⟨by decide, by decide⟩, by decide, by decide⟩
  have hscope : (smallDisk 100000000000000000).InScope everything true "/r" "/r/d" :=
    ⟨[], "d", by decide, hplain, ⟨_, (stat_smallDisk 100000000000000000).1⟩, hlisted, by decide,
      .inl ⟨hisDir.1, hisDir.2, by decide, rfl⟩⟩
  obtain ⟨es, hes, hgiven⟩ := hclaim _ everything true "/r" (proper_smallDisk 100000000000000000)
    (by decide) (by decide) hisRoot.1 hisRoot.2
  obtain ⟨e, he, hpath⟩ := (hgiven "/r/d").mpr hscope
  exact not_scanned_beyond_calendar hes e he hpath

end Small

end LiveIndex.Disk
