import LiveIndex.Proofs.Keeper.Refreshing
import LiveIndex.Watch.Calls

/-! Two ways to learn of a path: a walk comes upon it, or it is reported to a watch. The walk leaves
out directories by their names as it goes down, the watch looks at all names of the path as it is
seen from the root. -/

namespace LiveIndex

namespace Watch

open Path (descend)

variable {w : Watch} {d : Disk} {f : Filter} {root p name r : String} {above : List String}
  {u : Tree}

/-- Whether something of a kind is of interest to a watch under the names that lead there. -/
def takes (w : Watch) (names : List String) (path : String) (t : Tree) : Bool :=
  names.all (· ∉ w.filter.excluded) && (t.isDir || w.filter.wantsExtension path)

/-- The event of something that was added. -/
def arrival (now : Int) (path relativePath : String) (t : Tree) : Event where
  kind := if t.isDir then .addDirectory else .add
  path
  relativePath
  isDirectory := t.isDir
  extension := if t.isDir then "" else Path.extension path
  time := now

theorem interpretPresent_added (hpeek : d.peek p = .ok u) (hr : relativeTo p w.root = .ok r)
    (now : Int) : (w.interpretPresent d now true p).2 =
      .ok (if u.isDir || w.filter.wantsExtension p then some (arrival now p r u) else none) := by
  have hevent (kind : WatchKind) (isDirectory : Bool) : w.eventOf now kind p isDirectory =
      .ok ⟨kind, p, r, isDirectory, if isDirectory then "" else Path.extension p, now⟩ := by
    rw [eventOf, hr]
    rfl
  rw [interpretPresent, Disk.isDir_of_peek hpeek]
  cases hdir : u.isDir with
  | true =>
    simp only [if_true, hevent, Bool.true_or, arrival, hdir]
    rfl
  | false =>
    simp only [Bool.false_eq_true, if_false, if_true, Bool.false_or]
    split
    · simp only [hevent, arrival, hdir]
      rfl
    · rfl

/-- What becomes of the report that something was added where a walk comes upon it. -/
theorem interpret_added (hd : d.tree.Proper) (hroot : Path.isAbsolute w.root = true)
    (h : d.Reaches w.root p above name u) : ∃ r, ∀ now, (w.interpret d now .added p).2 =
      .ok (if w.takes (above ++ [name]) p u then some (arrival now p r u) else none) := by
  have hpeek := h.peek hd
  have hplain := h.plain hd
  obtain ⟨-, -, -, rfl⟩ := h
  have hne : above ++ [name] ≠ [] := List.append_ne_nil_of_right_ne_nil _ (List.cons_ne_nil _ _)
  obtain ⟨r, hrelative, hsplit⟩ := Path.relative?_descend hroot hne hplain
  have hr : relativeTo (descend w.root (above ++ [name])) w.root = .ok r := by
    rw [relativeTo, hrelative]
  refine ⟨r, fun now => ?_⟩
  have hexcludes : w.filter.excludes r = !(above ++ [name]).all (· ∉ w.filter.excluded) := by
    rw [Filter.excludes, hsplit, List.any_eq_not_all_not]
    simp
  rw [interpret, hr]
  dsimp only
  rw [hexcludes, takes]
  cases hnames : (above ++ [name]).all (· ∉ w.filter.excluded) with
  | false => rfl
  | true =>
    rw [Bool.not_true, if_neg Bool.false_ne_true, Bool.true_and]
    exact interpretPresent_added hpeek hr now

/-- A watch of a root with a filter, to which the directory of the stored index has been added. -/
def Covers (w : Watch) (root : String) (f : Filter) : Prop :=
  w.root = root ∧ w.filter = { f with excluded := cacheDir :: f.excluded }

theorem covers_create (root : String) (f : Filter) (debounce : Int) (ignoreInitial : Bool) :
    (create root f debounce ignoreInitial).Covers root f :=
  ⟨rfl, rfl⟩

/-- A watch is interested in what the walk takes, where a name that is left out is the name of a
directory or of a link to one. -/
theorem mem_walk_iff_takes (hd : d.tree.Proper) (hw : w.Covers root f)
    (hcache : cacheDir ∈ f.excluded) (h : d.Reaches root p above name u)
    (hname : name ∈ f.excluded → d.isDir p = true) :
    p ∈ d.walk f true root ↔ w.takes (above ++ [name]) p u = true := by
  obtain ⟨-, hfilter⟩ := hw
  have hexcluded (n : String) : n ∈ w.filter.excluded ↔ n ∈ f.excluded := by
    rw [hfilter, List.mem_cons, or_iff_right_of_imp]
    rintro rfl
    exact hcache
  have hextension : w.filter.wantsExtension p = f.wantsExtension p := by
    rw [hfilter]
    rfl
  have htakes : w.takes (above ++ [name]) p u = true ↔
      (∀ n ∈ above ++ [name], n ∉ f.excluded) ∧ (u.isDir = true ∨ f.wantsExtension p = true) := by
    simp only [takes, Bool.and_eq_true, List.all_eq_true, decide_eq_true_eq, Bool.or_eq_true,
      hexcluded, hextension]
  have hdirs : d.amongDirs p u = d.isDir p := Disk.amongDirs_of_peek (h.peek hd)
  have hkind : (if u.isDir then true else f.wantsExtension p) = true ↔
      u.isDir = true ∨ f.wantsExtension p = true := by
    cases u.isDir <;> simp
  rw [htakes, h.mem_walk_iff hd, Disk.Taken, hdirs, hkind, ← and_assoc]
  refine and_congr_left fun _ => ⟨?_, ?_⟩
  · rintro ⟨habove, hlast⟩ n hn
    rcases List.mem_append.mp hn with hn | hn
    · exact habove n hn
    · rw [List.mem_singleton.mp hn]
      exact fun hexcl => hlast (hname hexcl) hexcl
  · intro hnames
    refine ⟨fun n hn => hnames n (List.mem_append_left _ hn), fun _ => ?_⟩
    exact hnames name (List.mem_append_right _ (List.mem_singleton_self name))

/-- A scan and a watch find the same things, and tell directories from all else alike: a scan gives
an entry of a path just if the report that something was added there becomes an event. -/
theorem scanned_iff_noticed (hd : d.tree.Proper) (hroot : Path.isAbsolute root = true)
    (hw : w.Covers root f) (hcache : cacheDir ∈ f.excluded)
    (hdated : ∀ q ∈ d.walk f true root, ∀ st, d.stat q = .ok st → d.Dated q)
    (hplain : ∀ n ∈ above ++ [name], Path.IsPlain n) (hp : p = descend root (above ++ [name]))
    (hlisted : d.Listed root above) {st : Stat} (hst : d.stat p = .ok st)
    (hname : name ∈ f.excluded → d.isDir p = true) (now : Int) :
    ∃ es, d.scan f true root = .ok es ∧
      ((∃ e ∈ es, e.path = p) ↔ ∃ ev, (w.interpret d now .added p).2 = .ok (some ev)) ∧
      ∀ e ∈ es, e.path = p → ∀ ev, (w.interpret d now .added p).2 = .ok (some ev) →
        ev.path = p ∧ (ev.kind = .addDirectory ↔ e.isDirectory = true) := by
  obtain ⟨u, hpeek⟩ := Disk.peek_of_stat hst
  have hreaches : d.Reaches root p above name u := by
    subst hp
    exact hlisted.reaches hplain hpeek
  have hwalk := mem_walk_iff_takes hd hw hcache hreaches hname
  obtain ⟨rfl, -⟩ := hw
  obtain ⟨r, hinterpret⟩ := interpret_added hd hroot hreaches
  obtain ⟨es, hes⟩ : ∃ es, d.scan f true w.root = .ok es :=
    Disk.entriesOf_of_dated (fun q hq => Disk.ne_empty_of_mem_walk hd.named hq) hdated
  refine ⟨es, hes, ⟨?_, ?_⟩, ?_⟩
  · rintro ⟨e, he, hpath⟩
    obtain ⟨q, hq, hentry⟩ := (Disk.mem_entriesOf_iff hes).mp he
    obtain rfl : q = p := (Disk.path_of_entry hentry).symm.trans hpath
    exact ⟨_, by rw [hinterpret, if_pos (hwalk.mp hq)]⟩
  · rintro ⟨ev, hev⟩
    rw [hinterpret] at hev
    split at hev
    · next htakes =>
      have hq := hwalk.mpr htakes
      obtain ⟨e, he⟩ := (hdated p hq st hst).entry (Disk.ne_empty_of_mem_walk hd.named hq) w.root
      exact ⟨e, (Disk.mem_entriesOf_iff hes).mpr ⟨p, hq, he⟩, Disk.path_of_entry he⟩
    · cases hev
  · intro e he hpath ev hev
    obtain ⟨q, -, hentry⟩ := (Disk.mem_entriesOf_iff hes).mp he
    obtain rfl : q = p := (Disk.path_of_entry hentry).symm.trans hpath
    have hdirectory : e.isDirectory = u.isDir := hreaches.isDirectory hd hentry
    rw [hinterpret] at hev
    split at hev
    · cases hev
      refine ⟨rfl, ?_⟩
      rw [hdirectory, arrival]
      cases u.isDir <;> simp
    · cases hev

section Small

open Reconciliation (smallDisk find_smallDisk stat_smallDisk)
open Keeper.Refreshing (proper_smallDisk reaches_smallDisk)

/-- Everything below a root, but for the stored index. -/
def everything : Filter :=
  ⟨none, [cacheDir]⟩

theorem listed_smallDisk : (smallDisk 1700000000).Listed "/r" ["d"] := by
  obtain ⟨hroot, hdir, -⟩ := find_smallDisk 1700000000 true
  have hmark : (smallDisk 1700000000).markOf "/r" = .plain ∧
      (smallDisk 1700000000).markOf "/r/d" = .plain := ⟨rfl, rfl⟩
  have hdescend : descend "/r" ["d"] = "/r/d" := by decide
  have hinitial (ns : List String) (hns : ns <+: ["d"]) : ns = [] ∨ ns = ["d"] := by
    rcases List.prefix_cons_iff.mp hns with rfl | ⟨rest, rfl, hrest⟩
    · exact .inl rfl
    · rw [List.prefix_nil.mp hrest]
      exact .inr rfl
  refine ⟨fun ns hns => ?_, fun ns hns hne => ?_⟩
  · rcases hinitial ns hns with rfl | rfl
    · exact ⟨_, by rw [descend, List.foldl_nil, Disk.list, hmark.1, Disk.find, hroot]; rfl⟩
    · exact ⟨_, by rw [hdescend, Disk.list, hmark.2, Disk.find, hdir]; rfl⟩
  · obtain rfl := (hinitial ns hns).resolve_left hne
    rw [hdescend, Disk.isLink, Disk.peek, (find_smallDisk 1700000000 false).2.1]
    rfl

theorem dated_of_stat_smallDisk {st : Stat} (hst : (smallDisk 1700000000).stat p = .ok st) :
    (smallDisk 1700000000).Dated p := by
  obtain ⟨stamp, hstamp⟩ := Reconciliation.stampOf_plain
  have hmark : (smallDisk 1700000000).markOf p = .plain := by
    unfold Disk.markOf smallDisk
    rw [List.find?_singleton]
    split <;> rfl
  refine ⟨st, stamp, stamp, hst, ?_, ?_⟩
  all_goals
    simp only [Disk.stat, hmark, Mark.plain] at hst
    split at hst <;> cases hst <;> exact hstamp

/-- The file in the directory is scanned, and a watch that has just been made notices it. -/
theorem scanned_iff_noticed_small :
    let d := smallDisk 1700000000
    let w := create "/r" everything 300 true
    ∃ es, d.scan everything true "/r" = .ok es ∧
      ((∃ e ∈ es, e.path = "/r/d/a.txt") ↔
        ∃ ev, (w.interpret d 5 .added "/r/d/a.txt").2 = .ok (some ev)) ∧
      ∀ e ∈ es, e.path = "/r/d/a.txt" → ∀ ev,
        (w.interpret d 5 .added "/r/d/a.txt").2 = .ok (some ev) →
        ev.path = "/r/d/a.txt" ∧ (ev.kind = .addDirectory ↔ e.isDirectory = true) :=
  scanned_iff_noticed (proper_smallDisk _) (by decide) (covers_create ..) (by decide)
    (fun _ _ _ hst => dated_of_stat_smallDisk hst)
    (reaches_smallDisk.plain (proper_smallDisk _)) (by decide) listed_smallDisk
    (stat_smallDisk 1700000000).2 (by decide) 5

/-- The directory is noticed wherever it stands, whatever is known of the root and of its times. -/
theorem notices_directory {d : Disk} (htree : d.tree = (smallDisk 0).tree) :
    ((create "/r" everything 300 true).interpret d 5 .added "/r/d").2 =
      .ok (some ⟨.addDirectory, "/r/d", "d", true, "", 5⟩) := by
  have hr : relativeTo "/r/d" (create "/r" everything 300 true).root = .ok "d" := by decide +kernel
  have hexcludes : (create "/r" everything 300 true).filter.excludes "d" = false := by decide
  have hpeek : d.peek "/r/d" = .ok (.dir [("a.txt", .file (.text "x"))]) := by
    rw [Disk.peek, htree, (find_smallDisk 0 false).2.1]
  rw [interpret, hr]
  dsimp only
  rw [hexcludes, if_neg Bool.false_ne_true]
  exact interpretPresent_added hpeek hr 5

/-- The small disk, with a root that cannot be listed. -/
def lockedDisk : Disk :=
  { smallDisk 1700000000 with marks := [("/r", { Mark.plain with unreadable := true })] }

/-- Nothing is scanned below a root that cannot be listed. -/
theorem scan_lockedDisk : lockedDisk.scan everything true "/r" = .ok [] := by
  have hproper : lockedDisk.tree.Proper := proper_smallDisk 1700000000
  have hlocked : (lockedDisk.markOf "/r").unreadable = true := rfl
  have hwalk : lockedDisk.walk everything true "/r" = [] := by
    refine List.eq_nil_iff_forall_not_mem.mpr fun p hp => ?_
    obtain ⟨above, name, u, ⟨t, -, hway, -⟩, -⟩ := (Disk.mem_walk_iff hproper).mp hp
    cases hway with
    | last hlisted => exact absurd (hlocked.symm.trans hlisted) (by decide)
    | deeper hlisted => exact absurd (hlocked.symm.trans hlisted) (by decide)
  rw [Disk.scan, hwalk]
  rfl

theorem stat_lockedDisk :
    lockedDisk.stat "/r/d" = .ok ⟨.directory, 0, 1700000000, 1700000000⟩ := by
  have hmark : lockedDisk.markOf "/r/d" = .plain := rfl
  have hpeek : lockedDisk.peek "/r/d" = .ok (.dir [("a.txt", .file (.text "x"))]) := by
    rw [Disk.peek, lockedDisk, (find_smallDisk 1700000000 false).2.1]
  simp only [Disk.stat, hmark, Mark.plain, hpeek]

/-- No scan gives an entry of a time that is beyond the calendar. -/
theorem not_scanned_beyond_calendar {es : List Entry}
    (hes : (smallDisk 100000000000000000).scan everything true "/r" = .ok es) :
    ∀ e ∈ es, e.path ≠ "/r/d" := by
  intro e he hpath
  obtain ⟨q, -, hentry⟩ := (Disk.mem_entriesOf_iff hes).mp he
  obtain rfl : q = "/r/d" := (Disk.path_of_entry hentry).symm.trans hpath
  obtain ⟨stamp, hstamp⟩ := Reconciliation.stampOf_plain
  have hwild : stampOf 100000000000000000 = .error (.time .beyondCalendar) := by decide +kernel
  obtain ⟨r, hr⟩ := Disk.relativeTo_ok (p := "/r/d") (by decide) "/r"
  simp only [Disk.entry, (stat_smallDisk _).1, Stat.entry, hr, hstamp, hwild, bind,
    Except.bind, reduceCtorEq] at hentry

/-- All but what goes by the name of the file. -/
def notTheFile : Filter :=
  ⟨none, [cacheDir, "a.txt"]⟩

/-- A scan gives the file in spite of its name. -/
theorem scanned_misnamed : ∃ es, (smallDisk 1700000000).scan notTheFile true "/r" = .ok es ∧
    ∃ e ∈ es, e.path = "/r/d/a.txt" := by
  have hproper := proper_smallDisk 1700000000
  have hstat := (stat_smallDisk 1700000000).2
  have hwalk : "/r/d/a.txt" ∈ (smallDisk 1700000000).walk notTheFile true "/r" := by
    refine (reaches_smallDisk.mem_walk_iff hproper).mpr ⟨by decide, ?_, rfl⟩
    intro hdirs
    cases hdirs
  obtain ⟨es, hes⟩ : ∃ es, (smallDisk 1700000000).scan notTheFile true "/r" = .ok es :=
    Disk.entriesOf_of_dated (fun q hq => Disk.ne_empty_of_mem_walk hproper.named hq)
      fun q _ _ hst => dated_of_stat_smallDisk hst
  obtain ⟨e, he⟩ := (dated_of_stat_smallDisk hstat).entry (by decide) "/r"
  exact ⟨es, hes, e, (Disk.mem_entriesOf_iff hes).mpr ⟨_, hwalk, he⟩, Disk.path_of_entry he⟩

/-- A watch with the same names does not notice it. -/
theorem not_noticed_misnamed :
    ((create "/r" notTheFile 300 true).interpret (smallDisk 1700000000) 5 .added
      "/r/d/a.txt").2 = .ok none := by
  obtain ⟨r, hinterpret⟩ := interpret_added (w := create "/r" notTheFile 300 true)
    (proper_smallDisk _) (by decide) reaches_smallDisk
  exact (hinterpret 5).trans rfl

/-- What is there can be noticed and not scanned: the root cannot be listed, or a time is beyond the
calendar. A file can be scanned and not noticed: the walk leaves out only directories by their own
names. -/
theorem scanned_and_noticed_apart :
    ((∃ st, lockedDisk.stat "/r/d" = .ok st) ∧
      lockedDisk.scan everything true "/r" = .ok [] ∧
      ∃ ev, ((create "/r" everything 300 true).interpret lockedDisk 5 .added "/r/d").2 =
        .ok (some ev)) ∧
    ((∃ st, (smallDisk 100000000000000000).stat "/r/d" = .ok st) ∧
      (∀ es, (smallDisk 100000000000000000).scan everything true "/r" = .ok es →
        ∀ e ∈ es, e.path ≠ "/r/d") ∧
      ∃ ev, ((create "/r" everything 300 true).interpret (smallDisk 100000000000000000) 5 .added
        "/r/d").2 = .ok (some ev)) ∧
    (∃ st, (smallDisk 1700000000).stat "/r/d/a.txt" = .ok st) ∧
      (smallDisk 1700000000).Listed "/r" ["d"] ∧
      (∃ es, (smallDisk 1700000000).scan notTheFile true "/r" = .ok es ∧
        ∃ e ∈ es, e.path = "/r/d/a.txt") ∧
      ((create "/r" notTheFile 300 true).interpret (smallDisk 1700000000) 5 .added
        "/r/d/a.txt").2 = .ok none := by
  exact ⟨⟨⟨_, stat_lockedDisk⟩, scan_lockedDisk, _, notices_directory rfl⟩,
    ⟨⟨_, (stat_smallDisk _).1⟩, fun _ hes => not_scanned_beyond_calendar hes, _,
      notices_directory rfl⟩, ⟨_, (stat_smallDisk _).2⟩, listed_smallDisk, scanned_misnamed,
    not_noticed_misnamed⟩

end Small

end Watch

end LiveIndex
