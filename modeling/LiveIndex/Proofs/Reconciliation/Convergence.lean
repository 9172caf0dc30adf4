import LiveIndex.Proofs.Disk.Walk
import LiveIndex.Proofs.Reconciliation.Session

/-! A reconciliation brings an index and a disk together. Its upserts are the entries that are
fresh or stale, and no removal takes one of them along, since with a path the disk has all the
directories above it. -/

namespace LiveIndex.Reconciliation

open Index (Moment oldEntry smallIndex)

/-- What an index should hold of a path that is on disk: what it has, unless that is outdated. -/
def renewed (old : Option Entry) (current : Entry) : Entry :=
  match old with
  | some old => if old.isOutdated current then current else old
  | none => current

/-- What fits the disk once goes on to fit it. -/
theorem renewed_fits (old : Option Entry) (current : Entry) :
    (renewed old current).isOutdated current = false := by
  unfold renewed
  split
  · split
    · exact current.isOutdated_self
    · next houtdated => exact Bool.eq_false_iff.mpr houtdated
  · exact current.isOutdated_self

/-- The entries of a disk stand under their paths. -/
def Keyed (disk : OrderedMap String Entry) : Prop :=
  ∀ p e, disk.get? p = some e → e.path = p

namespace Plan

variable {disk indexed : OrderedMap String Entry}

theorem get?_fresh (p : String) (e : Entry) :
    (disk.filter fun p _ => !indexed.contains p).get? p = some e ↔
      disk.get? p = some e ∧ indexed.get? p = none := by
  rw [OrderedMap.get?_filter, Option.filter_eq_some_iff, OrderedMap.contains_eq_isSome,
    Bool.not_eq_true', Option.isSome_eq_false_iff, Option.isNone_iff_eq_none]

theorem get?_stale (p : String) (e : Entry) :
    (disk.filter fun p current =>
      match indexed.get? p with
      | some old => old.isOutdated current
      | none => false).get? p = some e ↔
      disk.get? p = some e ∧ ∃ old, indexed.get? p = some old ∧ old.isOutdated e = true := by
  rw [OrderedMap.get?_filter, Option.filter_eq_some_iff]
  cases indexed.get? p <;> simp

theorem mem_fresh_iff (hdisk : Keyed disk) {e : Entry} : e ∈ (between disk indexed).fresh ↔
    disk.get? e.path = some e ∧ indexed.get? e.path = none := by
  refine OrderedMap.mem_values_iff.trans ⟨?_, fun h => ⟨e.path, (get?_fresh ..).mpr h⟩⟩
  rintro ⟨p, hp⟩
  have hboth := (get?_fresh ..).mp hp
  rw [hdisk p e hboth.1]
  exact hboth

theorem mem_stale_iff (hdisk : Keyed disk) {e : Entry} : e ∈ (between disk indexed).stale ↔
    disk.get? e.path = some e ∧
      ∃ old, indexed.get? e.path = some old ∧ old.isOutdated e = true := by
  refine OrderedMap.mem_values_iff.trans ⟨?_, fun h => ⟨e.path, (get?_stale ..).mpr h⟩⟩
  rintro ⟨p, hp⟩
  have hboth := (get?_stale ..).mp hp
  rw [hdisk p e hboth.1]
  exact hboth

theorem mem_gone_iff {p : String} : p ∈ (between disk indexed).gone ↔
    indexed.contains p = true ∧ disk.contains p = false := by
  refine List.mem_mergeSort.trans ?_
  simp [OrderedMap.keys, OrderedMap.filter, OrderedMap.contains]

theorem perm_upserts : (between disk indexed).upserts.Perm
    ((between disk indexed).fresh ++ (between disk indexed).stale) :=
  List.mergeSort_perm ..

theorem mem_upserts_iff {e : Entry} : e ∈ (between disk indexed).upserts ↔
    e ∈ (between disk indexed).fresh ∨ e ∈ (between disk indexed).stale :=
  perm_upserts.mem_iff.trans List.mem_append

/-- No path is stored twice: one that is fresh is not stale. -/
theorem nodup_upserts (hdisk : Keyed disk) :
    ((between disk indexed).upserts.map Entry.path).Nodup := by
  rw [(perm_upserts.map Entry.path).nodup_iff, List.map_append, List.nodup_append]
  refine ⟨?_, ?_, ?_⟩
  · exact OrderedMap.nodup_map_values fun p e h => hdisk p e ((get?_fresh ..).mp h).1
  · exact OrderedMap.nodup_map_values fun p e h => hdisk p e ((get?_stale ..).mp h).1
  · intro p hfresh q hstale
    obtain ⟨e, he, rfl⟩ := List.mem_map.mp hfresh
    obtain ⟨e', he', rfl⟩ := List.mem_map.mp hstale
    obtain ⟨-, hnone⟩ := (mem_fresh_iff hdisk).mp he
    obtain ⟨-, old, hold, -⟩ := (mem_stale_iff hdisk).mp he'
    intro hpath
    rw [hpath, hold] at hnone
    cases hnone

/-- All that is fresh is added, and all that is stale is updated. -/
theorem summary_upserts (hdisk : Keyed disk) {s : Index} (hs : s.entries = indexed) :
    (s.upsertAll (between disk indexed).upserts).2.1.added =
        (between disk indexed).fresh.length ∧
      (s.upsertAll (between disk indexed).upserts).2.1.updated =
        (between disk indexed).stale.length := by
  obtain ⟨hadded, hupdated⟩ := Index.summary_upsertAll (s := s) (nodup_upserts hdisk)
  rw [hs, perm_upserts.countP_eq, List.countP_append] at hadded hupdated
  have hfresh : ∀ e ∈ (between disk indexed).fresh, indexed.get? e.path = none :=
    fun e he => ((mem_fresh_iff hdisk).mp he).2
  have hstale : ∀ e ∈ (between disk indexed).stale,
      ∃ old, indexed.get? e.path = some old ∧ old.isOutdated e = true :=
    fun e he => ((mem_stale_iff hdisk).mp he).2
  constructor
  · rw [hadded, List.countP_eq_length.mpr, List.countP_eq_zero.mpr, Nat.add_zero]
    · intro e he
      obtain ⟨old, hold, -⟩ := hstale e he
      rw [hold]
      exact Bool.false_ne_true
    · intro e he
      rw [hfresh e he]
      rfl
  · rw [hupdated, List.countP_eq_zero.mpr, List.countP_eq_length.mpr, Nat.zero_add]
    · intro e he
      obtain ⟨old, hold, houtdated⟩ := hstale e he
      rw [hold, Option.any_some, Entry.not_same_of_isOutdated houtdated]
      rfl
    · intro e he
      rw [hfresh e he]
      exact Bool.false_ne_true

/-- After the upserts all that is on disk is indexed and fits. -/
theorem get?_upserts (hdisk : Keyed disk) {s : Index} (hs : s.entries = indexed) (p : String) :
    (s.upsertAll (between disk indexed).upserts).1.entries.get? p =
      match disk.get? p with
      | some e => some (renewed (indexed.get? p) e)
      | none => indexed.get? p := by
  by_cases hp : p ∈ (between disk indexed).upserts.map Entry.path
  · obtain ⟨e, he, rfl⟩ := List.mem_map.mp hp
    rw [Index.get?_upsertAll_of_mem (nodup_upserts hdisk) he, hs]
    rcases mem_upserts_iff.mp he with hfresh | hstale
    · obtain ⟨hentry, hnone⟩ := (mem_fresh_iff hdisk).mp hfresh
      rw [hentry, hnone]
      rfl
    · obtain ⟨hentry, old, hold, houtdated⟩ := (mem_stale_iff hdisk).mp hstale
      have hsame := Entry.not_same_of_isOutdated houtdated
      rw [hentry, hold]
      simp [Index.settled, renewed, hsame, houtdated]
  · rw [Index.get?_upsertAll_of_notMem hp, hs]
    cases hentry : disk.get? p with
    | none => rfl
    | some e =>
      obtain rfl := hdisk p e hentry
      have hneither : ¬(e ∈ (between disk indexed).fresh ∨ e ∈ (between disk indexed).stale) :=
        fun h => hp (List.mem_map_of_mem (mem_upserts_iff.mpr h))
      rw [mem_fresh_iff hdisk, mem_stale_iff hdisk, not_or] at hneither
      cases hold : indexed.get? e.path with
      | none => exact absurd ⟨hentry, hold⟩ hneither.1
      | some old =>
        have hfits : old.isOutdated e = false := by
          rw [Bool.eq_false_iff]
          exact fun houtdated => hneither.2 ⟨hentry, old, hold, houtdated⟩
        simp [renewed, hfits]

/-- Removing what is gone spares all that is on disk, if with a path the disk has everything above
it that is indexed. -/
theorem get?_removeAll_gone (hdisk : Keyed disk)
    (hclosed : ∀ p q, disk.contains p = true → indexed.contains q = true →
      Path.isBeneath q p = true → disk.contains q = true)
    {s : Index} (hs : s.entries = indexed) (p : String) :
    ((s.upsertAll (between disk indexed).upserts).1.removeAll
        (between disk indexed).gone).entries.get? p =
      (disk.get? p).map (renewed (indexed.get? p)) := by
  have hstored := get?_upserts hdisk hs
  cases hp : disk.get? p with
  | some e =>
    rw [Index.get?_removeAll_of_not_takes, hstored, hp]
    · rfl
    · rintro path hpath ⟨e', -, rfl | ⟨-, hbeneath⟩⟩
      · -- What is on disk is not gone.
        obtain ⟨-, habsent⟩ := mem_gone_iff.mp hpath
        rw [OrderedMap.contains_eq_isSome, hp] at habsent
        cases habsent
      · obtain ⟨hindexed, habsent⟩ := mem_gone_iff.mp hpath
        have hpresent : disk.contains p = true := by
          rw [OrderedMap.contains_eq_isSome, hp]
          rfl
        rw [hclosed p path hpresent hindexed hbeneath] at habsent
        cases habsent
  | none =>
    have hkept := hstored p
    rw [hp] at hkept
    cases hold : indexed.get? p with
    | some old =>
      -- It is gone, and its own removal takes it.
      refine Index.get?_removeAll_of_takes ⟨p, mem_gone_iff.mpr ⟨?_, ?_⟩, old, ?_, .inl rfl⟩
      · rw [OrderedMap.contains_eq_isSome, hold]
        rfl
      · rw [OrderedMap.contains_eq_isSome, hp]
        rfl
      · rw [hkept, hold]
    | none =>
      rw [hold] at hkept
      exact Index.get?_removeAll_of_absent hkept

/-- A directory that is not on disk takes all that is beneath it along, what is on disk as well. -/
theorem get?_swept (hdisk : Keyed disk) {s : Index} (hs : s.entries = indexed) {q : String}
    {e : Entry} (he : indexed.get? q = some e) (hdirectory : e.isDirectory = true)
    (hq : disk.get? q = none) {p : String} (habove : Path.isBeneath q p = true) :
    ((s.upsertAll (between disk indexed).upserts).1.removeAll
        (between disk indexed).gone).entries.get? p = none := by
  have hgone : q ∈ (between disk indexed).gone := by
    rw [mem_gone_iff, OrderedMap.contains_eq_isSome, OrderedMap.contains_eq_isSome, he, hq]
    exact ⟨rfl, rfl⟩
  have hkept := get?_upserts hdisk hs q
  rw [hq, he] at hkept
  exact Index.get?_removeAll_of_takes ⟨q, hgone, e, hkept, .inr ⟨hdirectory, habove⟩⟩

/-- There is nothing to change in an index that holds what is on disk and fits it. -/
theorem total_eq_zero (hdisk : Keyed disk)
    (hfits : ∀ p, ∃ old, indexed.get? p = (disk.get? p).map (renewed old)) :
    (between disk indexed).total = 0 := by
  have hfresh : (between disk indexed).fresh = [] := by
    refine List.eq_nil_iff_forall_not_mem.mpr fun e he => ?_
    obtain ⟨hentry, hnone⟩ := (mem_fresh_iff hdisk).mp he
    obtain ⟨old, hold⟩ := hfits e.path
    rw [hnone, hentry] at hold
    cases hold
  have hstale : (between disk indexed).stale = [] := by
    refine List.eq_nil_iff_forall_not_mem.mpr fun e he => ?_
    obtain ⟨hentry, held, hheld, houtdated⟩ := (mem_stale_iff hdisk).mp he
    obtain ⟨old, hold⟩ := hfits e.path
    rw [hheld, hentry] at hold
    cases hold
    rw [renewed_fits] at houtdated
    cases houtdated
  have hgone : (between disk indexed).gone = [] := by
    refine List.eq_nil_iff_forall_not_mem.mpr fun p hp => ?_
    obtain ⟨hindexed, habsent⟩ := mem_gone_iff.mp hp
    obtain ⟨old, hold⟩ := hfits p
    rw [OrderedMap.contains_eq_isSome, hold, Option.isSome_map, ← OrderedMap.contains_eq_isSome,
      habsent] at hindexed
    cases hindexed
  rw [total, hfresh, hstale, hgone]
  rfl

theorem length_fresh :
    (between disk indexed).fresh.length = (disk.filter fun p _ => !indexed.contains p).size :=
  List.length_map ..

theorem length_gone :
    (between disk indexed).gone.length = (indexed.filter fun p _ => !disk.contains p).size :=
  (List.length_mergeSort _).trans (List.length_map ..)

theorem length_stale : (between disk indexed).stale.length =
    (disk.filter fun p e => (indexed.get? p).any (·.isOutdated e)).size := by
  have houtdated : (fun p (e : Entry) => (indexed.get? p).any (·.isOutdated e)) =
      fun p current =>
        match indexed.get? p with
        | some old => old.isOutdated current
        | none => false := by
    funext p e
    cases indexed.get? p <;> rfl
  rw [houtdated]
  exact List.length_map ..

theorem length_gone_le : (between disk indexed).gone.length ≤ indexed.size := by
  rw [length_gone]
  exact List.length_filter_le ..

end Plan

/-- A reconciliation that nothing else goes on beside leaves indexed exactly what is on disk below
the root. What was not indexed or is outdated holds its entry on disk, and everything else keeps
the one that it had. The counts are those of the paths that were added, gone and outdated, without
an error, and a second reconciliation finds nothing to do. The metadata of what the walk finds has
to be readable, with times in the calendar. -/
theorem index_fits_disk {d : Disk} {f : Filter} {root : String} (hd : d.tree.Named)
    (hdated : ∀ p ∈ d.walk f true root, d.Dated p) {base : Index.Session} (hidle : base.Idle)
    (hinside : ∀ p, base.index.entries.contains p = true → Path.Inside root p)
    {moments later : List Moment} (hmoments : ∀ m ∈ moments ++ later, m.Bearable)
    (hlength : base.index.entries.size + 2 ≤ moments.length) (hlater : 2 ≤ later.length) :
    let indexed := base.index.entries
    let t := (Session.start base).run d f root moments
    let again := (Session.start t.base).run d f root later
    ∃ disk, d.inventory f root = .ok disk ∧
      (∀ p, t.base.index.entries.contains p = disk.contains p) ∧
      (∀ p e, disk.get? p = some e →
        t.base.index.entries.get? p = some (renewed (indexed.get? p) e)) ∧
      t.turn = .done (.ok {
        added := (disk.filter fun p _ => !indexed.contains p).size
        deleted := (indexed.filter fun p _ => !disk.contains p).size
        updated := (disk.filter fun p e => (indexed.get? p).any (·.isOutdated e)).size
        errors := 0 }) ∧
      again.turn = .done (.ok .zero) ∧ again.base = t.base := by
  intro indexed t again
  obtain ⟨disk, hinventory, hget⟩ := Disk.inventory_of_dated hd hdated
  have hdisk : Keyed disk := fun p e h => Disk.path_of_entry ((hget p e).mp h).2
  have hwalk (p : String) : disk.contains p = true ↔ p ∈ d.walk f true root := by
    rw [OrderedMap.contains_eq_isSome, Option.isSome_iff_exists]
    refine ⟨fun ⟨e, he⟩ => ((hget p e).mp he).1, fun hp => ?_⟩
    obtain ⟨e, he⟩ := (hdated p hp).entry (Disk.ne_empty_of_mem_walk hd hp) root
    exact ⟨e, (hget p e).mpr ⟨hp, he⟩⟩
  have hclosed : ∀ p q, disk.contains p = true → indexed.contains q = true →
      Path.isBeneath q p = true → disk.contains q = true := by
    intro p q hp hq habove
    exact (hwalk q).mpr (Disk.walk_closed hd ((hwalk p).mp hp) (hinside q hq) habove)
  have hgone : (Plan.between disk indexed).gone.length + 2 ≤ moments.length :=
    (Nat.add_le_add_right Plan.length_gone_le 2).trans hlength
  obtain ⟨hturn, hafter, hentries, -⟩ := Session.run_start hidle hinventory
    (fun m h => hmoments m (List.mem_append_left _ h)) hgone
  have hfits (p : String) : t.base.index.entries.get? p =
      (disk.get? p).map (renewed (indexed.get? p)) := by
    rw [hentries]
    exact Plan.get?_removeAll_gone hdisk hclosed rfl p
  refine ⟨disk, hinventory, ?_, ?_, ?_, ?_⟩
  · intro p
    rw [OrderedMap.contains_eq_isSome, hfits, Option.isSome_map, OrderedMap.contains_eq_isSome]
  · intro p e he
    rw [hfits, he]
    rfl
  · obtain ⟨hadded, hupdated⟩ := Plan.summary_upserts hdisk (s := base.index) rfl
    rw [hturn, hadded, hupdated, Plan.length_fresh, Plan.length_gone, Plan.length_stale]
  · have htotal : (Plan.between disk t.base.index.entries).total = 0 :=
      Plan.total_eq_zero hdisk fun p => ⟨indexed.get? p, hfits p⟩
    have hnothing := htotal
    unfold Plan.total at hnothing
    have hshort : (Plan.between disk t.base.index.entries).gone.length + 2 ≤ later.length := by
      omega
    obtain ⟨hdone, -, -, hsame⟩ := Session.run_start hafter hinventory
      (fun m h => hmoments m (List.mem_append_right _ h)) hshort
    obtain ⟨hadded, hupdated⟩ := Plan.summary_upserts hdisk (s := t.base.index) rfl
    refine ⟨?_, hsame htotal⟩
    rw [hdone, hadded, hupdated]
    have hzero : (Plan.between disk t.base.index.entries).fresh.length = 0 ∧
        (Plan.between disk t.base.index.entries).gone.length = 0 ∧
        (Plan.between disk t.base.index.entries).stale.length = 0 := by
      omega
    rw [hzero.1, hzero.2.1, hzero.2.2]
    rfl

/-- A root with a directory and a file in it; the time of the directory is given. -/
def smallDisk (modified : Rat) : Disk :=
  ⟨.dir [("r", .dir [("d", .dir [("a.txt", .file (.text "x"))])])],
    [("/r/d", { Mark.plain with modified })]⟩

theorem named_smallDisk (modified : Rat) : (smallDisk modified).tree.Named := by
  have hname : Path.IsName "r" ∧ Path.IsName "d" ∧ Path.IsName "a.txt" := by
    refine ⟨⟨by decide, by decide⟩, ⟨by decide, by decide⟩, ⟨by decide, by decide⟩⟩
  refine .dir _ (List.forall_mem_singleton.mpr hname.1) (List.forall_mem_singleton.mpr ?_)
  refine .dir _ (List.forall_mem_singleton.mpr hname.2.1) (List.forall_mem_singleton.mpr ?_)
  refine .dir _ (List.forall_mem_singleton.mpr hname.2.2) (List.forall_mem_singleton.mpr ?_)
  exact .file _

theorem find_smallDisk (modified : Rat) (follow : Bool) :
    (smallDisk modified).tree.find follow "/r" =
        .ok (["r"], .dir [("d", .dir [("a.txt", .file (.text "x"))])]) ∧
      (smallDisk modified).tree.find follow "/r/d" =
        .ok (["r", "d"], .dir [("a.txt", .file (.text "x"))]) ∧
      (smallDisk modified).tree.find follow "/r/d/a.txt" =
        .ok (["r", "d", "a.txt"], .file (.text "x")) := by
  have hroot : Text.split '/' "/r" = ["", "r"] := by decide
  have hdir : Text.split '/' "/r/d" = ["", "r", "d"] := by decide
  have hfile : Text.split '/' "/r/d/a.txt" = ["", "r", "d", "a.txt"] := by decide
  simp [smallDisk, Tree.find, hroot, hdir, hfile, Tree.locate, Tree.get?, Tree.child?, Tree.isDir]

theorem walk_smallDisk (modified : Rat) {f : Filter} (hnames : f.excluded = [])
    (hwanted : f.wantsExtension "/r/d/a.txt" = true) :
    (smallDisk modified).walk f true "/r" = ["/r/d", "/r/d/a.txt"] := by
  have hroot : ((smallDisk modified).markOf "/r").unreadable = false := rfl
  have hdir : ((smallDisk modified).markOf "/r/d").unreadable = false := rfl
  have hjoin : Path.join "/r" "d" = "/r/d" ∧ Path.join "/r/d" "a.txt" = "/r/d/a.txt" := by decide
  simp [Disk.walk, Disk.find, find_smallDisk, Disk.treePaths, Disk.childPaths, Disk.levelPaths,
    Disk.sortByName, Tree.isDir, Tree.isLink, hnames, hwanted, hroot, hdir, hjoin]

theorem stat_smallDisk (modified : Rat) :
    (smallDisk modified).stat "/r/d" = .ok ⟨.directory, 0, modified, 1700000000⟩ ∧
      (smallDisk modified).stat "/r/d/a.txt" = .ok ⟨.file, 1, 1700000000, 1700000000⟩ := by
  have hdir : (smallDisk modified).markOf "/r/d" = { Mark.plain with modified } := rfl
  have hfile : (smallDisk modified).markOf "/r/d/a.txt" = .plain := rfl
  have hsize : "x".utf8ByteSize = 1 := by decide
  simp [Disk.stat, Disk.peek, find_smallDisk, hdir, hfile, Mark.plain, Content.size, hsize]

theorem stampOf_plain : ∃ stamp, stampOf 1700000000 = .ok stamp := by
  cases h : stampOf 1700000000 with
  | ok stamp => exact ⟨stamp, rfl⟩
  | error failure =>
    have hok : (stampOf 1700000000).toBool = true := by decide +kernel
    rw [h] at hok
    cases hok

theorem dated_smallDisk {f : Filter} (hnames : f.excluded = [])
    (hwanted : f.wantsExtension "/r/d/a.txt" = true) :
    ∀ p ∈ (smallDisk 1700000000).walk f true "/r", (smallDisk 1700000000).Dated p := by
  obtain ⟨stamp, hstamp⟩ := stampOf_plain
  rw [walk_smallDisk 1700000000 hnames hwanted]
  intro p hp
  rw [List.mem_cons, List.mem_singleton] at hp
  rcases hp with rfl | rfl
  · exact ⟨_, stamp, stamp, (stat_smallDisk 1700000000).1, hstamp, hstamp⟩
  · exact ⟨_, stamp, stamp, (stat_smallDisk 1700000000).2, hstamp, hstamp⟩

theorem inside_smallIndex (p : String) (hp : smallIndex.index.entries.contains p = true) :
    Path.Inside "/r" p := by
  have hmem : smallIndex.index.entries.get? p ≠ none := by
    rwa [OrderedMap.contains_eq_isSome, Option.isSome_iff_ne_none] at hp
  rcases Index.paths_smallIndex hmem with rfl | rfl
  · exact ⟨by decide, "d", by decide, by decide, by decide⟩
  · exact ⟨by decide, "d/a.txt", by decide, by decide, by decide⟩

/-- The theorem applied to the index above and a disk whose times are all in the calendar. -/
theorem index_fits_disk_small :
    let d := smallDisk 1700000000
    let moments := List.replicate 4 (Moment.mk 0 (.ok ()))
    let t := (Session.start smallIndex).run d ⟨none, []⟩ "/r" moments
    ∃ disk, d.inventory ⟨none, []⟩ "/r" = .ok disk ∧
      (∀ p, t.base.index.entries.contains p = disk.contains p) ∧
      ((Session.start t.base).run d ⟨none, []⟩ "/r" moments).turn = .done (.ok .zero) := by
  intro d moments t
  have hdated : ∀ p ∈ d.walk ⟨none, []⟩ true "/r", d.Dated p := dated_smallDisk rfl rfl
  have hmoments : ∀ m ∈ moments ++ moments, m.Bearable :=
    fun m hm => Moment.bearable_of_mem_replicates hm
  have hlength : smallIndex.index.entries.size + 2 ≤ moments.length := by decide +kernel
  obtain ⟨disk, hinventory, hkeys, -, -, hagain, -⟩ :=
    index_fits_disk (named_smallDisk 1700000000) hdated Index.idle_smallIndex inside_smallIndex
      hmoments hlength (by decide)
  exact ⟨disk, hinventory, hkeys, hagain⟩

/-- The inventory passes over the directory if its time is like a failure of the disk. -/
theorem inventory_smallDisk {modified : Rat} {failure : Failure}
    (htime : stampOf modified = .error failure) (hfamily : failure.family = .system) :
    ∃ e : Entry, e.path = "/r/d/a.txt" ∧
      (smallDisk modified).inventory ⟨none, []⟩ "/r" = .ok (.ofList [(e.path, e)]) := by
  obtain ⟨stamp, hstamp⟩ := stampOf_plain
  obtain ⟨r, hr⟩ := Disk.relativeTo_ok (p := "/r/d") (by decide) "/r"
  obtain ⟨hdir, hfile⟩ := stat_smallDisk modified
  have hpassed : (smallDisk modified).entry "/r/d" "/r" = .error failure := by
    simp only [Disk.entry, hdir, Stat.entry, hr, hstamp, htime, bind, Except.bind]
  have hdated : (smallDisk modified).Dated "/r/d/a.txt" :=
    ⟨⟨.file, 1, 1700000000, 1700000000⟩, stamp, stamp, hfile, hstamp, hstamp⟩
  obtain ⟨e, he⟩ := hdated.entry (by decide) "/r"
  refine ⟨e, Disk.path_of_entry he, ?_⟩
  simp only [Disk.inventory, Disk.scan, walk_smallDisk modified (f := ⟨none, []⟩) rfl rfl,
    Disk.entriesOf, hpassed, he, hfamily, if_true]
  rfl

/-- A time that is beyond the calendar is like a failure of the disk: the directory is passed over,
and what is in it is found all the same. A reconciliation removes it with the directory. -/
theorem live_entries_swept :
    ¬∀ (d : Disk) (f : Filter) (root : String) (base : Index.Session) (moments : List Moment),
      Path.isAbsolute root = true → Path.normal root = root → d.tree.Named →
      (∀ p ∈ d.walk f true root, ∃ st, d.stat p = .ok st) → base.Idle →
      (∀ p, base.index.entries.contains p = true → Path.Inside root p) →
      (∀ m ∈ moments, m.Bearable) → base.index.entries.size + 2 ≤ moments.length →
      ∃ disk, d.inventory f root = .ok disk ∧
        ∀ p, ((Session.start base).run d f root moments).base.index.entries.contains p =
          disk.contains p := by
  intro hclaim
  obtain ⟨modified, failure, htime, hfamily⟩ : ∃ modified failure,
      stampOf modified = .error failure ∧ failure.family = .system :=
    ⟨100000000000000000, .time .beyondCalendar, by decide +kernel, rfl⟩
  obtain ⟨e, hpath, hinventory⟩ := inventory_smallDisk htime hfamily
  have hstat : ∀ p ∈ (smallDisk modified).walk ⟨none, []⟩ true "/r",
      ∃ st, (smallDisk modified).stat p = .ok st := by
    rw [walk_smallDisk modified rfl rfl]
    intro p hp
    rw [List.mem_cons, List.mem_singleton] at hp
    rcases hp with rfl | rfl
    · exact ⟨_, (stat_smallDisk modified).1⟩
    · exact ⟨_, (stat_smallDisk modified).2⟩
  have hmoments : ∀ m ∈ List.replicate 4 (Moment.mk 0 (.ok ())), m.Bearable :=
    fun m hm => Moment.bearable_of_mem_replicate hm
  have hlength : smallIndex.index.entries.size + 2 ≤
      (List.replicate 4 (Moment.mk 0 (.ok ()))).length := by decide +kernel
  obtain ⟨disk, hdisk, hkeys⟩ := hclaim (smallDisk modified) ⟨none, []⟩ "/r" smallIndex
    (List.replicate 4 ⟨0, .ok ()⟩) (by decide) (by decide) (named_smallDisk modified) hstat
    Index.idle_smallIndex inside_smallIndex hmoments hlength
  obtain rfl : OrderedMap.ofList [(e.path, e)] = disk := Except.ok.inj (hinventory.symm.trans hdisk)
  have hkeyed : Keyed (.ofList [(e.path, e)]) := by
    intro p e' he'
    have hmem := OrderedMap.mem_of_get? he'
    cases List.mem_singleton.mp hmem
    rfl
  have habsent : (OrderedMap.ofList [(e.path, e)]).get? "/r/d" = none := by
    rw [hpath]
    rfl
  have hpresent : (OrderedMap.ofList [(e.path, e)]).contains "/r/d/a.txt" = true := by
    rw [hpath]
    rfl
  -- The directory is indexed, so its removal sweeps the file away.
  obtain ⟨-, -, hentries, -⟩ := Session.run_start Index.idle_smallIndex hinventory hmoments
    ((Nat.add_le_add_right Plan.length_gone_le 2).trans hlength)
  have hswept := Plan.get?_swept hkeyed (s := smallIndex.index) rfl
    (e := oldEntry "/r/d" "d" "d" .directory) rfl rfl habsent (p := "/r/d/a.txt") (by decide)
  have hkey := hkeys "/r/d/a.txt"
  rw [OrderedMap.contains_eq_isSome, hentries, hswept, hpresent] at hkey
  cases hkey

end LiveIndex.Reconciliation
