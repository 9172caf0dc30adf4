import LiveIndex.Proofs.Index.Answering
import LiveIndex.Proofs.Index.Notices

/-! What a removal takes and what it leaves. The entries and the finder lose the same paths and
keep the order of the others; the answer, the counters and the version go by what is gone. -/

namespace LiveIndex.Index

open Session (Owes Unmoved owes_publish unmoved_publish)

variable {options : Options} {s : Index}

/-- The entries that the removal of a path takes along, in their order. -/
def taken (s : Index) (path : String) : OrderedMap String Entry :=
  s.entries.filter fun p _ => s.Takes path p

theorem get?_taken {path p : String} {x : Entry} :
    (s.taken path).get? p = some x ↔ s.entries.get? p = some x ∧ s.Takes path p := by
  rw [taken, OrderedMap.get?_filter, Option.filter_eq_some_iff, decide_eq_true_iff]

-- A name that only begins like that of the directory is not in it.
example : (((create .default).upsertAll
      [ oldEntry "/r/d" "d" "d" .directory, oldEntry "/r/dx" "dx" "dx" .file,
        oldEntry "/r/d/a" "a" "d/a" .file ]).1.taken "/r/d").keys = ["/r/d", "/r/d/a"] := rfl

theorem mem_family_iff (hs : s.Consistent) {path : String} {x : Entry} :
    x ∈ s.family path ↔ s.entries.get? x.path = some x ∧ s.Takes path x.path := by
  constructor
  · intro hx
    have hfound := get?_of_mem_family hs hx
    exact ⟨hfound, (mem_paths_family hs hfound).mp (List.mem_map_of_mem hx)⟩
  · rintro ⟨hfound, htakes⟩
    obtain ⟨y, hy, hpath⟩ := List.mem_map.mp ((mem_paths_family hs hfound).mpr htakes)
    have hsame := get?_of_mem_family hs hy
    rw [hpath, hfound] at hsame
    rwa [Option.some.inj hsame]

/-- The family of a path is what its removal takes along, in another order. -/
theorem family_perm (hs : s.Consistent) (path : String) :
    (s.family path).Perm (s.taken path).values := by
  have hnames : ∀ p x, (s.taken path).get? p = some x → x.path = p := fun p x hx =>
    hs.keyed p x (get?_taken.mp hx).1
  refine (List.perm_ext_iff_of_nodup (nodup_paths_family hs path).of_map
    (OrderedMap.nodup_map_values hnames).of_map).mpr fun x => ?_
  rw [mem_family_iff hs, OrderedMap.mem_values_iff]
  constructor
  · exact fun hx => ⟨x.path, get?_taken.mpr hx⟩
  · rintro ⟨p, hp⟩
    rw [hnames p x hp]
    exact get?_taken.mp hp

theorem length_family (hs : s.Consistent) (path : String) :
    (s.family path).length = (s.taken path).size := by
  rw [(family_perm hs path).length_eq, OrderedMap.values, List.length_map]
  rfl

/-- The counters go down by the shares of what is gone. -/
theorem counters_removeFamily (hs : s.Consistent) (path : String) :
    (s.removeFamily path).1.stats.counters =
      s.stats.counters - (s.taken path).total Entry.share := by
  have hsplit := OrderedMap.total_filter Entry.share s.entries fun p _ => s.Takes path p
  rw [(consistent_removeFamily hs path).counted, hs.counted, entries_removeFamily, ← hsplit]
  exact (add_sub_cancel_left ..).symm

/-- Where only stored entries are looked for, the paths of a family are those that its removal takes
along. -/
theorem filter_family (hs : s.Consistent) (path : String) {m : OrderedMap String Entry}
    (hm : ∀ p x, m.get? p = some x → s.entries.get? p = some x) :
    (m.filter fun p _ => decide (p ∉ (s.family path).map Entry.path)) =
      m.filter fun p _ => !decide (s.Takes path p) := by
  apply OrderedMap.ext_items
  refine List.filter_congr fun kv hkv => ?_
  have hfamily : kv.1 ∈ (s.family path).map Entry.path ↔ s.Takes path kv.1 :=
    mem_paths_family hs (hm kv.1 kv.2 (OrderedMap.get?_of_mem hkv))
  rw [Bool.eq_iff_iff]
  simp [hfamily]

/-- The finder loses what the entries lose, be it there already or made for the purpose. -/
theorem currentFinder_removeFamily (h : s.InStep options) (path : String) :
    (s.removeFamily path).1.currentFinder.entries =
      s.currentFinder.entries.filter fun p _ => !decide (s.Takes path p) := by
  cases he : s.entries.get? path with
  | none =>
    have hsame : (s.removeFamily path).1 = s := by simp only [removeFamily, he]
    rw [hsame]
    exact (filter_of_absent he _).symm
  | some e =>
    obtain ⟨u, hentries, hoptions, hfinder, hstep⟩ := exists_told he
    have hmade : (s.removeFamily path).1.currentFinder.entries =
        u.currentFinder.entries.filter fun p _ =>
          decide (p ∉ (s.family path).map Entry.path) := by
      rw [hstep]
      exact Matching.Finder.entries_foldl_remove ..
    rw [hmade]
    cases hs : s.finder with
    | some f =>
      have hcurrent : s.currentFinder = f := by
        rw [currentFinder, hs]
        rfl
      have hsame : u.currentFinder = f := by
        rw [currentFinder, hfinder, hs]
        rfl
      rw [hcurrent, hsame]
      refine filter_family h.toConsistent path fun p x hx => ?_
      rw [(h.mirrored f hs).found, get?_searchable] at hx
      exact (Option.filter_eq_some_iff.mp hx).1
    | none =>
      have hkeyed : ∀ p x, u.entries.get? p = some x → x.path = p := by
        rw [hentries]
        exact (consistent_removeFamily h.toConsistent path).keyed
      have hcurrent : s.currentFinder.entries = s.searchable := by
        rw [currentFinder, hs]
        exact entries_freshFinder h.keyed
      have hmade : u.currentFinder.entries = u.searchable := by
        rw [currentFinder, hfinder, hs]
        exact entries_freshFinder hkeyed
      -- It is made from what is left, in which nothing more is to be taken out.
      have hleft : u.searchable = s.searchable.filter fun p _ => !decide (s.Takes path p) := by
        apply OrderedMap.ext_items
        rw [searchable, hentries, entries_removeFamily, isCandidate_congr hoptions]
        exact List.filter_comm ..
      rw [hcurrent, hmade, hleft, filter_family h.toConsistent path]
      · apply OrderedMap.ext_items
        exact List.filter_eq_self.mpr fun kv hkv => (List.mem_filter.mp hkv).2
      · intro p x hx
        rw [OrderedMap.get?_filter, Option.filter_eq_some_iff, get?_searchable,
          Option.filter_eq_some_iff] at hx
        exact hx.1.1

/-- A removal changes what is held by its family alone; the version counts it if that is anything,
and the size of the family is the answer. -/
theorem beginRemove_spec (s : Index) (now : Int) (path : String) :
    Owes (.count (s.family path).length) (s.beginRemove now path).turn ∧
      SameStock (s.removeFamily path).1 (s.beginRemove now path).state ∧
      (s.beginRemove now path).state.version =
        s.version + if (s.family path).isEmpty then 0 else 1 := by
  have hversion : (s.removeFamily path).1.version = s.version := by
    unfold removeFamily
    split <;> rfl
  rw [← removed_eq_family, ← hversion]
  unfold beginRemove
  generalize s.removeFamily path = left
  obtain ⟨i, removed⟩ := left
  dsimp only
  split
  · next hempty =>
    obtain rfl := List.isEmpty_iff.mp hempty
    exact ⟨.answers, ⟨⟨rfl, rfl⟩, rfl, rfl⟩, (add_zero _).symm⟩
  · have hanswer : (AfterSave.count removed.length).answer? = some (.count removed.length) := rfl
    have hmoved := unmoved_publish hanswer i now (removed.map fun e => ⟨.remove, e.path, none⟩)
    have hbumped : SameStock i (i.bump now) := ⟨⟨rfl, rfl⟩, rfl, rfl⟩
    exact ⟨owes_publish hanswer .., hbumped.trans hmoved.toSameStock, hmoved.version⟩

namespace Session

/-- In whatever state an index is, the removal of a path takes the entry of that path and, if that
is a directory, every entry whose path begins with the path, slashes at its end aside, and one slash
more. The other entries stay as they are and in their order, among the entries and in the finder.
The counters go down by the shares of what is gone, the version goes up by one if that is anything,
and its number is the answer. -/
theorem removal_takes_family (options : Options) (file : Except Failure Content)
    (before : List Action) (now : Int) (path : String) :
    let s := (fresh options file).run before
    let t := s.step (.begin now (.remove path))
    let gone := s.index.taken path
    let left := fun (p : String) (_ : Entry) => !decide (s.index.Takes path p)
    t.index.entries = s.index.entries.filter left ∧
      t.index.currentFinder.entries = s.index.currentFinder.entries.filter left ∧
      t.index.stats.counters = s.index.stats.counters - gone.total Entry.share ∧
      t.index.version = s.index.version + (if gone.isEmpty then 0 else 1) ∧
      t.Resolves s.nextId (.count gone.size) := by
  intro s t gone left
  have hs : s.index.InStep options :=
    (inStep_create options).edits (run_edits (fresh options file) before)
  obtain ⟨howes, hstock, hversion⟩ := beginRemove_spec s.index now path
  have hmoved : Unmoved (s.index.beginRemove now path).state t.index :=
    unmoved_settle { s with nextId := s.nextId + 1 } s.nextId none howes
  have hsame : SameStock (s.index.removeFamily path).1 t.index := hstock.trans hmoved.toSameStock
  have hsize : (s.index.family path).length = gone.size := length_family hs.toConsistent path
  have hempty : (s.index.family path).isEmpty = gone.isEmpty := by
    rw [Bool.eq_iff_iff, List.isEmpty_iff_length_eq_zero, hsize]
    exact List.isEmpty_iff_length_eq_zero.symm
  refine ⟨?_, ?_, ?_, ?_, ?_⟩
  · rw [hsame.entries, entries_removeFamily]
  · rw [hsame.currentFinder, currentFinder_removeFamily hs]
  · rw [hsame.counters, counters_removeFamily hs.toConsistent]
  · rw [hmoved.version, hversion, hempty]
  · rw [← hsize]
    exact resolves_begin options file before now howes

end Session

end LiveIndex.Index
