import LiveIndex.Proofs.Index.Alone

/-! The finder in step with the entries. It is a second map of the entries, which is made when it is
needed and changed along with the first one after that. Whatever is done to an index, the finder has
the entries that a search may come upon, and no others. -/

namespace LiveIndex

namespace Matching.Finder

theorem entries_foldl_remove (f : Finder) (removed : List Entry) :
    (removed.foldl (fun f e => f.remove e.path) f).entries =
      f.entries.filter fun p _ => decide (p ∉ removed.map Entry.path) := by
  rw [← OrderedMap.foldl_erase]
  exact (List.foldl_hom Finder.entries fun _ _ => rfl).symm

end Matching.Finder

namespace Index

/-- The entries that a search may come upon, by path and in their order. -/
def searchable (s : Index) : OrderedMap String Entry :=
  s.entries.filter fun _ e => s.isCandidate e

/-- A map has what a search may come upon; where that is everything, it has it in the order of the
entries. -/
structure Mirrors (s : Index) (m : OrderedMap String Entry) : Prop where
  found : ∀ p, m.get? p = s.searchable.get? p
  ordered : s.options.includeDirectories = true → m = s.entries

/-- Every entry stands under its own path, and the finder, if there is one, has what a search may
come upon. The settings are as they were at first. -/
structure InStep (options : Options) (s : Index) : Prop extends s.Consistent where
  options : s.options = options
  mirrored : ∀ f, s.finder = some f → s.Mirrors f.entries

variable {options : Options} {s t : Index}

theorem searchable_of_all (h : s.options.includeDirectories = true) : s.searchable = s.entries := by
  apply OrderedMap.ext_items
  apply List.filter_eq_self.mpr
  intro kv _
  dsimp only
  rw [isCandidate, h, Bool.true_or]

theorem get?_searchable (s : Index) (p : String) :
    s.searchable.get? p = (s.entries.get? p).filter s.isCandidate :=
  OrderedMap.get?_filter ..

theorem mirrors_searchable (s : Index) : s.Mirrors s.searchable :=
  ⟨fun _ => rfl, searchable_of_all⟩

/-- A finder that is made anew has what a search may come upon. -/
theorem entries_freshFinder (hkeyed : ∀ p e, s.entries.get? p = some e → e.path = p) :
    s.freshFinder.entries = s.searchable := by
  have hvalues : s.candidates = s.searchable.values := by
    rw [candidates, OrderedMap.values, OrderedMap.values, List.filter_map]
    rfl
  have hnames : ∀ p e, s.searchable.get? p = some e → e.path = p := by
    intro p e he
    rw [get?_searchable] at he
    exact hkeyed p e (Option.filter_eq_some_iff.mp he).1
  rw [freshFinder, Matching.Finder.setEntries]
  dsimp only
  rw [hvalues]
  exact OrderedMap.ofList_values hnames

/-- The finder that a search gets, be it there or made for the purpose. -/
theorem InStep.currentFinder (h : s.InStep options) : s.Mirrors s.currentFinder.entries := by
  cases hfinder : s.finder with
  | none =>
    have hcurrent : s.currentFinder = s.freshFinder := by
      rw [Index.currentFinder, hfinder]
      rfl
    rw [hcurrent, entries_freshFinder h.keyed]
    exact s.mirrors_searchable
  | some f =>
    have hcurrent : s.currentFinder = f := by
      rw [Index.currentFinder, hfinder]
      rfl
    rw [hcurrent]
    exact h.mirrored f hfinder

/-- The map that the finder has in the middle of a change, when the entries have changed and it is
still to be told. -/
theorem currentFinder_between (h : s.InStep options)
    (ht : ∀ p e, t.entries.get? p = some e → e.path = p) (hfinder : t.finder = s.finder) :
    s.Mirrors t.currentFinder.entries ∨ t.Mirrors t.currentFinder.entries := by
  cases hs : s.finder with
  | none =>
    -- It is made from the entries as they are now.
    right
    have hcurrent : t.currentFinder = t.freshFinder := by
      rw [Index.currentFinder, hfinder, hs]
      rfl
    rw [hcurrent, entries_freshFinder ht]
    exact t.mirrors_searchable
  | some f =>
    left
    have hcurrent : t.currentFinder = f := by
      rw [Index.currentFinder, hfinder, hs]
      rfl
    rw [hcurrent]
    exact h.mirrored f hs

theorem InStep.of_none (ht : t.Consistent) (hoptions : t.options = options)
    (hnone : t.finder = none) : t.InStep options := by
  refine ⟨ht, hoptions, ?_⟩
  intro f hf
  rw [hnone] at hf
  cases hf

theorem inStep_create (options : Options) : (create options).InStep options :=
  .of_none (consistent_create options) rfl rfl

theorem inStep_renewFinder (hs : s.Consistent) (hoptions : s.options = options) :
    s.renewFinder.InStep options := by
  refine ⟨hs.of_same ⟨rfl, rfl⟩, hoptions, ?_⟩
  intro f hf
  obtain rfl : s.freshFinder = f := Option.some.inj hf
  rw [entries_freshFinder hs.keyed]
  exact s.renewFinder.mirrors_searchable

/-- Storing an entry tells the finder of it, or takes from the finder what is no longer to be
found. -/
theorem InStep.store (h : s.InStep options) (e : Entry) : (s.store e).InStep options := by
  have hconsistent := consistent_store h.toConsistent e
  refine ⟨hconsistent, h.options, ?_⟩
  -- The state in which the finder is told.
  obtain ⟨t, ht, hentries, hoptions, hfinder⟩ : ∃ t : Index, s.store e = t.tellFinder e ∧
      t.entries = s.entries.insert e.path e ∧ t.options = s.options ∧ t.finder = s.finder :=
    ⟨_, rfl, rfl, rfl, rfl⟩
  have hkeyed : ∀ p e', t.entries.get? p = some e' → e'.path = p := by
    rw [ht] at hconsistent
    exact hconsistent.keyed
  have hother : ∀ p, e.path ≠ p → t.currentFinder.entries.get? p = t.searchable.get? p := by
    intro p hp
    rcases currentFinder_between h hkeyed hfinder with hm | hm
    · have hget : t.entries.get? p = s.entries.get? p := by
        rw [hentries, OrderedMap.get?_insert, if_neg hp]
      rw [hm.found, get?_searchable, get?_searchable, hget, isCandidate_congr hoptions]
    · exact hm.found p
  have hown : t.searchable.get? e.path = if t.isCandidate e then some e else none := by
    rw [get?_searchable, hentries, OrderedMap.get?_insert, if_pos rfl, Option.filter_some]
  rw [ht]
  intro f hf
  obtain rfl := Option.some.inj hf
  refine ⟨?_, ?_⟩
  · intro p
    change _ = t.searchable.get? p
    by_cases hp : e.path = p
    · subst hp
      rw [hown]
      split
      · exact (OrderedMap.get?_insert ..).trans (if_pos rfl)
      · exact (OrderedMap.get?_erase ..).trans (if_pos rfl)
    · split
      · exact (OrderedMap.get?_insert ..).trans ((if_neg hp).trans (hother p hp))
      · exact (OrderedMap.get?_erase ..).trans ((if_neg hp).trans (hother p hp))
  · intro hall
    change t.options.includeDirectories = true at hall
    change _ = t.entries
    have hwanted : t.isCandidate e = true := by rw [isCandidate, hall, Bool.true_or]
    rw [if_pos hwanted]
    change t.currentFinder.entries.insert e.path e = t.entries
    rcases currentFinder_between h hkeyed hfinder with hm | hm
    · rw [hm.ordered (by rw [← hoptions, hall]), hentries]
    · -- It has the entry already.
      rw [hm.ordered hall]
      apply OrderedMap.insert_of_get?
      rw [hentries, OrderedMap.get?_insert, if_pos rfl]

/-- The members of a family are the entries that the removal of its path takes along. -/
theorem mem_paths_family (hs : s.Consistent) {path p : String} {x : Entry}
    (hx : s.entries.get? p = some x) :
    p ∈ (s.family path).map Entry.path ↔ s.Takes path p := by
  cases he : s.entries.get? path with
  | none =>
    rw [family, he]
    exact iff_of_false List.not_mem_nil (not_takes_of_absent he p)
  | some e =>
    have hpath : e.path = path := hs.keyed path e he
    rw [takes_iff he, family, he]
    dsimp only
    split
    · next hdirectory =>
      rw [List.map_cons, List.mem_cons, hpath]
      apply or_congr_right'
      intro hne
      constructor
      · intro hmem
        obtain ⟨v, hv, hname⟩ := List.mem_map.mp hmem
        obtain ⟨k, hk⟩ := OrderedMap.mem_values_iff.mp hv
        rw [OrderedMap.get?_filter, Option.filter_eq_some_iff, OrderedMap.get?_erase] at hk
        obtain ⟨hfound, hbeneath⟩ := hk
        split at hfound
        · cases hfound
        · rw [← hname, hs.keyed k v hfound]
          exact ⟨hdirectory, hbeneath⟩
      · rintro ⟨-, hbeneath⟩
        refine List.mem_map.mpr ⟨x, OrderedMap.mem_values_iff.mpr ⟨p, ?_⟩, hs.keyed p x hx⟩
        rw [OrderedMap.get?_filter, OrderedMap.get?_erase, if_neg (Ne.symm hne), hx,
          Option.filter_some, if_pos hbeneath]
    · next hfile =>
      rw [List.map_singleton, List.mem_singleton, hpath]
      simp [hfile]

/-- A map that had what was to be found, or has what is left of it, has what is left when the paths
that are gone are taken out. -/
theorem mirrors_without {m : OrderedMap String Entry} (hm : s.Mirrors m ∨ t.Mirrors m)
    {gone : String → Bool} (hentries : t.entries = s.entries.filter fun p _ => !gone p)
    (hoptions : t.options = s.options) {paths : List String}
    (hpaths : ∀ p x, s.entries.get? p = some x → (p ∈ paths ↔ gone p = true)) :
    t.Mirrors (m.filter fun p _ => decide (p ∉ paths)) := by
  have hleft (p : String) : t.searchable.get? p =
      ((s.entries.get? p).filter fun _ => !gone p).filter s.isCandidate := by
    rw [get?_searchable, hentries, OrderedMap.get?_filter, isCandidate_congr hoptions]
  refine ⟨?_, ?_⟩
  · intro p
    rw [OrderedMap.get?_filter, hleft]
    cases hx : s.entries.get? p with
    | none =>
      have hnone : m.get? p = none := by
        rcases hm with hm | hm
        · rw [hm.found, get?_searchable, hx]
          rfl
        · rw [hm.found, hleft, hx]
          rfl
      rw [hnone]
      rfl
    | some x =>
      have hin := hpaths p x hx
      by_cases hp : gone p = true
      · rw [decide_eq_false (not_not.mpr (hin.mpr hp)), hp]
        simp
      · have hkept : m.get? p = (some x).filter s.isCandidate := by
          rcases hm with hm | hm
          · rw [hm.found, get?_searchable, hx]
          · rw [hm.found, hleft, hx]
            simp [hp]
        have hnot : p ∉ paths := fun hmem => hp (hin.mp hmem)
        rw [hkept, decide_eq_true hnot, Bool.eq_false_iff.mpr hp]
        simp
  · intro hall
    have hitems : ∀ kv ∈ s.entries.items, decide (kv.1 ∉ paths) = !gone kv.1 := by
      intro kv hkv
      have hin := hpaths kv.1 kv.2 (OrderedMap.get?_of_mem hkv)
      rw [Bool.eq_iff_iff, decide_eq_true_eq, Bool.not_eq_true', ← Bool.not_eq_true]
      exact not_congr hin
    apply OrderedMap.ext_items
    rw [hentries]
    rcases hm with hm | hm
    · rw [hm.ordered (by rw [← hoptions, hall])]
      exact List.filter_congr hitems
    · -- What is gone is not looked for again.
      rw [hm.ordered hall, hentries]
      apply List.filter_eq_self.mpr
      intro kv hkv
      obtain ⟨hkv, hkept⟩ := List.mem_filter.mp hkv
      exact (hitems kv hkv).trans hkept

/-- When the finder is told of a removal, the entries are what they will be. -/
theorem exists_told {path : String} {e : Entry} (he : s.entries.get? path = some e) :
    ∃ u : Index, u.entries = (s.removeFamily path).1.entries ∧ u.options = s.options ∧
      u.finder = s.finder ∧ (s.removeFamily path).1 = { u with
        stats := (s.family path).foldl (fun stats e => stats.apply e (-1)) u.stats
        finder := some ((s.family path).foldl (fun f e => f.remove e.path) u.currentFinder) } := by
  refine ⟨{ s with entries := (s.removeFamily path).1.entries }, rfl, rfl, rfl, ?_⟩
  simp only [removeFamily, he, dropAll]

/-- A removal takes from the finder what it takes from the entries. -/
theorem InStep.removeFamily (h : s.InStep options) (path : String) :
    (s.removeFamily path).1.InStep options := by
  have hconsistent := consistent_removeFamily h.toConsistent path
  have hleft := s.entries_removeFamily path
  cases he : s.entries.get? path with
  | none =>
    have hsame : (s.removeFamily path).1 = s := by simp only [Index.removeFamily, he]
    rw [hsame]
    exact h
  | some e =>
    obtain ⟨u, -, hoptions, hfinder, hstep⟩ := exists_told he
    rw [hstep] at hconsistent hleft ⊢
    have hbetween := currentFinder_between (t := u) h hconsistent.keyed hfinder
    have hmirrors := mirrors_without hbetween hleft hoptions fun p x hx =>
      (mem_paths_family h.toConsistent hx).trans (decide_eq_true_iff).symm
    refine ⟨hconsistent, hoptions.trans h.options, ?_⟩
    intro f hf
    obtain rfl := Option.some.inj hf
    rw [Matching.Finder.entries_foldl_remove]
    exact ⟨hmirrors.found, hmirrors.ordered⟩

theorem InStep.edit (h : s.InStep options) (he : Edit s t) : t.InStep options := by
  cases he with
  | aside same =>
    refine ⟨h.toConsistent.of_same same.toSameContent, same.options.trans h.options, ?_⟩
    intro f hf
    have hm := h.mirrored f (same.finder.symm.trans hf)
    refine ⟨fun p => ?_, fun hall => ?_⟩
    · have hsearchable : t.searchable = s.searchable := by
        rw [searchable, searchable, same.entries]
        simp only [isCandidate, same.options]
      rw [hsearchable]
      exact hm.found p
    · rw [same.entries]
      exact hm.ordered (same.options ▸ hall)
  | stored e => exact h.store e
  | removed path => exact h.removeFamily path
  | cleared now => exact .of_none (consistent_clear s now) h.options rfl
  | adopted snapshot =>
    have hadopted := consistent_adopt s snapshot
    exact inStep_renewFinder (s := { s.adopt snapshot with finder := s.finder })
      (hadopted.of_same ⟨rfl, rfl⟩) h.options
  | dropped => exact .of_none (consistent_dropState s) h.options rfl
  | renewed => exact inStep_renewFinder h.toConsistent h.options
  | consulted =>
    refine ⟨h.toConsistent.of_same ⟨rfl, rfl⟩, h.options, ?_⟩
    intro f hf
    obtain rfl := Option.some.inj hf
    exact ⟨h.currentFinder.found, h.currentFinder.ordered⟩

theorem InStep.edits (h : s.InStep options) (he : Edits s t) : t.InStep options := by
  induction he with
  | refl => exact h
  | tail _ last ih => exact ih.edit last

namespace Session

/-- In every state that an index can come to, its finder, if there is one, has under each path the
entry that is stored there, if that may be found at all, and nothing else. Where directories may be
found like everything else, its order is that of the entries. -/
theorem finder_in_step (options : Options) (file : Except Failure Content) (actions : List Action)
    {finder : Matching.Finder}
    (hfinder : ((fresh options file).run actions).index.finder = some finder) :
    let index := ((fresh options file).run actions).index
    (∀ p e, finder.entries.get? p = some e ↔
        index.entries.get? p = some e ∧
          (options.includeDirectories = true ∨ e.isDirectory = false)) ∧
      (options.includeDirectories = true → finder.entries.keys = index.entries.keys) := by
  intro index
  have h : index.InStep options :=
    (inStep_create options).edits (run_edits (fresh options file) actions)
  have hm := h.mirrored finder hfinder
  refine ⟨fun p e => ?_, fun hall => ?_⟩
  · have hcandidate : index.isCandidate e = true ↔
        options.includeDirectories = true ∨ e.isDirectory = false := by
      rw [isCandidate, h.options, Bool.or_eq_true, Bool.not_eq_true']
    rw [hm.found, get?_searchable, Option.filter_eq_some_iff, hcandidate]
  · rw [hm.ordered (by rw [h.options, hall])]

/-- A directory and a file in it are indexed, all is cleared, and the directory comes back as a
file; a search makes the finder anew before more is added and the first file is gone again. -/
def turned : List Action :=
  smallActions ++
    [ .clear 1,
      .add 2 true (oldEntry "/r/d" "d" "d" .file),
      .search "d" false none,
      .add 3 true (oldEntry "/r/c" "c" "c" .directory),
      .add 4 true (oldEntry "/r/c/a.txt" "a.txt" "c/a.txt" .file),
      .begin 5 (.remove "/r/d") ]

/-- Without directories only the file in the new one is left to be found. -/
theorem finder_in_step_turned :
    let index := ((fresh { Options.default with includeDirectories := false }
      (.error .badDocument)).run turned).index
    ∃ finder, index.finder = some finder ∧ finder.entries.keys = ["/r/c/a.txt"] ∧
      ∀ p e, finder.entries.get? p = some e ↔
        index.entries.get? p = some e ∧ e.isDirectory = false := by
  intro index
  obtain ⟨finder, hfinder, hkeys⟩ : ∃ finder, index.finder = some finder ∧
      finder.entries.keys = ["/r/c/a.txt"] := ⟨_, rfl, rfl⟩
  refine ⟨finder, hfinder, hkeys, fun p e => ?_⟩
  have hfound := (finder_in_step _ (.error .badDocument) turned hfinder).1 p e
  simpa using hfound

end Session

end Index

end LiveIndex
