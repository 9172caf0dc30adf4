import LiveIndex.Proofs.Path.Beneath
import LiveIndex.Proofs.Text.Order
import LiveIndex.Watch.Sighting

/-! What a batch of changes is condensed to. A batch is a set, so the order in which its changes
come, and how often they do, makes no difference. Each path has one change, and directories come
before what is in them. -/

namespace LiveIndex.Sighting

variable {d : Disk} {changes others : List Sighting} {c : Sighting} {path : String}

/-- The kinds that a batch reports of a path. -/
def kindsAt (changes : List Sighting) (path : String) : List SightingKind :=
  (changes.filter (·.path = path)).map Sighting.kind

theorem mem_kindsAt_iff {kind : SightingKind} :
    kind ∈ kindsAt changes path ↔ ⟨kind, path⟩ ∈ changes := by
  constructor
  · intro hmem
    obtain ⟨c, hc, rfl⟩ := List.mem_map.mp hmem
    obtain ⟨hreported, hpath⟩ := List.mem_filter.mp hc
    rwa [← of_decide_eq_true hpath]
  · intro hreported
    exact List.mem_map.mpr ⟨_, List.mem_filter.mpr ⟨hreported, decide_eq_true rfl⟩, rfl⟩

/-- A change sums up what a batch reports of its path. If kinds are in conflict, a path that is not
on disk has been deleted, and any other one has been added if that was reported. -/
structure SumsUp (d : Disk) (changes : List Sighting) (c : Sighting) : Prop where
  reported : ∃ kind, ⟨kind, c.path⟩ ∈ changes
  single : ∀ kind, (∀ kind', ⟨kind', c.path⟩ ∈ changes ↔ kind' = kind) → c.kind = kind
  conflict : ∀ kind kind', ⟨kind, c.path⟩ ∈ changes → ⟨kind', c.path⟩ ∈ changes → kind ≠ kind' →
    (c.kind = .deleted ↔ d.stands c.path = false) ∧
      (d.stands c.path = true →
        c.kind = if ⟨.added, c.path⟩ ∈ changes then .added else .modified)

/-- The kind of a path of which different kinds are reported. -/
theorem settleKind_of_conflict {kinds : List SightingKind} {kind kind' : SightingKind}
    (hkind : kind ∈ kinds) (hkind' : kind' ∈ kinds) (hne : kind ≠ kind') :
    settleKind d path kinds =
      if d.stands path then (if .added ∈ kinds then .added else .modified) else .deleted := by
  cases kinds with
  | nil => exact absurd hkind List.not_mem_nil
  | cons first rest =>
    have hmixed : ¬(rest.all (· = first)) = true := by
      intro hall
      have hsame : ∀ k ∈ first :: rest, k = first := by
        intro k hk
        rcases List.mem_cons.mp hk with rfl | hk
        · rfl
        · exact of_decide_eq_true (List.all_eq_true.mp hall k hk)
      exact hne ((hsame kind hkind).trans (hsame kind' hkind').symm)
    rw [settleKind, if_neg hmixed]

/-- The kind of a path of which one kind is reported, no matter how often. -/
theorem settleKind_of_single {kinds : List SightingKind} {kind : SightingKind}
    (h : ∀ kind', kind' ∈ kinds ↔ kind' = kind) : settleKind d path kinds = kind := by
  cases kinds with
  | nil => exact absurd ((h kind).mpr rfl) List.not_mem_nil
  | cons first rest =>
    obtain rfl : first = kind := (h first).mp List.mem_cons_self
    have hall : (rest.all (· = first)) = true := by
      refine List.all_eq_true.mpr fun k hk => ?_
      exact decide_eq_true ((h k).mp (List.mem_cons_of_mem _ hk))
    rw [settleKind, if_pos hall]

theorem sumsUp_settleKind (h : ∃ kind, ⟨kind, path⟩ ∈ changes) :
    SumsUp d changes ⟨settleKind d path (kindsAt changes path), path⟩ where
  reported := h
  single kind hkind := settleKind_of_single fun kind' => mem_kindsAt_iff.trans (hkind kind')
  conflict kind kind' hkind hkind' hne := by
    change (settleKind d path (kindsAt changes path) = .deleted ↔ _) ∧
      (_ → settleKind d path (kindsAt changes path) = _)
    rw [settleKind_of_conflict (mem_kindsAt_iff.mpr hkind) (mem_kindsAt_iff.mpr hkind') hne]
    simp only [mem_kindsAt_iff]
    cases d.stands path with
    | false => exact ⟨iff_of_true rfl rfl, nofun⟩
    | true =>
      refine ⟨iff_of_false ?_ nofun, fun _ => rfl⟩
      -- What is on disk has been added or modified.
      rw [if_pos rfl]
      split <;> exact nofun

/-- What is reported of a path settles the change that sums it up. -/
theorem SumsUp.unique {c' : Sighting} (h : SumsUp d changes c) (h' : SumsUp d changes c')
    (hpath : c.path = c'.path) : c = c' := by
  obtain ⟨kind, path⟩ := c
  obtain ⟨kind', path'⟩ := c'
  obtain rfl : path = path' := hpath
  obtain ⟨first, hfirst⟩ := h.reported
  by_cases hsame : ∀ k, ⟨k, path⟩ ∈ changes ↔ k = first
  · obtain rfl : kind = first := h.single first hsame
    obtain rfl : kind' = kind := h'.single kind hsame
    rfl
  · -- Another kind is reported, too, so that what is on disk decides.
    obtain ⟨second, hsecond, hne⟩ : ∃ k, ⟨k, path⟩ ∈ changes ∧ first ≠ k := by
      by_contra hnone
      refine hsame fun k => ⟨fun hk => ?_, fun hk => hk ▸ hfirst⟩
      by_contra hne
      exact hnone ⟨k, hk, fun he => hne he.symm⟩
    obtain ⟨hgone, hpresent⟩ := h.conflict first second hfirst hsecond hne
    obtain ⟨hgone', hpresent'⟩ := h'.conflict first second hfirst hsecond hne
    have hkind : kind = kind' := by
      cases hstands : d.stands path with
      | false => exact (hgone.mpr hstands).trans (hgone'.mpr hstands).symm
      | true => exact (hpresent hstands).trans (hpresent' hstands).symm
    rw [hkind]

theorem SumsUp.congr (h : SumsUp d changes c) (hmem : ∀ c, c ∈ changes ↔ c ∈ others) :
    SumsUp d others c := by
  obtain ⟨hreported, hsingle, hconflict⟩ := h
  simp only [hmem] at hreported hsingle hconflict
  exact ⟨hreported, hsingle, hconflict⟩

theorem paths_condense (d : Disk) (changes : List Sighting) :
    (condense d changes).map Sighting.path =
      Text.sorted (changes.map Sighting.path).eraseDups := by
  rw [condense, List.map_map]
  exact List.map_id _

theorem mem_paths_condense_iff :
    path ∈ (condense d changes).map Sighting.path ↔ ∃ kind, ⟨kind, path⟩ ∈ changes := by
  rw [paths_condense, (Text.perm_sorted _).mem_iff, List.mem_eraseDups]
  constructor
  · intro hmem
    obtain ⟨⟨kind, path⟩, hreported, rfl⟩ := List.mem_map.mp hmem
    exact ⟨kind, hreported⟩
  · rintro ⟨kind, hreported⟩
    exact List.mem_map.mpr ⟨_, hreported, rfl⟩

theorem pairwise_condense (d : Disk) (changes : List Sighting) :
    (condense d changes).Pairwise fun a b => a.path < b.path := by
  refine List.pairwise_map.mp ?_
  rw [paths_condense]
  exact Text.pairwise_lt_sorted (Text.nodup_eraseDups _)

theorem sumsUp_of_mem_condense (h : c ∈ condense d changes) : SumsUp d changes c := by
  have hreported := mem_paths_condense_iff.mp (List.mem_map_of_mem h)
  obtain ⟨path, -, rfl⟩ := List.mem_map.mp h
  exact sumsUp_settleKind hreported

/-- Of two changes in a strict order, that of the lesser path stands before the other one. -/
theorem sublist_of_lt {cs : List Sighting} (h : cs.Pairwise fun a b => a.path < b.path)
    {a b : Sighting} (ha : a ∈ cs) (hb : b ∈ cs) (hlt : a.path < b.path) : [a, b].Sublist cs := by
  obtain ⟨before, after, rfl⟩ := List.append_of_mem ha
  rcases List.mem_append.mp hb with hbefore | hafter
  · have hgreater := (List.pairwise_append.mp h).2.2 b hbefore a List.mem_cons_self
    exact absurd (hlt.trans hgreater) (lt_irrefl _)
  · rcases List.mem_cons.mp hafter with rfl | hafter
    · exact absurd hlt (lt_irrefl _)
    · have hrest : [b].Sublist after := List.singleton_sublist.mpr hafter
      exact (hrest.cons_cons a).trans (List.sublist_append_right ..)

/-- Batches of the same changes are condensed to the same. -/
theorem condense_congr (hmem : ∀ c, c ∈ changes ↔ c ∈ others) :
    condense d changes = condense d others := by
  have hpaths : (condense d changes).map Sighting.path =
      (condense d others).map Sighting.path := by
    rw [paths_condense, paths_condense]
    refine Text.sorted_congr (Text.nodup_eraseDups _) (Text.nodup_eraseDups _) fun p => ?_
    simp only [List.mem_eraseDups, List.mem_map, hmem]
  -- The paths are the same one by one, and so are the changes that sum up what is reported there.
  refine List.ext_getElem ?_ fun i hi hi' => ?_
  · rw [← List.length_map Sighting.path, hpaths, List.length_map]
  · have hsums := (sumsUp_of_mem_condense (List.getElem_mem hi)).congr hmem
    have hsums' := sumsUp_of_mem_condense (List.getElem_mem hi')
    refine hsums.unique hsums' ?_
    have hat := congrArg (·[i]?) hpaths
    simpa [hi, hi'] using hat

/-- A batch of changes is condensed to the same, whatever the order and however often the changes
come. Each path that is reported has one change, the paths rise strictly, and a path comes before
those that go on from it after a slash. Each change sums up what is reported of its path. -/
theorem condensed_batch (d : Disk) (changes : List Sighting) :
    (∀ others, (∀ c, c ∈ others ↔ c ∈ changes) → condense d others = condense d changes) ∧
      (∀ path, path ∈ (condense d changes).map Sighting.path ↔ ∃ c ∈ changes, c.path = path) ∧
      ((condense d changes).map Sighting.path).Pairwise (· < ·) ∧
      (∀ a ∈ condense d changes, ∀ b ∈ condense d changes, a.path ≠ b.path →
        Path.front a.path <+: b.path.toList → [a, b].Sublist (condense d changes)) ∧
      ∀ c ∈ condense d changes, SumsUp d changes c := by
  refine ⟨fun others hmem => condense_congr hmem, fun path => ?_, ?_, ?_,
    fun c hc => sumsUp_of_mem_condense hc⟩
  · rw [mem_paths_condense_iff]
    constructor
    · rintro ⟨kind, hreported⟩
      exact ⟨_, hreported, rfl⟩
    · rintro ⟨⟨kind, path⟩, hreported, rfl⟩
      exact ⟨kind, hreported⟩
  · exact List.pairwise_map.mpr (pairwise_condense d changes)
  · intro a ha b hb hne hfront
    have hprefix : a.path.toList <+: b.path.toList := (Path.prefix_front a.path).trans hfront
    exact sublist_of_lt (pairwise_condense d changes) ha hb (Text.lt_of_prefix hprefix hne)

/-- A file is reported to have been added and deleted, and its directory to have been added. -/
def mixedBatch : List Sighting :=
  [⟨.deleted, "/r/d/f.md"⟩, ⟨.added, "/r/d"⟩, ⟨.added, "/r/d/f.md"⟩]

/-- Where nothing is on disk the file is gone, and it stands behind its directory. -/
theorem condensed_batch_mixed :
    condense ⟨.dir [], []⟩ mixedBatch.reverse = condense ⟨.dir [], []⟩ mixedBatch ∧
      [⟨.added, "/r/d"⟩, ⟨.deleted, "/r/d/f.md"⟩].Sublist (condense ⟨.dir [], []⟩ mixedBatch) := by
  obtain ⟨hany, hpaths, -, horder, hsums⟩ := condensed_batch ⟨.dir [], []⟩ mixedBatch
  refine ⟨hany _ fun c => List.mem_reverse, ?_⟩
  obtain ⟨⟨kind, _⟩, hdir, rfl⟩ := List.mem_map.mp ((hpaths "/r/d").mpr (by decide))
  obtain ⟨⟨kind', _⟩, hfile, rfl⟩ := List.mem_map.mp ((hpaths "/r/d/f.md").mpr (by decide))
  have hadded : kind = .added := (hsums _ hdir).single .added fun k => by simp [mixedBatch]
  have hreported : ⟨.added, "/r/d/f.md"⟩ ∈ mixedBatch ∧ ⟨.deleted, "/r/d/f.md"⟩ ∈ mixedBatch := by
    decide
  have habsent : Disk.stands ⟨.dir [], []⟩ "/r/d/f.md" = false := by
    have hsplit : Text.split '/' "/r/d/f.md" = ["", "r", "d", "f.md"] := by decide
    simp [Disk.stands, Disk.peek, Tree.find, hsplit, Tree.locate, Tree.get?, Tree.child?,
      Tree.isDir, Except.toBool]
  have hdeleted : kind' = .deleted :=
    ((hsums _ hfile).conflict _ _ hreported.1 hreported.2 (by decide)).1.mpr habsent
  subst hadded hdeleted
  have hbeneath : Path.isBeneath "/r/d" "/r/d/f.md" = true := by decide
  exact horder _ hdir _ hfile (by decide)
    ((Path.isBeneath_iff_front (by decide) (by decide)).mp hbeneath)

end LiveIndex.Sighting
