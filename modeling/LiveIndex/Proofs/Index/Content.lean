import LiveIndex.Proofs.Index.Saving
import LiveIndex.Proofs.Path.Beneath

/-! What upserts and removals leave in an index, path by path, and the calls that do them while
nothing else goes on. -/

namespace LiveIndex

theorem Time.Stamp.same_refl (t : Time.Stamp) : t.same t = true := by
  unfold Time.Stamp.same
  cases t.offset with
  | none => simp
  | some offset => simp

theorem Time.Stamp.same_symm {t u : Time.Stamp} (h : t.same u = true) : u.same t = true := by
  unfold Time.Stamp.same at h ⊢
  cases ht : t.offset <;> cases hu : u.offset <;> rw [ht, hu] at h <;>
    simp only [Bool.and_eq_true, decide_eq_true_eq, beq_iff_eq, Bool.false_eq_true] at h ⊢
  · exact ⟨h.1.symm, h.2.symm⟩
  · exact h.symm

theorem Time.Stamp.same_trans {t u v : Time.Stamp} (htu : t.same u = true)
    (huv : u.same v = true) : t.same v = true := by
  unfold Time.Stamp.same at htu huv ⊢
  cases ht : t.offset <;> cases hu : u.offset <;> cases hv : v.offset <;> rw [ht, hu] at htu <;>
    rw [hu, hv] at huv <;>
    simp only [Bool.and_eq_true, decide_eq_true_eq, beq_iff_eq, Bool.false_eq_true] at htu huv ⊢
  · exact ⟨htu.1.trans huv.1, htu.2.trans huv.2⟩
  · exact htu.trans huv

namespace Entry

theorem same_iff {a b : Entry} : a.same b = true ↔ a.path = b.path ∧ a.name = b.name ∧
    a.relativePath = b.relativePath ∧ a.extension = b.extension ∧ a.size = b.size ∧
    a.created.same b.created = true ∧ a.modified.same b.modified = true ∧ a.kind = b.kind := by
  simp only [same, Bool.and_eq_true, decide_eq_true_eq, and_assoc]

theorem same_refl (e : Entry) : e.same e = true :=
  same_iff.mpr ⟨rfl, rfl, rfl, rfl, rfl, e.created.same_refl, e.modified.same_refl, rfl⟩

theorem same_symm {a b : Entry} (h : a.same b = true) : b.same a = true := by
  obtain ⟨hpath, hname, hrelative, hextension, hsize, hcreated, hmodified, hkind⟩ := same_iff.mp h
  exact same_iff.mpr ⟨hpath.symm, hname.symm, hrelative.symm, hextension.symm, hsize.symm,
    Time.Stamp.same_symm hcreated, Time.Stamp.same_symm hmodified, hkind.symm⟩

theorem same_trans {a b c : Entry} (hab : a.same b = true) (hbc : b.same c = true) :
    a.same c = true := by
  obtain ⟨p, n, r, x, s, hc, hm, k⟩ := same_iff.mp hab
  obtain ⟨p', n', r', x', s', hc', hm', k'⟩ := same_iff.mp hbc
  exact same_iff.mpr ⟨p.trans p', n.trans n', r.trans r', x.trans x', s.trans s',
    Time.Stamp.same_trans hc hc', Time.Stamp.same_trans hm hm', k.trans k'⟩

theorem isDirectory_of_same {a b : Entry} (h : a.same b = true) :
    a.isDirectory = b.isDirectory := by
  obtain ⟨-, -, -, -, -, -, -, hkind⟩ := same_iff.mp h
  rw [isDirectory, isDirectory, hkind]

/-- What two entries that say the same add to the counters is the same. -/
theorem share_of_same {a b : Entry} (h : a.same b = true) : a.share = b.share := by
  obtain ⟨-, -, -, -, hsize, -, -, -⟩ := same_iff.mp h
  rw [share, share, isDirectory_of_same h, hsize]

/-- An entry that fits what is on disk is not outdated by it. -/
theorem isOutdated_self (e : Entry) : e.isOutdated e = false := by
  simp [isOutdated, Time.Stamp.same_refl]

theorem not_same_of_isOutdated {old e : Entry} (h : old.isOutdated e = true) :
    old.same e = false := by
  by_contra hsame
  rw [Bool.not_eq_false] at hsame
  obtain ⟨-, -, -, -, hsize, -, hmodified, hkind⟩ := same_iff.mp hsame
  simp [isOutdated, hsize, hmodified, hkind] at h

end Entry

namespace Index

/-- The entry at a path after an upsert. -/
def settled (old : Option Entry) (e : Entry) : Entry :=
  match old with
  | some old => if old.same e then old else e
  | none => e

theorem settled_same (old : Option Entry) (e : Entry) : (settled old e).same e = true := by
  unfold settled
  split
  · split
    · next hsame => exact hsame
    · exact e.same_refl
  · exact e.same_refl

variable {s : Index}

theorem get?_upsert (s : Index) (e : Entry) (p : String) : (s.upsert e).1.entries.get? p =
    if e.path = p then some (settled (s.entries.get? e.path) e) else s.entries.get? p := by
  have hstore : (s.store e).entries.get? p = if e.path = p then some e else s.entries.get? p :=
    OrderedMap.get?_insert ..
  unfold upsert settled
  cases hold : s.entries.get? e.path with
  | none => exact hstore
  | some old =>
    dsimp only
    by_cases hsame : old.same e = true
    · rw [if_pos hsame, if_pos hsame]
      split
      · next hp => rw [← hp, hold]
      · rfl
    · rw [if_neg hsame, if_neg hsame]
      exact hstore

theorem upsertAll_cons (s : Index) (e : Entry) (rest : List Entry) :
    (s.upsertAll (e :: rest)).1 = ((s.upsert e).1.upsertAll rest).1 := rfl

/-- A batch leaves all paths as they were that it has no entry of. -/
theorem get?_upsertAll_of_notMem {entries : List Entry} {p : String}
    (hp : p ∉ entries.map Entry.path) :
    (s.upsertAll entries).1.entries.get? p = s.entries.get? p := by
  induction entries generalizing s with
  | nil => rfl
  | cons e rest ih =>
    rw [List.map_cons, List.mem_cons, not_or] at hp
    rw [upsertAll_cons, ih hp.2, get?_upsert, if_neg (Ne.symm hp.1)]

/-- A batch of different paths leaves at each of them its entry. -/
theorem get?_upsertAll_of_mem {entries : List Entry} (hpaths : (entries.map Entry.path).Nodup)
    {e : Entry} (he : e ∈ entries) : (s.upsertAll entries).1.entries.get? e.path =
      some (settled (s.entries.get? e.path) e) := by
  induction entries generalizing s with
  | nil => exact absurd he List.not_mem_nil
  | cons first rest ih =>
    obtain ⟨hfirst, hrest⟩ := List.nodup_cons.mp hpaths
    rw [upsertAll_cons]
    rcases List.mem_cons.mp he with rfl | he
    · -- The path does not come again.
      rw [get?_upsertAll_of_notMem hfirst, get?_upsert, if_pos rfl]
    · have hne : first.path ≠ e.path := fun h => hfirst (h ▸ List.mem_map_of_mem he)
      rw [ih hrest he, get?_upsert, if_neg hne]

/-- A batch of different paths counts as added those that were not there, and as updated those
whose entries said something else. -/
theorem summary_upsertAll {entries : List Entry} (hpaths : (entries.map Entry.path).Nodup) :
    (s.upsertAll entries).2.1.added =
        entries.countP (fun e => (s.entries.get? e.path).isNone) ∧
      (s.upsertAll entries).2.1.updated =
        entries.countP (fun e => (s.entries.get? e.path).any fun old => !old.same e) := by
  induction entries generalizing s with
  | nil => exact ⟨rfl, rfl⟩
  | cons e rest ih =>
    obtain ⟨hfirst, hrest⟩ := List.nodup_cons.mp hpaths
    obtain ⟨hadded, hupdated⟩ := ih (s := (s.upsert e).1) hrest
    -- The first entry changes nothing at the paths of the others.
    have hothers : ∀ e' ∈ rest, (s.upsert e).1.entries.get? e'.path = s.entries.get? e'.path := by
      intro e' he'
      have hne : e.path ≠ e'.path := fun h => hfirst (h ▸ List.mem_map_of_mem he')
      rw [get?_upsert, if_neg hne]
    rw [List.countP_congr fun e' he' => by rw [hothers e' he']] at hadded hupdated
    have hsummary : (s.upsertAll (e :: rest)).2.1 =
        (s.upsert e).2.count ((s.upsert e).1.upsertAll rest).2.1 := rfl
    rw [hsummary, List.countP_cons, List.countP_cons, ← hadded, ← hupdated]
    unfold upsert
    cases hold : s.entries.get? e.path with
    | none => exact ⟨rfl, rfl⟩
    | some old =>
      cases hsame : old.same e with
      | true => simp [hsame, Outcome.count]
      | false => simp [hsame, Outcome.count]

/-- Whether the removal of a path takes another one along. -/
def Takes (s : Index) (path p : String) : Prop :=
  ∃ e, s.entries.get? path = some e ∧
    (p = path ∨ (e.isDirectory = true ∧ Path.isBeneath path p = true))

theorem takes_iff {path p : String} {e : Entry} (he : s.entries.get? path = some e) :
    s.Takes path p ↔ p = path ∨ (e.isDirectory = true ∧ Path.isBeneath path p = true) := by
  constructor
  · rintro ⟨e', he', htaken⟩
    rw [he] at he'
    cases he'
    exact htaken
  · exact fun htaken => ⟨e, he, htaken⟩

theorem not_takes_of_absent {path : String} (he : s.entries.get? path = none) (p : String) :
    ¬s.Takes path p := by
  rintro ⟨e, he', -⟩
  rw [he] at he'
  cases he'

instance (s : Index) (path p : String) : Decidable (s.Takes path p) :=
  decidable_of_iff (∃ e ∈ s.entries.get? path,
    p = path ∨ (e.isDirectory = true ∧ Path.isBeneath path p = true)) Iff.rfl

theorem filter_of_absent {path : String} (he : s.entries.get? path = none)
    (m : OrderedMap String Entry) : (m.filter fun p _ => !decide (s.Takes path p)) = m := by
  apply OrderedMap.ext_items
  refine List.filter_eq_self.mpr fun kv _ => ?_
  dsimp only
  rw [decide_eq_false (not_takes_of_absent he kv.1)]
  rfl

/-- What a removal does not take along stays as it is and in its order. -/
theorem entries_removeFamily (s : Index) (path : String) :
    (s.removeFamily path).1.entries = s.entries.filter fun p _ => !decide (s.Takes path p) := by
  unfold removeFamily
  cases he : s.entries.get? path with
  | none => exact (filter_of_absent he s.entries).symm
  | some e =>
    apply OrderedMap.ext_items
    refine List.filter_congr fun kv _ => ?_
    rw [Bool.eq_iff_iff]
    simp [takes_iff he]

theorem get?_removeFamily_of_takes {path p : String} (h : s.Takes path p) :
    (s.removeFamily path).1.entries.get? p = none := by
  rw [entries_removeFamily, OrderedMap.get?_filter, decide_eq_true h]
  cases s.entries.get? p <;> rfl

theorem get?_removeFamily_of_not_takes {path p : String} (h : ¬s.Takes path p) :
    (s.removeFamily path).1.entries.get? p = s.entries.get? p := by
  rw [entries_removeFamily, OrderedMap.get?_filter, decide_eq_false h]
  cases s.entries.get? p <;> rfl

/-- Removes paths one after another. -/
def removeAll (s : Index) (paths : List String) : Index :=
  paths.foldl (fun s path => (s.removeFamily path).1) s

theorem removeAll_cons (s : Index) (path : String) (rest : List String) :
    s.removeAll (path :: rest) = (s.removeFamily path).1.removeAll rest := rfl

/-- What is not there does not come back. -/
theorem get?_removeAll_of_absent {paths : List String} {p : String}
    (hp : s.entries.get? p = none) : (s.removeAll paths).entries.get? p = none := by
  induction paths generalizing s with
  | nil => exact hp
  | cons path rest ih =>
    rw [removeAll_cons]
    refine ih ?_
    by_cases htakes : s.Takes path p
    · exact get?_removeFamily_of_takes htakes
    · rw [get?_removeFamily_of_not_takes htakes, hp]

/-- A path that one of several removals would take by itself is taken. -/
theorem get?_removeAll_of_takes {paths : List String} {p : String}
    (h : ∃ path ∈ paths, s.Takes path p) : (s.removeAll paths).entries.get? p = none := by
  induction paths generalizing s with
  | nil =>
    obtain ⟨path, hpath, -⟩ := h
    exact absurd hpath List.not_mem_nil
  | cons first rest ih =>
    obtain ⟨path, hpath, e, he, hgone⟩ := h
    rw [removeAll_cons]
    by_cases hfirst : s.Takes first p
    · exact get?_removeAll_of_absent (get?_removeFamily_of_takes hfirst)
    · rcases List.mem_cons.mp hpath with rfl | hpath
      · exact absurd ⟨e, he, hgone⟩ hfirst
      · -- If the first removal had taken the other one, it would have taken what is beneath.
        have hkept : ¬s.Takes first path := by
          rintro ⟨d, hd, rfl | ⟨hdirectory, hbeneath⟩⟩
          · exact hfirst ⟨e, he, hgone⟩
          · refine hfirst ⟨d, hd, .inr ⟨hdirectory, ?_⟩⟩
            rcases hgone with rfl | ⟨-, hp⟩
            · exact hbeneath
            · exact Path.isBeneath_trans hbeneath hp
        refine ih ⟨path, hpath, e, ?_, hgone⟩
        rw [get?_removeFamily_of_not_takes hkept, he]

/-- What no removal would take at the start is not taken later either: removals bring nothing up. -/
theorem get?_removeAll_of_not_takes {paths : List String} {p : String}
    (h : ∀ path ∈ paths, ¬s.Takes path p) :
    (s.removeAll paths).entries.get? p = s.entries.get? p := by
  induction paths generalizing s with
  | nil => rfl
  | cons first rest ih =>
    have hfirst := h first List.mem_cons_self
    rw [removeAll_cons, ih, get?_removeFamily_of_not_takes hfirst]
    rintro path hpath ⟨e, he, hgone⟩
    -- What is there after the first removal was there before.
    refine h path (List.mem_cons_of_mem _ hpath) ⟨e, ?_, hgone⟩
    by_cases htakes : s.Takes first path
    · rw [get?_removeFamily_of_takes htakes] at he
      cases he
    · rwa [get?_removeFamily_of_not_takes htakes] at he

/-- Removals look at the entries only. -/
theorem removeAll_congr {t : Index} (h : s.entries = t.entries) (paths : List String) :
    (s.removeAll paths).entries = (t.removeAll paths).entries := by
  induction paths generalizing s t with
  | nil => exact h
  | cons path rest ih =>
    rw [removeAll_cons, removeAll_cons]
    refine ih ?_
    unfold removeFamily
    rw [h]
    cases t.entries.get? path with
    | none => exact h
    | some e =>
      dsimp only [dropAll]
      rw [h]

end Index

end LiveIndex
