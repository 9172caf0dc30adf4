import LiveIndex.Keeper.Calls
import LiveIndex.Proofs.Disk.Reach
import LiveIndex.Proofs.Index.Lasting
import LiveIndex.Proofs.Reconciliation.Convergence

/-! Reading one path anew. What is stored or removed goes by the names on the path as it is seen
from the root, while an inventory goes by the ways that a walk finds. The two come to the same for a
path that a walk comes upon, unless it is a file under a name that is left out; a path that no walk
comes upon can get into the index all the same. -/

namespace LiveIndex

namespace Path

theorem isAbsolute_tidy {p : String} (h : isAbsolute p = true) : isAbsolute (tidy p) = true := by
  have hanchor : anchor p ≠ "" := by
    intro hempty
    rw [isAbsolute, decide_eq_true_eq] at h
    cases hp : p.toList with
    | nil =>
      rw [hp] at h
      cases h
    | cons c rest =>
      rw [hp] at h
      obtain rfl : c = '/' := Option.some.inj h
      unfold anchor at hempty
      rw [hp] at hempty
      split at hempty
      · exact absurd hempty (by decide)
      · exact absurd hempty (by decide)
      · exact absurd hempty (by decide)
      · next hslash => exact hslash rest rfl
  have hne : (anchor p).toList ≠ [] := fun hnil => hanchor (String.toList_eq_nil_iff.mp hnil)
  have hpath : anchor p ++ "/".intercalate (names p) ≠ "" := by
    intro hempty
    have hnil := String.toList_eq_nil_iff.mpr hempty
    rw [String.toList_append] at hnil
    exact hne (List.append_eq_nil_iff.mp hnil).1
  obtain ⟨c, rest, hc⟩ := List.exists_cons_of_ne_nil hne
  have hslash : c = '/' := eq_slash_of_mem_anchor (p := p) (by rw [hc]; exact List.mem_cons_self)
  rw [tidy, build, if_neg hpath, isAbsolute, String.toList_append, hc, hslash]
  rfl

theorem isAbsolute_tidyJoin (p : String) : isAbsolute (tidyJoin "/" p) = true := by
  refine isAbsolute_tidy ?_
  have hroot : tidy "/" = "/" := by decide
  rw [hroot, join]
  split
  · next hp => exact hp
  · rw [if_pos (.inr rfl), isAbsolute, String.toList_append]
    rfl

end Path

namespace Keeper

open Path (descend)

variable {k : Keeper} {d : Disk} {q name : String} {above : List String} {u : Tree} {e : Entry}

/-- An entry of the path is wanted, but no walk below the root comes upon that path: it is the root
or lies outside, it is spelled in another way, or it leads through a link or through a directory
that cannot be listed. -/
def Astray (k : Keeper) (d : Disk) (q : String) : Prop :=
  (∃ e, d.entry q k.root = .ok e ∧ k.wants q e = true) ∧
    ∀ above name u, ¬d.Reaches k.root q above name u

/-- A walk takes what stands at the path, in spite of its name, which is left out where it is the
name of a directory or of a link to one. -/
def Misnamed (k : Keeper) (d : Disk) (q : String) : Prop :=
  (∃ e, d.entry q k.root = .ok e) ∧ ∃ above name u, d.Reaches k.root q above name u ∧
    (∀ n ∈ above, n ∉ k.excluded) ∧ name ∈ k.excluded ∧ d.amongDirs q u = false ∧
    k.filter.wantsExtension q = true

theorem wants_iff_of_reaches (h : d.Reaches k.root q above name u) (hd : d.tree.Proper)
    (hq : Path.isAbsolute q = true) (he : d.entry q k.root = .ok e) :
    k.wants q e = true ↔ (∀ n ∈ above ++ [name], n ∉ k.excluded) ∧
      (u.isDir = true ∨ k.filter.wantsExtension q = true) := by
  have hplain := h.plain hd
  have hdirectory := h.isDirectory hd he
  obtain ⟨-, -, -, rfl⟩ := h
  have hroot : Path.isAbsolute k.root = true := (Path.isAbsolute_descend hplain).symm.trans hq
  have hne : above ++ [name] ≠ [] := List.append_ne_nil_of_right_ne_nil _ (List.cons_ne_nil _ _)
  obtain ⟨r, hr, hsplit⟩ := Path.relative?_descend hroot hne hplain
  have hrelative : relativeTo (descend k.root (above ++ [name])) k.root = .ok r := by
    rw [relativeTo, hr]
  have hexcludes : k.filter.excludes r = (above ++ [name]).any (· ∈ k.excluded) := by
    rw [Filter.excludes, hsplit]
    rfl
  rw [wants, hrelative]
  dsimp only
  rw [hexcludes, hdirectory, Bool.and_eq_true, Bool.or_eq_true, Bool.not_eq_true',
    List.any_eq_false]
  simp only [decide_eq_true_eq]

/-- What is wanted at a path that a walk comes upon, the walk takes. -/
theorem mem_walk_of_wants (h : d.Reaches k.root q above name u) (hd : d.tree.Proper)
    (hq : Path.isAbsolute q = true) (he : d.entry q k.root = .ok e) (hwants : k.wants q e = true) :
    q ∈ d.walk k.filter true k.root := by
  obtain ⟨hnames, hkind⟩ := (wants_iff_of_reaches h hd hq he).mp hwants
  refine (Disk.mem_walk_iff hd).mpr ⟨above, name, u, h, ?_, ?_, ?_⟩
  · exact fun n hn => hnames n (List.mem_append_left _ hn)
  · exact fun _ => hnames name (List.mem_append_right _ List.mem_cons_self)
  · split
    · rfl
    · next hfile => exact hkind.resolve_left hfile

/-- What the walk takes is wanted, unless it is misnamed. -/
theorem wants_or_misnamed (hd : d.tree.Proper) (hq : Path.isAbsolute q = true)
    (he : d.entry q k.root = .ok e) (hwalk : q ∈ d.walk k.filter true k.root) :
    k.wants q e = true ∨ k.Misnamed d q := by
  obtain ⟨above, name, u, h, habove, hname, hkind⟩ := (Disk.mem_walk_iff hd).mp hwalk
  have hwanted : u.isDir = true ∨ k.filter.wantsExtension q = true := by
    split at hkind
    · next hdir => exact .inl hdir
    · exact .inr hkind
  by_cases hexcluded : name ∈ k.excluded
  · have hapart : d.amongDirs q u = false :=
      Bool.eq_false_iff.mpr fun hdirs => hname hdirs hexcluded
    have hfile : u.isDir = false := (Bool.or_eq_false_iff.mp hapart).1
    refine .inr ⟨⟨e, he⟩, above, name, u, h, habove, hexcluded, hapart, ?_⟩
    exact hwanted.resolve_left (by rw [hfile]; exact Bool.false_ne_true)
  · refine .inl ((wants_iff_of_reaches h hd hq he).mpr ⟨?_, hwanted⟩)
    intro n hn
    rcases List.mem_append.mp hn with hn | hn
    · exact habove n hn
    · rw [List.mem_singleton.mp hn]
      exact hexcluded

theorem Astray.notMem_walk (h : k.Astray d q) (hd : d.tree.Proper) :
    q ∉ d.walk k.filter true k.root := by
  intro hwalk
  obtain ⟨above, name, u, hreaches, -⟩ := (Disk.mem_walk_iff hd).mp hwalk
  exact h.2 above name u hreaches

theorem Misnamed.mem_walk (h : k.Misnamed d q) (hd : d.tree.Proper) :
    q ∈ d.walk k.filter true k.root := by
  obtain ⟨-, above, name, u, hreaches, habove, -, hapart, hextension⟩ := h
  have hfile : ¬u.isDir = true := by
    rw [(Bool.or_eq_false_iff.mp hapart).1]
    exact Bool.false_ne_true
  refine (Disk.mem_walk_iff hd).mpr ⟨above, name, u, hreaches, habove, ?_, ?_⟩
  · rw [hapart]
    exact fun h => absurd h Bool.false_ne_true
  · rw [if_neg hfile]
    exact hextension

theorem Misnamed.not_wants (h : k.Misnamed d q) (hd : d.tree.Proper)
    (hq : Path.isAbsolute q = true) (he : d.entry q k.root = .ok e) : k.wants q e = false := by
  obtain ⟨-, above, name, u, hreaches, -, hname, -⟩ := h
  refine Bool.eq_false_iff.mpr fun hwants => ?_
  have hnames := ((wants_iff_of_reaches hreaches hd hq he).mp hwants).1
  exact hnames name (List.mem_append_right _ List.mem_cons_self) hname

/-- No path of a walk lies beneath one that is misnamed. -/
theorem Misnamed.not_isBeneath (h : k.Misnamed d q) (hd : d.tree.Proper) {r : String}
    (hr : r ∈ d.walk k.filter true k.root) : Path.isBeneath q r = false := by
  obtain ⟨-, above, name, u, hq, -, -, hapart, -⟩ := h
  obtain ⟨above', name', u', hr, -⟩ := (Disk.mem_walk_iff hd).mp hr
  have hplain := hq.plain hd
  have hplain' := hr.plain hd
  obtain ⟨t, ht, hway, rfl⟩ := hq
  obtain ⟨t', ht', hway', rfl⟩ := hr
  obtain rfl : t = t' := Except.ok.inj (ht.symm.trans ht')
  refine Bool.eq_false_iff.mpr fun hbeneath => ?_
  have hne : above ++ [name] ≠ [] := List.append_ne_nil_of_right_ne_nil _ (List.cons_ne_nil _ _)
  obtain ⟨rest, hrest, hnames⟩ := Path.descend_of_isBeneath hne hplain hplain' hbeneath
  -- The longer way would pass through a file.
  obtain ⟨below, last, rfl⟩ := (List.eq_nil_or_concat' rest).resolve_left hrest
  rw [← List.append_assoc, List.append_assoc above] at hnames
  obtain ⟨rfl, -⟩ := List.append_inj' hnames rfl
  have hdir := hway.isDir (Disk.proper_of_find hd ht) hway'
  rw [(Bool.or_eq_false_iff.mp hapart).1] at hdir
  cases hdir

/-- An index, and how the reading of a path for it stands. `call` is the number under which the
index knows what it was asked last. -/
structure Refreshing where
  base : Index.Session
  turn : Turn Request Waiting Answer
  call : Nat

namespace Refreshing

/-- What can happen next: something at the index, the disk has looked the path up, or the index has
answered. -/
inductive Action
  | index (a : Index.Action)
  | look (now : Int)
  | goOn

def start (base : Index.Session) (k : Keeper) (p : String) : Refreshing :=
  ⟨base, (k.beginRefreshFile p).turn, base.nextId⟩

/-- Hands what is to be done to the index. -/
def hand (base : Index.Session) (now : Int) (turn : Turn Request Waiting Answer) : Refreshing :=
  match turn with
  | .ask (.store es) _ => ⟨base.step (.begin now (.batch es)), turn, base.nextId⟩
  | .ask (.remove path) _ => ⟨base.step (.begin now (.remove path)), turn, base.nextId⟩
  | _ => ⟨base, turn, base.nextId⟩

def step (d : Disk) (k : Keeper) (s : Refreshing) : Action → Refreshing
  | .index a => { s with base := s.base.step a }
  | .look now =>
    match s.turn with
    | .ask (.lookUp path) (.lookingUp _) =>
      hand s.base now (k.lookedUp path (d.entry path k.root)).turn
    | _ => s
  | .goOn =>
    match s.turn, s.base.answer? s.call with
    | .ask (.store _) (.refreshing e), some result =>
      { s with turn := (k.refreshed (some e) (result.map fun _ => ())).turn }
    | .ask (.remove _) .forgetting, some result =>
      { s with turn := (k.refreshed none (result.map fun _ => ())).turn }
    | _, _ => s

def run (d : Disk) (k : Keeper) (s : Refreshing) (actions : List Action) : Refreshing :=
  actions.foldl (step d k) s

/-- Whether nothing but the reading of the path changes the entries of the index. -/
def Action.isQuiet : Action → Bool
  | .index a => a.isQuiet
  | _ => true

/-- Whether an action is the end of the look-up. -/
def Action.isLook : Action → Bool
  | .look _ => true
  | _ => false

/-- Whether the path is still to be looked up. -/
def Looking : Turn Request Waiting Answer → Prop
  | .ask (.lookUp _) (.lookingUp _) => True
  | _ => False

theorem refreshed_turn (k : Keeper) (e : Option Entry) (result : Except Failure Unit) :
    (k.refreshed e result).turn = .done (result.map fun _ => .entry e) := by
  cases result <;> rfl

/-- The answer of the index ends the reading. -/
theorem step_goOn (s : Refreshing) (d : Disk) (k : Keeper) : s.step d k .goOn = s ∨
    ¬Looking s.turn ∧ ∃ result, s.step d k .goOn = { s with turn := .done result } := by
  simp only [step, refreshed_turn]
  split
  · next hturn _ =>
    rw [hturn]
    exact .inr ⟨id, _, rfl⟩
  · next hturn _ =>
    rw [hturn]
    exact .inr ⟨id, _, rfl⟩
  · exact .inl rfl

section Look

variable {inv : OrderedMap String Entry} {base : Index.Session} {s : Refreshing}

/-- The paths that are indexed when a path has been read: those of the inventory, but not that path
if it is misnamed, and that path if it is astray. -/
def Read (k : Keeper) (d : Disk) (q : String) (inv m : OrderedMap String Entry) : Prop :=
  ∀ r, m.contains r = true ↔
    (inv.contains r = true ∧ ¬(k.Misnamed d q ∧ r = q)) ∨ (k.Astray d q ∧ r = q)

/-- Nothing is different where nothing is misnamed or astray. -/
theorem read_of_same {m : OrderedMap String Entry} (hmisnamed : ¬k.Misnamed d q)
    (hastray : ¬k.Astray d q) (h : ∀ r, m.contains r = inv.contains r) : Read k d q inv m := by
  intro r
  simp [h r, hmisnamed, hastray]

theorem contains_upsertAll_one (i : Index) (e : Entry) (r : String) :
    (i.upsertAll [e]).1.entries.contains r = (decide (e.path = r) || i.entries.contains r) := by
  rw [Index.upsertAll_cons, OrderedMap.contains_eq_isSome]
  change ((i.upsert e).1.entries.get? r).isSome = _
  rw [Index.get?_upsert]
  by_cases hr : e.path = r
  · simp [hr]
  · simp [hr, OrderedMap.contains_eq_isSome]

/-- A removal of what is not indexed changes nothing. -/
theorem contains_removeFamily_of_absent {i : Index} (hq : i.entries.contains q = false)
    (r : String) : (i.removeFamily q).1.entries.contains r = i.entries.contains r := by
  have hnone : ¬i.Takes q r := by
    rintro ⟨e, he, -⟩
    rw [OrderedMap.contains_eq_isSome, he] at hq
    cases hq
  rw [OrderedMap.contains_eq_isSome, Index.get?_removeFamily_of_not_takes hnone,
    OrderedMap.contains_eq_isSome]

/-- A removal of a path beneath which nothing is indexed takes that path only. -/
theorem contains_removeFamily_of_present {i : Index} (hq : i.entries.contains q = true)
    (hbeneath : ∀ r, i.entries.contains r = true → Path.isBeneath q r = false) (r : String) :
    (i.removeFamily q).1.entries.contains r = true ↔ i.entries.contains r = true ∧ r ≠ q := by
  obtain ⟨old, hold⟩ := Option.isSome_iff_exists.mp
    ((OrderedMap.contains_eq_isSome ..).symm.trans hq)
  by_cases hr : r = q
  · have htakes : i.Takes q r := ⟨old, hold, .inl hr⟩
    rw [OrderedMap.contains_eq_isSome, Index.get?_removeFamily_of_takes htakes]
    simp [hr]
  · by_cases htakes : i.Takes q r
    · obtain ⟨e, -, hgone⟩ := id htakes
      have hpresent : i.entries.contains r = false := Bool.eq_false_iff.mpr fun hpresent => by
        have h := (hgone.resolve_left hr).2
        rw [hbeneath r hpresent] at h
        cases h
      rw [OrderedMap.contains_eq_isSome, Index.get?_removeFamily_of_takes htakes, hpresent]
      simp
    · rw [OrderedMap.contains_eq_isSome, Index.get?_removeFamily_of_not_takes htakes,
        ← OrderedMap.contains_eq_isSome]
      simp [hr]

variable (hd : d.tree.Proper) (hq : Path.isAbsolute q = true)
  (hinv : d.inventory k.filter k.root = .ok inv)

include hd hinv in
theorem read_removed (hsame : ∀ r, base.index.entries.contains r = inv.contains r)
    (hwants : ∀ e, d.entry q k.root = .ok e → k.wants q e = false)
    (hmisnamed : q ∈ d.walk k.filter true k.root → (∃ e, d.entry q k.root = .ok e) →
      k.Misnamed d q) :
    Read k d q inv (base.index.removeFamily q).1.entries := by
  have hastray : ¬k.Astray d q := by
    rintro ⟨⟨e, he, hwanted⟩, -⟩
    rw [hwants e he] at hwanted
    cases hwanted
  by_cases hmis : k.Misnamed d q
  · have hpresent : base.index.entries.contains q = true := by
      rw [hsame, Disk.contains_inventory_iff hinv]
      exact ⟨hmis.mem_walk hd, hmis.1⟩
    intro r
    rw [contains_removeFamily_of_present hpresent, hsame]
    · simp [hmis, hastray]
    · intro r hr
      rw [hsame, Disk.contains_inventory_iff hinv] at hr
      exact hmis.not_isBeneath hd hr.1
  · have habsent : base.index.entries.contains q = false := by
      rw [hsame]
      refine Bool.eq_false_iff.mpr fun hpresent => ?_
      obtain ⟨hwalk, hentry⟩ := (Disk.contains_inventory_iff hinv).mp hpresent
      exact hmis (hmisnamed hwalk hentry)
    refine read_of_same hmis hastray fun r => ?_
    rw [contains_removeFamily_of_absent habsent, hsame]

include hd hq hinv in
theorem read_stored (hsame : ∀ r, base.index.entries.contains r = inv.contains r)
    (he : d.entry q k.root = .ok e) (hwants : k.wants q e = true) :
    Read k d q inv (base.index.upsertAll [e]).1.entries := by
  have hpath : e.path = q := Disk.path_of_entry he
  have hmisnamed : ¬k.Misnamed d q := by
    intro hmis
    rw [hmis.not_wants hd hq he] at hwants
    cases hwants
  by_cases hastray : k.Astray d q
  · intro r
    rw [contains_upsertAll_one, hsame, hpath]
    by_cases hr : r = q
    · simp [hr, hastray]
    · simp [hr, Ne.symm hr, hmisnamed]
  · -- A walk comes upon the path, so it is indexed already.
    have hreached : ∃ above name u, d.Reaches k.root q above name u := by
      by_contra hnone
      exact hastray ⟨⟨e, he, hwants⟩, fun above name u h => hnone ⟨above, name, u, h⟩⟩
    obtain ⟨above, name, u, h⟩ := hreached
    have hpresent : inv.contains q = true :=
      (Disk.contains_inventory_iff hinv).mpr ⟨mem_walk_of_wants h hd hq he hwants, e, he⟩
    refine read_of_same hmisnamed hastray fun r => ?_
    rw [contains_upsertAll_one, hsame, hpath]
    by_cases hr : q = r
    · rw [← hr, hpresent, Bool.or_true]
    · rw [decide_eq_false hr, Bool.false_or]

include hd hq hinv in
/-- What a look at the disk leaves. -/
theorem read_look (hbase : base.Lasting)
    (hsame : ∀ r, base.index.entries.contains r = inv.contains r) (now : Int) :
    let t := hand base now (k.lookedUp q (d.entry q k.root)).turn
    t.base.Lasting ∧ ¬Looking t.turn ∧ Read k d q inv t.base.index.entries := by
  intro t
  have hstored (es : List Entry) := hbase.step (a := .begin now (.batch es)) rfl
  have hremoved := hbase.step (a := .begin now (.remove q)) rfl
  cases he : d.entry q k.root with
  | error f =>
    have hwants (e : Entry) (h : d.entry q k.root = .ok e) : k.wants q e = false := by
      rw [he] at h
      cases h
    have hmisnamed : ¬k.Misnamed d q := by
      rintro ⟨⟨e, h⟩, -⟩
      rw [he] at h
      cases h
    have hastray : ¬k.Astray d q := by
      rintro ⟨⟨e, h, -⟩, -⟩
      rw [he] at h
      cases h
    by_cases hfamily : f.family = .system
    · have ht : t = ⟨base.step (.begin now (.remove q)), .ask (.remove q) .forgetting,
          base.nextId⟩ := by
        simp only [t, he, lookedUp, hfamily, if_true]
        rfl
      rw [ht]
      refine ⟨hremoved.1, id, ?_⟩
      rw [hremoved.2]
      exact read_removed hd hinv hsame hwants fun _ ⟨e, h⟩ => by rw [he] at h; cases h
    · have ht : t = ⟨base, .done (.error f), base.nextId⟩ := by
        simp only [t, he, lookedUp, hfamily, if_false]
        rfl
      rw [ht]
      exact ⟨hbase, id, read_of_same hmisnamed hastray hsame⟩
  | ok e =>
    have hpath : e.path = q := Disk.path_of_entry he
    cases hwants : k.wants q e with
    | true =>
      have ht : t = ⟨base.step (.begin now (.batch [e])), .ask (.store [e]) (.refreshing e),
          base.nextId⟩ := by
        simp only [t, he, lookedUp, hwants, if_true]
        rfl
      rw [ht]
      refine ⟨(hstored [e]).1, id, ?_⟩
      rw [(hstored [e]).2]
      exact read_stored hd hq hinv hsame he hwants
    | false =>
      have ht : t = ⟨base.step (.begin now (.remove q)), .ask (.remove q) .forgetting,
          base.nextId⟩ := by
        simp only [t, he, lookedUp, hwants, Bool.false_eq_true, if_false]
        rfl
      rw [ht]
      refine ⟨hremoved.1, id, ?_⟩
      rw [hremoved.2]
      refine read_removed hd hinv hsame ?_ fun hwalk _ => ?_
      · intro e' he'
        rw [he] at he'
        cases he'
        exact hwants
      · refine (wants_or_misnamed hd hq he hwalk).resolve_left ?_
        rw [hwants]
        exact Bool.false_ne_true

/-- How the reading of a path stands: it has not been looked up, and the paths that are indexed are
those of the inventory, or it has been, and they are those that it leaves. -/
def Stands (k : Keeper) (d : Disk) (q : String) (inv : OrderedMap String Entry) (looked : Bool)
    (s : Refreshing) : Prop :=
  s.base.Lasting ∧
    match looked with
    | false => s.turn = .ask (.lookUp q) (.lookingUp q) ∧
        ∀ r, s.base.index.entries.contains r = inv.contains r
    | true => ¬Looking s.turn ∧ Read k d q inv s.base.index.entries

include hd hq hinv in
theorem stands_step {looked : Bool} (hs : Stands k d q inv looked s) {a : Action}
    (ha : a.isQuiet = true) : Stands k d q inv (looked || a.isLook) (s.step d k a) := by
  obtain ⟨hbase, hs⟩ := hs
  cases a with
  | index a =>
    obtain ⟨hlasting, hentries⟩ := hbase.step (Index.Action.isLasting_of_isQuiet ha)
    rw [Index.entriesAfter_of_isQuiet _ ha] at hentries
    refine ⟨hlasting, ?_⟩
    change match looked || false with
      | false => s.turn = _ ∧ ∀ r, (s.base.step a).index.entries.contains r = _
      | true => ¬Looking s.turn ∧ Read k d q inv (s.base.step a).index.entries
    rw [Bool.or_false, hentries]
    exact hs
  | look now =>
    have hlooked : (looked || Action.isLook (.look now)) = true := Bool.or_true _
    rw [hlooked]
    cases looked with
    | false =>
      obtain ⟨hturn, hsame⟩ := hs
      simp only [step, hturn]
      exact read_look hd hq hinv hbase hsame now
    | true =>
      -- It has been looked up before.
      have hstep : s.step d k (.look now) = s := by
        simp only [step]
        split
        · next hturn =>
          rw [hturn] at hs
          exact absurd trivial hs.1
        · rfl
      rw [hstep]
      exact ⟨hbase, hs⟩
  | goOn =>
    have hlooked : (looked || Action.isLook .goOn) = looked := Bool.or_false _
    rw [hlooked]
    rcases s.step_goOn d k with hstep | ⟨hturn, result, hstep⟩
    · rw [hstep]
      exact ⟨hbase, hs⟩
    · rw [hstep]
      cases looked with
      | false =>
        rw [hs.1] at hturn
        exact absurd trivial hturn
      | true => exact ⟨hbase, id, hs.2⟩

include hd hq hinv in
theorem stands_run {looked : Bool} (hs : Stands k d q inv looked s) {actions : List Action}
    (hquiet : ∀ a ∈ actions, a.isQuiet = true) :
    Stands k d q inv (looked || actions.any Action.isLook) (s.run d k actions) := by
  induction actions generalizing s looked with
  | nil =>
    rw [List.any_nil, Bool.or_false]
    exact hs
  | cons a actions ih =>
    have hnext := stands_step hd hq hinv hs (hquiet a List.mem_cons_self)
    have hlater := ih hnext fun b hb => hquiet b (List.mem_cons_of_mem a hb)
    rw [List.any_cons, ← Bool.or_assoc]
    exact hlater

end Look

/-- Where the indexed paths are those of the inventory, reading a path anew leaves them so just if
the path is neither astray nor misnamed. One that is astray gets into the index, and one that is
misnamed out of it. The path may be spelled in any way, and at the index everything else but changes
of its entries may go on meanwhile. -/
theorem reading_keeps_paths_iff {d : Disk} (hd : d.tree.Proper) (k : Keeper) (p : String)
    {base : Index.Session} (hbase : base.Lasting) {inv : OrderedMap String Entry}
    (hinv : d.inventory k.filter k.root = .ok inv)
    (hsame : ∀ r, base.index.entries.contains r = inv.contains r) {actions : List Action}
    (hquiet : ∀ a ∈ actions, a.isQuiet = true) (hlook : ∃ a ∈ actions, a.isLook = true) :
    let q := Path.tidyJoin "/" p
    let m := ((start base k p).run d k actions).base.index.entries
    ((∀ r, m.contains r = inv.contains r) ↔ ¬k.Astray d q ∧ ¬k.Misnamed d q) ∧
      (k.Astray d q → ∀ r, m.contains r = true ↔ inv.contains r = true ∨ r = q) ∧
      (k.Misnamed d q → ∀ r, m.contains r = true ↔ inv.contains r = true ∧ r ≠ q) := by
  intro q m
  have hq : Path.isAbsolute q = true := Path.isAbsolute_tidyJoin p
  have hstart : Stands k d q inv false (start base k p) := ⟨hbase, rfl, hsame⟩
  have hend := stands_run hd hq hinv hstart hquiet
  rw [List.any_eq_true.mpr hlook, Bool.or_true] at hend
  have hread : Read k d q inv m := hend.2.2
  have hpresent (hmis : k.Misnamed d q) : inv.contains q = true :=
    (Disk.contains_inventory_iff hinv).mpr ⟨hmis.mem_walk hd, hmis.1⟩
  have habsent (hastray : k.Astray d q) : inv.contains q = false :=
    Bool.eq_false_iff.mpr fun h =>
      hastray.notMem_walk hd ((Disk.contains_inventory_iff hinv).mp h).1
  have hadded (hastray : k.Astray d q) (r : String) :
      m.contains r = true ↔ inv.contains r = true ∨ r = q := by
    -- A path of the inventory is not astray, so it is another one.
    have hmis : ¬k.Misnamed d q := fun hmis => by
      rw [habsent hastray] at hpresent
      cases hpresent hmis
    rw [hread]
    simp [hastray, hmis]
  have hlost (hmis : k.Misnamed d q) (r : String) :
      m.contains r = true ↔ inv.contains r = true ∧ r ≠ q := by
    have hastray : ¬k.Astray d q := fun hastray => by
      rw [habsent hastray] at hpresent
      cases hpresent hmis
    rw [hread]
    simp [hastray, hmis]
  refine ⟨⟨fun h => ⟨fun hastray => ?_, fun hmis => ?_⟩, ?_⟩, hadded, hlost⟩
  · have hmem := (hadded hastray q).mpr (.inr rfl)
    rw [h, habsent hastray] at hmem
    cases hmem
  · have hmem := (hlost hmis q).mp ((h q).trans (hpresent hmis))
    exact hmem.2 rfl
  · rintro ⟨hastray, hmis⟩ r
    rw [Bool.eq_iff_iff, hread]
    simp [hastray, hmis]

section Small

open Reconciliation (smallDisk)
open Index (smallIndex)

/-- A keeper of the text files below a root. -/
def small : Keeper :=
  ⟨"/r", "/r/index.json", [".txt"], [], 0, none, none, none, false, .free⟩

theorem proper_smallDisk (modified : Rat) : (smallDisk modified).tree.Proper := by
  have hplain : Path.IsPlain "r" ∧ Path.IsPlain "d" ∧ Path.IsPlain "a.txt" := by
    refine ⟨⟨⟨?_, ?_⟩, ?_, ?_⟩, ⟨⟨?_, ?_⟩, ?_, ?_⟩, ⟨⟨?_, ?_⟩, ?_, ?_⟩⟩ <;> decide
  have hdistinct (c : String × Tree) : (([c] : List (String × Tree)).map Prod.fst).Nodup :=
    List.pairwise_singleton _ _
  refine .dir _ (List.forall_mem_singleton.mpr hplain.1) (hdistinct _)
    (List.forall_mem_singleton.mpr ?_)
  refine .dir _ (List.forall_mem_singleton.mpr hplain.2.1) (hdistinct _)
    (List.forall_mem_singleton.mpr ?_)
  refine .dir _ (List.forall_mem_singleton.mpr hplain.2.2) (hdistinct _)
    (List.forall_mem_singleton.mpr ?_)
  exact .file _

theorem wantsExtension_small : small.filter.wantsExtension "/r/d/a.txt" = true := by
  decide +kernel

/-- The index holds what is on the disk. -/
theorem inventory_smallDisk :
    ∃ inv, (smallDisk 1700000000).inventory small.filter "/r" = .ok inv ∧
      ∀ r, smallIndex.index.entries.contains r = inv.contains r := by
  have hnamed := Reconciliation.named_smallDisk 1700000000
  have hwalk := Reconciliation.walk_smallDisk 1700000000 (f := small.filter) rfl
    wantsExtension_small
  have hdated := Reconciliation.dated_smallDisk (f := small.filter) rfl wantsExtension_small
  obtain ⟨inv, hinv, -⟩ := Disk.inventory_of_dated hnamed hdated
  refine ⟨inv, hinv, fun r => ?_⟩
  have hindexed : smallIndex.index.entries.contains r = true ↔ r = "/r/d" ∨ r = "/r/d/a.txt" := by
    constructor
    · intro hr
      rw [OrderedMap.contains_eq_isSome, Option.isSome_iff_ne_none] at hr
      exact Index.paths_smallIndex hr
    · rintro (rfl | rfl) <;> rfl
  have hfound : r ∈ (smallDisk 1700000000).walk small.filter true "/r" ↔
      r = "/r/d" ∨ r = "/r/d/a.txt" := by
    rw [hwalk, List.mem_cons, List.mem_singleton]
  rw [Bool.eq_iff_iff, hindexed, Disk.contains_inventory_iff hinv, ← hfound]
  exact ⟨fun hr => ⟨hr, (hdated r hr).entry (Disk.ne_empty_of_mem_walk hnamed hr) _⟩, And.left⟩

/-- The file is read anew while the index saves. -/
def fileRead : List Action :=
  [.index (.begin 0 .save), .look 5, .index (.resume 2 (.ok ())), .goOn]

theorem reaches_smallDisk : (smallDisk 1700000000).Reaches "/r" "/r/d/a.txt" ["d"] "a.txt"
    (.file (.text "x")) := by
  have hfind : (smallDisk 1700000000).find "/r" =
      .ok (.dir [("d", .dir [("a.txt", .file (.text "x"))])]) := by
    rw [Disk.find, (Reconciliation.find_smallDisk 1700000000 true).1]
  refine ⟨_, hfind, .deeper rfl (List.mem_singleton_self _) ?_, by decide⟩
  exact .last rfl (List.mem_singleton_self _)

/-- A path with slashes and dots to spare leads to the file in the directory, and reading it anew
changes nothing. -/
theorem reading_keeps_paths_iff_spelled :
    let m := ((start smallIndex small "r//d/./a.txt").run (smallDisk 1700000000) small
      fileRead).base.index.entries
    ∃ inv, (smallDisk 1700000000).inventory small.filter "/r" = .ok inv ∧
      ∀ r, m.contains r = inv.contains r := by
  intro m
  obtain ⟨inv, hinv, hsame⟩ := inventory_smallDisk
  have hquiet : ∀ a ∈ fileRead, a.isQuiet = true := by decide
  have hlook : ∃ a ∈ fileRead, a.isLook = true :=
    ⟨.look 5, List.mem_cons_of_mem _ List.mem_cons_self, rfl⟩
  have hpath : Path.tidyJoin "/" "r//d/./a.txt" = "/r/d/a.txt" := by decide +kernel
  refine ⟨inv, hinv, (reading_keeps_paths_iff (proper_smallDisk _) small "r//d/./a.txt"
    (Index.Session.lasting_of_idle Index.idle_smallIndex) hinv hsame hquiet hlook).1.mpr ?_⟩
  rw [hpath]
  refine ⟨fun hastray => hastray.2 _ _ _ reaches_smallDisk, ?_⟩
  rintro ⟨-, above, name, u, -, -, hname, -⟩
  exact absurd hname List.not_mem_nil

theorem astray_smallDisk : small.Astray (smallDisk 1700000000) "/r" := by
  obtain ⟨stamp, hstamp⟩ := Reconciliation.stampOf_plain
  have hmark : (smallDisk 1700000000).markOf "/r" = .plain := rfl
  have hstat : (smallDisk 1700000000).stat "/r" =
      .ok ⟨.directory, 0, 1700000000, 1700000000⟩ := by
    simp [Disk.stat, Disk.peek, Reconciliation.find_smallDisk, hmark, Mark.plain]
  have hdated : (smallDisk 1700000000).Dated "/r" := ⟨_, stamp, stamp, hstat, hstamp, hstamp⟩
  obtain ⟨e, he⟩ := hdated.entry (by decide) "/r"
  refine ⟨⟨e, he, ?_⟩, fun above name u hreaches => ?_⟩
  · obtain ⟨st, hst, -, hkind⟩ := Disk.entry_eq_ok he
    obtain rfl := Except.ok.inj (hst.symm.trans hstat)
    have hdirectory : e.isDirectory = true := decide_eq_true hkind
    obtain ⟨r, hr⟩ := Disk.relativeTo_ok (p := "/r") (by decide) "/r"
    have hexcludes : small.filter.excludes r = false :=
      List.any_eq_false.mpr fun _ _ => by simp [filter, small]
    have hroot : small.root = "/r" := rfl
    rw [wants, hroot, hr]
    dsimp only
    rw [hexcludes, hdirectory]
    rfl
  · -- The way would have no names.
    have hnames := congrArg List.length (hreaches.names (proper_smallDisk _))
    rw [show small.root = "/r" from rfl, List.length_append, List.length_append] at hnames
    simp at hnames

/-- The root itself is wanted as a directory, and gets into the index. -/
theorem root_read_is_indexed :
    ¬∀ (d : Disk) (k : Keeper) (p : String) (base : Index.Session) (inv : OrderedMap String Entry)
      (actions : List Action), d.tree.Proper → base.Lasting →
      d.inventory k.filter k.root = .ok inv →
      (∀ r, base.index.entries.contains r = inv.contains r) →
      (∀ a ∈ actions, a.isQuiet = true) → (∃ a ∈ actions, a.isLook = true) →
      ∀ r, ((start base k p).run d k actions).base.index.entries.contains r = inv.contains r := by
  intro hclaim
  obtain ⟨inv, hinv, hsame⟩ := inventory_smallDisk
  have hlasting := Index.Session.lasting_of_idle Index.idle_smallIndex
  have hkeys := hclaim (smallDisk 1700000000) small "/r" smallIndex inv [.look 5]
    (proper_smallDisk _) hlasting hinv hsame (by decide) ⟨.look 5, List.mem_cons_self, rfl⟩
  have hpath : Path.tidyJoin "/" "/r" = "/r" := by decide +kernel
  have hstart :
      Stands small (smallDisk 1700000000) "/r" inv false (start smallIndex small "/r") := by
    refine ⟨hlasting, ?_, hsame⟩
    rw [start, beginRefreshFile, hpath]
    rfl
  obtain ⟨-, -, hread⟩ :=
    stands_step (proper_smallDisk _) (by decide) hinv hstart (a := .look 5) rfl
  have hadded := (hread "/r").mpr (.inr ⟨astray_smallDisk, rfl⟩)
  have habsent := astray_smallDisk.notMem_walk (proper_smallDisk _)
  refine habsent ((Disk.contains_inventory_iff hinv).mp ?_).1
  rw [← hkeys "/r"]
  exact hadded

end Small

end Refreshing

end Keeper

end LiveIndex
