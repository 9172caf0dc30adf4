import LiveIndex.Proofs.Index.Content

/-! Updates one at a time, and the same updates as one batch in which only the last one of each
path counts and all removals come last. The two agree as long as no removal of a directory meets
what the batch has lost of it. -/

namespace LiveIndex.Index

/-- An entry that is to be stored, or a path that is to be removed with its family. -/
inductive Update
  | store (e : Entry)
  | remove (path : String)

namespace Update

def path : Update → String
  | store e => e.path
  | remove path => path

def isRemoval : Update → Bool
  | store _ => false
  | remove _ => true

/-- The update of a path that comes last. -/
def last (us : List Update) (p : String) : Option Update :=
  us.reverse.find? (·.path = p)

variable {us before after : List Update} {u : Update} {p : String}

theorem last_concat (us : List Update) (u : Update) (p : String) :
    last (us ++ [u]) p = if u.path = p then some u else last us p := by
  rw [last, List.reverse_append, List.reverse_singleton, List.singleton_append, List.find?_cons]
  by_cases h : u.path = p <;> simp [h, last]

theorem last_eq_some_iff : last us p = some u ↔
    u.path = p ∧ ∃ before after, us = before ++ u :: after ∧ ∀ v ∈ after, v.path ≠ p := by
  rw [last, List.find?_eq_some_iff_append]
  constructor
  · rintro ⟨hpath, as, bs, hsplit, hnone⟩
    refine ⟨of_decide_eq_true hpath, bs.reverse, as.reverse, ?_, ?_⟩
    · rw [← us.reverse_reverse, hsplit]
      simp
    · intro v hv
      simpa using hnone v (List.mem_reverse.mp hv)
  · rintro ⟨hpath, before, after, rfl, hnone⟩
    refine ⟨decide_eq_true hpath, after.reverse, before.reverse, by simp, ?_⟩
    intro v hv
    simpa using hnone v (List.mem_reverse.mp hv)

theorem last_eq_none_iff : last us p = none ↔ ∀ u ∈ us, u.path ≠ p := by
  simp [last]

end Update

open Update

/-- Makes one update. -/
def apply (s : Index) : Update → Index
  | .store e => (s.upsert e).1
  | .remove path => (s.removeFamily path).1

/-- Makes updates one after another. -/
def applyAll (s : Index) (us : List Update) : Index :=
  us.foldl apply s

variable {s : Index} {us us' before after : List Update} {p q : String}

theorem applyAll_append (s : Index) (us vs : List Update) :
    s.applyAll (us ++ vs) = (s.applyAll us).applyAll vs :=
  List.foldl_append

theorem applyAll_cons (s : Index) (u : Update) (us : List Update) :
    s.applyAll (u :: us) = (s.apply u).applyAll us := rfl

/-- Updates look at the entries only. -/
theorem apply_congr {t : Index} (h : s.entries = t.entries) (u : Update) :
    (s.apply u).entries = (t.apply u).entries := by
  cases u with
  | store e =>
    change (s.upsert e).1.entries = (t.upsert e).1.entries
    have hstore : (s.store e).entries = (t.store e).entries := congrArg (·.insert e.path e) h
    unfold upsert
    rw [h]
    cases t.entries.get? e.path with
    | none => exact hstore
    | some old =>
      dsimp only
      split
      · exact h
      · exact hstore
  | remove path => exact removeAll_congr h [path]

/-- What is not there does not come back unless it is stored again. -/
theorem get?_applyAll_of_absent (hp : s.entries.get? p = none)
    (hus : ∀ e, .store e ∈ us → e.path ≠ p) : (s.applyAll us).entries.get? p = none := by
  induction us generalizing s with
  | nil => exact hp
  | cons u us ih =>
    refine ih ?_ fun e he => hus e (List.mem_cons_of_mem _ he)
    cases u with
    | store e => rw [apply, get?_upsert, if_neg (hus e List.mem_cons_self), hp]
    | remove q =>
      rw [apply]
      by_cases htakes : s.Takes q p
      · exact get?_removeFamily_of_takes htakes
      · rw [get?_removeFamily_of_not_takes htakes, hp]

/-- What is there stays as it is until it is stored again or a removal takes it. -/
theorem get?_applyAll_of_kept (hus : ∀ e, .store e ∈ us → e.path ≠ p)
    (hkept : ∀ before q after, us = before ++ .remove q :: after →
      ¬(s.applyAll before).Takes q p) :
    (s.applyAll us).entries.get? p = s.entries.get? p := by
  induction us generalizing s with
  | nil => rfl
  | cons u us ih =>
    have hrest : ((s.apply u).applyAll us).entries.get? p = (s.apply u).entries.get? p := by
      refine ih (fun e he => hus e (List.mem_cons_of_mem _ he)) ?_
      rintro before q after rfl
      exact hkept (u :: before) q after rfl
    rw [applyAll_cons, hrest]
    cases u with
    | store e => rw [apply, get?_upsert, if_neg (hus e List.mem_cons_self)]
    | remove q => exact get?_removeFamily_of_not_takes (hkept [] q us rfl)

/-- What is there at some time was there at the beginning, or it was stored. -/
theorem origin_of_get? {e : Entry} (he : (s.applyAll us).entries.get? p = some e) :
    s.entries.get? p = some e ∨ ∃ e', .store e' ∈ us ∧ e'.path = p ∧ e.same e' = true := by
  induction us using List.reverseRecOn with
  | nil => exact .inl he
  | append_singleton us u ih =>
    have hlater : (s.applyAll us).entries.get? p = some e → s.entries.get? p = some e ∨
        ∃ e', .store e' ∈ us ++ [u] ∧ e'.path = p ∧ e.same e' = true := by
      intro hbefore
      rcases ih hbefore with hfirst | ⟨e', he', hstored⟩
      · exact .inl hfirst
      · exact .inr ⟨e', List.mem_append_left _ he', hstored⟩
    rw [applyAll_append] at he
    change ((s.applyAll us).apply u).entries.get? p = some e at he
    cases u with
    | store e' =>
      rw [apply, get?_upsert] at he
      split at he
      · next hpath =>
        cases he
        exact .inr ⟨e', List.mem_append_right _ List.mem_cons_self, hpath, settled_same ..⟩
      · exact hlater he
    | remove q =>
      rw [apply] at he
      by_cases htakes : (s.applyAll us).Takes q p
      · rw [get?_removeFamily_of_takes htakes] at he
        cases he
      · rw [get?_removeFamily_of_not_takes htakes] at he
        exact hlater he

/-- What was there and is there no longer was taken by a removal. -/
theorem taken_of_absent (hp : s.entries.get? p ≠ none)
    (habsent : (s.applyAll us).entries.get? p = none) :
    ∃ before q after, us = before ++ .remove q :: after ∧ (s.applyAll before).Takes q p := by
  induction us generalizing s with
  | nil => exact absurd habsent hp
  | cons u us ih =>
    -- It goes with the first update after which it is not there.
    by_cases hnext : (s.apply u).entries.get? p = none
    · refine ⟨[], ?_⟩
      cases u with
      | store e =>
        rw [apply, get?_upsert] at hnext
        split at hnext
        · cases hnext
        · exact absurd hnext hp
      | remove q =>
        refine ⟨q, us, rfl, ?_⟩
        by_contra htakes
        have hkept := get?_removeFamily_of_not_takes (s := s) htakes
        rw [apply, hkept] at hnext
        exact hp hnext
    · obtain ⟨before, q, after, rfl, htakes⟩ := ih hnext habsent
      exact ⟨u :: before, q, after, rfl, htakes⟩

/-- A removal of a directory that is one from the beginning and that nothing is stored in any
more. -/
structure Final (s : Index) (us : List Update) (q : String) (after : List Update) : Prop where
  indexed : ∃ e, s.entries.get? q = some e ∧ e.isDirectory = true
  stored : ∀ e, .store e ∈ us → e.path = q → e.isDirectory = true
  after : ∀ e, .store e ∈ after → e.path ≠ q ∧ Path.isBeneath q e.path = false

/-- Whenever such a directory is there, it is there as a directory. -/
theorem Final.isDirectory (h : Final s us q after) (hmem : ∀ u ∈ before, u ∈ us) {d : Entry}
    (hd : (s.applyAll before).entries.get? q = some d) : d.isDirectory = true := by
  rcases origin_of_get? hd with hfirst | ⟨e, he, hpath, hsame⟩
  · obtain ⟨e, he, hdirectory⟩ := h.indexed
    cases he.symm.trans hfirst
    exact hdirectory
  · rw [Entry.isDirectory_of_same hsame]
    exact h.stored e (hmem _ he) hpath

/-- A removal that a batch may make at its end: it is of no directory, or nothing is stored there
any more, or all that is beneath is removed anyway. -/
inductive Harmless (s : Index) (us : List Update) (q : String) (after : List Update) : Prop
  | plain (hindexed : ∀ e, s.entries.get? q = some e → e.isDirectory = false)
      (hstored : ∀ e, .store e ∈ us → e.path = q → e.isDirectory = false)
  | final (hfinal : Final s us q after)
  | empty (hempty : ∀ p, Path.isBeneath q p = true →
      (s.entries.get? p ≠ none ∨ ∃ e, .store e ∈ us ∧ e.path = p) →
      last us p = some (.remove p))

/-- Updates of which all removals are harmless. -/
def Orderly (s : Index) (us : List Update) : Prop :=
  ∀ before q after, us = before ++ .remove q :: after → Harmless s us q after

/-- What is gone at the end: what is removed last, and what is beneath a directory that is removed
for good. -/
inductive Gone (s : Index) (us : List Update) (p : String) : Prop
  | removed (hlast : last us p = some (.remove p))
  | swept (before : List Update) (q : String) (after : List Update)
      (hsplit : us = before ++ .remove q :: after) (hfinal : Final s us q after)
      (hbeneath : Path.isBeneath q p = true)

theorem get?_apply_remove (s : Index) (p : String) :
    (s.apply (.remove p)).entries.get? p = none := by
  rw [apply]
  by_cases htakes : s.Takes p p
  · exact get?_removeFamily_of_takes htakes
  · rw [get?_removeFamily_of_not_takes htakes]
    cases hp : s.entries.get? p with
    | none => rfl
    | some e => exact absurd ⟨e, hp, .inl rfl⟩ htakes

theorem get?_applyAll_of_removed (hlast : last us p = some (.remove p)) :
    (s.applyAll us).entries.get? p = none := by
  obtain ⟨-, before, after, rfl, hnone⟩ := last_eq_some_iff.mp hlast
  rw [applyAll_append, applyAll_cons]
  exact get?_applyAll_of_absent (get?_apply_remove ..) fun e he => hnone (.store e) he

/-- A directory that is there when it is removed leaves nothing beneath it at the end. -/
theorem get?_applyAll_of_beneath (h : Orderly s us) (hsplit : us = before ++ .remove q :: after)
    {d : Entry} (hd : (s.applyAll before).entries.get? q = some d)
    (hdirectory : d.isDirectory = true) (hbeneath : Path.isBeneath q p = true) :
    (s.applyAll us).entries.get? p = none := by
  cases h before q after hsplit with
  | plain hindexed hstored =>
    -- A directory is there because it was or because it was stored.
    exfalso
    rcases origin_of_get? hd with hfirst | ⟨e, he, hpath, hsame⟩
    · rw [hindexed d hfirst] at hdirectory
      cases hdirectory
    · have hmem : .store e ∈ us := by
        rw [hsplit]
        exact List.mem_append_left _ he
      rw [Entry.isDirectory_of_same hsame, hstored e hmem hpath] at hdirectory
      cases hdirectory
  | final hfinal =>
    have htakes : (s.applyAll before).Takes q p := ⟨d, hd, .inr ⟨hdirectory, hbeneath⟩⟩
    rw [hsplit, applyAll_append, applyAll_cons]
    refine get?_applyAll_of_absent (get?_removeFamily_of_takes htakes) ?_
    rintro e he rfl
    rw [(hfinal.after e he).2] at hbeneath
    cases hbeneath
  | empty hempty =>
    -- What is beneath has never been there, or its own removal is the last of it.
    by_cases hever : s.entries.get? p ≠ none ∨ ∃ e, .store e ∈ us ∧ e.path = p
    · exact get?_applyAll_of_removed (hempty p hbeneath hever)
    · rw [not_or, not_not, not_exists] at hever
      exact get?_applyAll_of_absent hever.1 fun e he hpath => hever.2 e ⟨he, hpath⟩

theorem get?_applyAll_of_gone (h : Orderly s us) (hgone : Gone s us p) :
    (s.applyAll us).entries.get? p = none := by
  cases hgone with
  | removed hlast => exact get?_applyAll_of_removed hlast
  | swept before q after hsplit hfinal hbeneath =>
    have hbefore : ∀ u ∈ before, u ∈ us := by
      rw [hsplit]
      exact fun u hu => List.mem_append_left _ hu
    cases hd : (s.applyAll before).entries.get? q with
    | some d =>
      exact get?_applyAll_of_beneath h hsplit hd (hfinal.isDirectory hbefore hd) hbeneath
    | none =>
      -- Something took the directory before, and with it all that is beneath.
      obtain ⟨e, he, -⟩ := hfinal.indexed
      obtain ⟨first, q', rest, hfirst, d, hd', htaken⟩ :=
        taken_of_absent (by rw [he]; exact Option.some_ne_none e) hd
      have hsplit' : us = first ++ .remove q' :: (rest ++ .remove q :: after) := by
        rw [hsplit, hfirst, List.append_assoc, List.cons_append]
      rcases htaken with rfl | ⟨hdirectory, habove⟩
      · have hmem : ∀ u ∈ first, u ∈ us := by
          rw [hsplit']
          exact fun u hu => List.mem_append_left _ hu
        exact get?_applyAll_of_beneath h hsplit' hd' (hfinal.isDirectory hmem hd') hbeneath
      · exact get?_applyAll_of_beneath h hsplit' hd' hdirectory
          (Path.isBeneath_trans habove hbeneath)

/-- What is not gone is not beneath any directory that is removed, if it ever was there. -/
theorem not_beneath_of_not_gone (h : Orderly s us) (hgone : ¬Gone s us p)
    (hever : s.entries.get? p ≠ none ∨ ∃ e, .store e ∈ us ∧ e.path = p)
    (hsplit : us = before ++ .remove q :: after) (hmem : ∀ u ∈ us', u ∈ us) {d : Entry}
    (hd : (s.applyAll us').entries.get? q = some d) (hdirectory : d.isDirectory = true) :
    Path.isBeneath q p = false := by
  cases h before q after hsplit with
  | plain hindexed hstored =>
    exfalso
    rcases origin_of_get? hd with hfirst | ⟨e, he, hpath, hsame⟩
    · rw [hindexed d hfirst] at hdirectory
      cases hdirectory
    · rw [Entry.isDirectory_of_same hsame, hstored e (hmem _ he) hpath] at hdirectory
      cases hdirectory
  | final hfinal =>
    rw [Bool.eq_false_iff]
    exact fun hbeneath => hgone (.swept before q after hsplit hfinal hbeneath)
  | empty hempty =>
    rw [Bool.eq_false_iff]
    exact fun hbeneath => hgone (.removed (hempty p hbeneath hever))

/-- Of what is not gone, what is not updated is kept. -/
theorem get?_applyAll_of_untouched (h : Orderly s us) (hgone : ¬Gone s us p)
    (hlast : last us p = none) : (s.applyAll us).entries.get? p = s.entries.get? p := by
  have hnone := last_eq_none_iff.mp hlast
  have hstores : ∀ e, .store e ∈ us → e.path ≠ p := fun e he => hnone (.store e) he
  cases hp : s.entries.get? p with
  | none => exact get?_applyAll_of_absent hp hstores
  | some e =>
    rw [← hp]
    refine get?_applyAll_of_kept hstores ?_
    rintro before q after hsplit ⟨d, hd, rfl | ⟨hdirectory, hbeneath⟩⟩
    · exact hnone (.remove p) (by rw [hsplit]; simp) rfl
    · have hbefore : ∀ u ∈ before, u ∈ us := by
        rw [hsplit]
        exact fun u hu => List.mem_append_left _ hu
      have hever : s.entries.get? p ≠ none := by
        rw [hp]
        exact Option.some_ne_none e
      rw [not_beneath_of_not_gone h hgone (.inl hever) hsplit hbefore hd hdirectory] at hbeneath
      cases hbeneath

/-- Of what is not gone, what is stored holds the entry that was stored last. -/
theorem get?_applyAll_of_stored (h : Orderly s us) (hgone : ¬Gone s us p) {e : Entry}
    (hlast : last us p = some (.store e)) :
    ∃ e', (s.applyAll us).entries.get? p = some e' ∧ e'.same e = true := by
  obtain ⟨rfl, before, after, hus, hnone⟩ := last_eq_some_iff.mp hlast
  have hall : s.applyAll us = ((s.applyAll before).apply (.store e)).applyAll after := by
    rw [hus, applyAll_append, applyAll_cons]
  have hstored : ((s.applyAll before).apply (.store e)).entries.get? e.path =
      some (settled ((s.applyAll before).entries.get? e.path) e) := by
    rw [apply, get?_upsert, if_pos rfl]
  refine ⟨_, ?_, settled_same ((s.applyAll before).entries.get? e.path) e⟩
  rw [hall, ← hstored]
  refine get?_applyAll_of_kept (fun e' he' => hnone (.store e') he') ?_
  rintro middle q rest hsplit ⟨d, hd, hpath | ⟨hdirectory, hbeneath⟩⟩
  · exact hnone (.remove q) (by rw [hsplit]; simp) hpath.symm
  · have hsplit' : us = (before ++ .store e :: middle) ++ .remove q :: rest := by
      rw [hus, hsplit, List.append_assoc, List.cons_append]
    have hbefore : ∀ u ∈ before ++ .store e :: middle, u ∈ us := by
      rw [hsplit']
      exact fun u hu => List.mem_append_left _ hu
    have hmem : .store e ∈ us := by
      rw [hus]
      exact List.mem_append_right _ List.mem_cons_self
    rw [← applyAll_cons, ← applyAll_append] at hd
    rw [not_beneath_of_not_gone h hgone (.inr ⟨e, hmem, rfl⟩) hsplit' hbefore hd hdirectory]
      at hbeneath
    cases hbeneath

/-- What is left of updates if only the last one of each path counts: the entries to be stored, and
the paths to be removed after that. -/
structure Coalesced (us : List Update) (stores : List Entry) (removals : List String) : Prop where
  distinct : (stores.map Entry.path).Nodup
  mem_stores : ∀ e, e ∈ stores ↔ last us e.path = some (.store e)
  mem_removals : ∀ p, p ∈ removals ↔ last us p = some (.remove p)

variable {stores : List Entry} {removals : List String}

theorem get?_upsertAll_of_coalesced_store (hc : Coalesced us stores removals) {e : Entry}
    (hlast : last us p = some (.store e)) : (s.upsertAll stores).1.entries.get? p =
      some (settled (s.entries.get? p) e) := by
  obtain ⟨rfl, -⟩ := last_eq_some_iff.mp hlast
  exact get?_upsertAll_of_mem hc.distinct ((hc.mem_stores e).mpr hlast)

theorem get?_upsertAll_of_coalesced (hc : Coalesced us stores removals)
    (hlast : ∀ e, last us p ≠ some (.store e)) :
    (s.upsertAll stores).1.entries.get? p = s.entries.get? p := by
  refine get?_upsertAll_of_notMem fun hp => ?_
  obtain ⟨e, he, rfl⟩ := List.mem_map.mp hp
  exact hlast e ((hc.mem_stores e).mp he)

theorem get?_upsertAll_of_mem_removals (hc : Coalesced us stores removals)
    (hq : q ∈ removals) : (s.upsertAll stores).1.entries.get? q = s.entries.get? q := by
  refine get?_upsertAll_of_coalesced hc fun e he => ?_
  rw [(hc.mem_removals q).mp hq] at he
  cases he

/-- After the removal of a directory for good nothing is stored there. -/
theorem Final.last_eq (h : Final s us q after) (hsplit : us = before ++ .remove q :: after) :
    last us q = some (.remove q) := by
  have hstores : ∀ e, .store e ∈ after → e.path ≠ q := fun e he => (h.after e he).1
  clear h
  subst hsplit
  induction after using List.reverseRecOn with
  | nil => rw [last_concat, Update.path, if_pos rfl]
  | append_singleton after u ih =>
    have hlater : last (before ++ .remove q :: after) q = some (.remove q) :=
      ih fun e he => hstores e (List.mem_append_left _ he)
    rw [← List.cons_append, ← List.append_assoc, last_concat, hlater]
    cases u with
    | store e =>
      rw [Update.path, if_neg (hstores e (List.mem_append_right _ List.mem_cons_self))]
    | remove q' =>
      rw [Update.path]
      split
      · next hpath => rw [hpath]
      · rfl

theorem get?_batch_of_gone (hc : Coalesced us stores removals) (hgone : Gone s us p) :
    ((s.upsertAll stores).1.removeAll removals).entries.get? p = none := by
  cases hgone with
  | removed hlast =>
    have hp := (hc.mem_removals p).mpr hlast
    have hkept := get?_upsertAll_of_mem_removals (s := s) hc hp
    cases hindexed : s.entries.get? p with
    | none => exact get?_removeAll_of_absent (hkept.trans hindexed)
    | some e => exact get?_removeAll_of_takes ⟨p, hp, e, hkept.trans hindexed, .inl rfl⟩
  | swept before q after hsplit hfinal hbeneath =>
    obtain ⟨d, hd, hdirectory⟩ := hfinal.indexed
    have hq := (hc.mem_removals q).mpr (hfinal.last_eq hsplit)
    refine get?_removeAll_of_takes ⟨q, hq, d, ?_, .inr ⟨hdirectory, hbeneath⟩⟩
    rw [get?_upsertAll_of_mem_removals hc hq, hd]

theorem get?_batch_of_not_gone (h : Orderly s us) (hc : Coalesced us stores removals)
    (hgone : ¬Gone s us p)
    (hever : s.entries.get? p ≠ none ∨ ∃ e, .store e ∈ us ∧ e.path = p) :
    ((s.upsertAll stores).1.removeAll removals).entries.get? p =
      (s.upsertAll stores).1.entries.get? p := by
  refine get?_removeAll_of_not_takes ?_
  rintro q hq ⟨d, hd, rfl | ⟨hdirectory, hbeneath⟩⟩
  · exact hgone (.removed ((hc.mem_removals p).mp hq))
  · obtain ⟨-, before, after, hsplit, -⟩ := last_eq_some_iff.mp ((hc.mem_removals q).mp hq)
    rw [get?_upsertAll_of_mem_removals hc hq] at hd
    have hplain := not_beneath_of_not_gone h hgone hever hsplit
      (fun u hu => absurd hu (List.not_mem_nil (a := u))) hd hdirectory
    rw [hplain] at hbeneath
    cases hbeneath

/-- Two maps hold at each path entries that say the same, or none both. -/
def Agree (m n : OrderedMap String Entry) : Prop :=
  ∀ p, Option.Rel (fun a b => a.same b = true) (m.get? p) (n.get? p)

/-- Maps that agree have the same keys. -/
theorem Agree.contains_eq {m n : OrderedMap String Entry} (h : Agree m n) (p : String) :
    m.contains p = n.contains p := by
  have hp := h p
  rw [OrderedMap.contains_eq_isSome, OrderedMap.contains_eq_isSome]
  generalize m.get? p = v, n.get? p = w at hp
  cases hp with
  | none => rfl
  | some hsame => rfl

/-- A batch of orderly updates leaves what they leave one after another. -/
theorem agree_of_orderly (h : Orderly s us) (hc : Coalesced us stores removals) :
    Agree (s.applyAll us).entries ((s.upsertAll stores).1.removeAll removals).entries := by
  intro p
  by_cases hgone : Gone s us p
  · -- It is absent at the end either way.
    rw [get?_applyAll_of_gone h hgone, get?_batch_of_gone hc hgone]
    exact .none
  · cases hlast : last us p with
    | none =>
      -- Nothing is said of it, so both ways keep what is there.
      have hkept : (s.upsertAll stores).1.entries.get? p = s.entries.get? p :=
        get?_upsertAll_of_coalesced hc fun e he => by rw [hlast] at he; cases he
      rw [get?_applyAll_of_untouched h hgone hlast]
      cases hp : s.entries.get? p with
      | none =>
        rw [get?_removeAll_of_absent (hkept.trans hp)]
        exact .none
      | some e =>
        have hever : s.entries.get? p ≠ none := by
          rw [hp]
          exact Option.some_ne_none e
        rw [get?_batch_of_not_gone h hc hgone (.inl hever), hkept, hp]
        exact .some e.same_refl
    | some u =>
      obtain ⟨hpath, before, after, hsplit, -⟩ := last_eq_some_iff.mp hlast
      cases u with
      | remove q =>
        obtain rfl : q = p := hpath
        exact absurd (.removed hlast) hgone
      | store e =>
        -- Each way may have kept an older entry, but only one that says the same as the last.
        have hmem : .store e ∈ us := by
          rw [hsplit]
          exact List.mem_append_right _ List.mem_cons_self
        obtain ⟨e', he', hsame⟩ := get?_applyAll_of_stored h hgone hlast
        rw [he', get?_batch_of_not_gone h hc hgone (.inr ⟨e, hmem, hpath⟩),
          get?_upsertAll_of_coalesced_store hc hlast]
        exact .some (Entry.same_trans hsame (Entry.same_symm (settled_same ..)))

end LiveIndex.Index
