import LiveIndex.Proofs.Path.Beneath
import LiveIndex.Proofs.Watch.Debounce

/-! What becomes of pending events when a path is not watched any more. The events at and below it
go, and all others keep what they are and when they are due. This also takes away events of paths
that are still watched, where the watched paths lie within each other. -/

namespace LiveIndex.Watch

variable {w : Watch} {timers : List Timer} {tr : List Item} {debounce due : Int} {e : Event}
  {path : String} {s : Session}

/-- Some watched path is a path, or above it. -/
def Observes (w : Watch) (p : String) : Prop :=
  ∃ dir ∈ w.watchedPaths, touches dir p = true

/-- An event is pending in a session, and its timer is due at a time. -/
def Session.Pends (s : Session) (e : Event) (due : Int) : Prop :=
  ∃ ticket, s.watch.pending.get? e.path = some (e, ticket) ∧ ⟨ticket, e.path, due⟩ ∈ s.timers

/-- Watched paths that have a path below them in common lie within each other. -/
theorem touches_of_common {a b p : String} (ha : touches a p = true) (hb : touches b p = true) :
    touches a b = true ∨ touches b a = true := by
  simp only [touches, Bool.or_eq_true, decide_eq_true_eq] at ha hb ⊢
  rcases ha with rfl | ha
  · exact .inr hb
  · rcases hb with rfl | hb
    · exact .inl (.inr ha)
    · rcases Path.eq_or_isBeneath_of_common ha hb with rfl | hab | hba
      · exact .inl (.inl rfl)
      · exact .inl (.inr hab)
      · exact .inr (.inr hba)

/-- An event that is pending stands in the record. -/
theorem Tracks.pends_iff (h : Tracks debounce s.watch s.timers s.trace) :
    s.Pends e due ↔ ∃ q ∈ standing s.trace, q.event = e ∧ q.time + debounce = due := by
  constructor
  · rintro ⟨ticket, hget, htimer⟩
    obtain ⟨q, hq, -, he, hticket⟩ := h.get?_iff.mp hget
    obtain ⟨p, hp, htimer, -⟩ := h.pending_of_timer htimer
    obtain ⟨hticket', -, rfl⟩ := Timer.mk.inj htimer
    obtain rfl : q = p := h.lawful.standing_inj hq hp (hticket.trans hticket')
    exact ⟨q, hq, he, rfl⟩
  · rintro ⟨q, hq, rfl, rfl⟩
    refine ⟨q.ticket, h.get?_iff.mpr ⟨q, hq, rfl, rfl, rfl⟩, ?_⟩
    rw [h.timers]
    exact List.mem_map_of_mem hq

theorem mem_standing_unwatch {q : Queued} : q ∈ standing (tr ++ w.unwatchItems path) ↔
    q ∈ standing tr ∧ ¬(path ∈ w.extraPaths ∧ touches path q.event.path = true) := by
  by_cases hmem : path ∈ w.extraPaths
  · rw [unwatchItems, if_pos hmem, standing_concat_of rfl, List.mem_filter, and_iff_right hmem]
    change _ ∧ (!touches path q.event.path) = true ↔ _
    rw [Bool.not_eq_true', Bool.not_eq_true]
  · rw [unwatchItems, if_neg hmem, List.append_nil]
    exact (and_iff_left fun h => hmem h.1).symm

namespace Session

theorem step_unwatch_trace (s : Session) (path : String) :
    (s.step (.unwatchPath path)).trace = s.trace ++ s.watch.unwatchItems path :=
  change_trace ..

/-- An event stays pending unless it is at or below a path that is given up. -/
theorem Sound.pends_unwatch (h : s.Sound debounce) (path : String) (e : Event) (due : Int) :
    (s.step (.unwatchPath path)).Pends e due ↔
      s.Pends e due ∧ ¬(path ∈ s.watch.extraPaths ∧ touches path e.path = true) := by
  rw [(h.step (.unwatchPath path)).tracks.pends_iff, h.tracks.pends_iff, step_unwatch_trace]
  constructor
  · rintro ⟨q, hq, rfl, hdue⟩
    obtain ⟨hq, hkept⟩ := mem_standing_unwatch.mp hq
    exact ⟨⟨q, hq, rfl, hdue⟩, hkept⟩
  · rintro ⟨⟨q, hq, rfl, hdue⟩, hkept⟩
    exact ⟨q, mem_standing_unwatch.mpr ⟨hq, hkept⟩, rfl, hdue⟩

/-- Giving up a watched path takes away just the pending events at and below it; the others are due
when they were. Where no other watched path lies within it or around it, no path that is still
watched loses its event. -/
theorem unwatched_events (root : String) (filter : Filter) (debounce : Int) (ignoreInitial : Bool)
    (options : Feed.Options) (actions : List Action) (path : String) :
    let s := (fresh root filter debounce ignoreInitial options).run actions
    let t := s.step (.unwatchPath path)
    (∀ e due, t.Pends e due ↔
        s.Pends e due ∧ ¬(path ∈ s.watch.extraPaths ∧ touches path e.path = true)) ∧
      ((path ∈ s.watch.extraPaths → ∀ dir ∈ t.watch.watchedPaths,
          touches path dir = false ∧ touches dir path = false) →
        ∀ e due, s.Pends e due → t.watch.Observes e.path → t.Pends e due) := by
  intro s t
  have hsound : s.Sound debounce :=
    (sound_fresh root filter debounce ignoreInitial options).run actions
  have hpends := hsound.pends_unwatch path
  refine ⟨hpends, fun hapart e due hpending hobserves => (hpends e due).mpr ⟨hpending, ?_⟩⟩
  rintro ⟨hmem, htouched⟩
  obtain ⟨dir, hdir, hobserved⟩ := hobserves
  obtain ⟨hwithin, haround⟩ := hapart hmem dir hdir
  rcases touches_of_common htouched hobserved with h | h
  · rw [hwithin] at h
    cases h
  · rw [haround] at h
    cases h

/-- What a small watch comes to that also watches a path, and is told that files are gone. -/
def alsoWatching (path : String) (gone : List String) : List Action :=
  [ .start, .resume 0 (.walked 0 (.ok [])), .resume 0 (.served 0 (.ok ())), .addPath path,
    .report 5 ⟨.dir [], []⟩ (gone.map fun p => ⟨.deleted, p⟩)]

/-- Apart from the root there is nothing to be lost. -/
theorem unwatched_events_apart :
    let s := (smallWatch true).run (alsoWatching "/x" ["/r/a.txt", "/x/b.txt"])
    let t := s.step (.unwatchPath "/x")
    (∀ dir ∈ t.watch.watchedPaths, touches "/x" dir = false ∧ touches dir "/x" = false) ∧
      t.Pends ⟨.remove, "/r/a.txt", "a.txt", false, ".txt", 5⟩ 300 ∧
      s.Pends ⟨.remove, "/x/b.txt", "../x/b.txt", false, ".txt", 5⟩ 300 ∧
      ¬t.Pends ⟨.remove, "/x/b.txt", "../x/b.txt", false, ".txt", 5⟩ 300 := by
  intro s t
  obtain ⟨hpends, hkept⟩ := unwatched_events "/r" ⟨none, []⟩ 300 true .default
    (alsoWatching "/x" ["/r/a.txt", "/x/b.txt"]) "/x"
  have hapart : ∀ dir ∈ t.watch.watchedPaths,
      touches "/x" dir = false ∧ touches dir "/x" = false := by
    decide +kernel
  have hroot : s.Pends ⟨.remove, "/r/a.txt", "a.txt", false, ".txt", 5⟩ 300 :=
    ⟨0, by decide +kernel, by decide +kernel⟩
  refine ⟨hapart, hkept (fun _ => hapart) _ _ hroot ⟨"/r", by decide +kernel, by decide⟩,
    ⟨1, by decide +kernel, by decide +kernel⟩, fun hpends' => ?_⟩
  exact ((hpends _ _).mp hpends').2 ⟨by decide +kernel, by decide⟩

/-- A path within the root takes the event of a file along that the root still watches. -/
theorem unwatching_loses_event :
    let s := (smallWatch true).run (alsoWatching "/r/sub" ["/r/sub/a.txt"])
    let t := s.step (.unwatchPath "/r/sub")
    s.Pends ⟨.remove, "/r/sub/a.txt", "sub/a.txt", false, ".txt", 5⟩ 300 ∧
      t.watch.Observes "/r/sub/a.txt" ∧ t.watch.running = true ∧
      ∀ e due, e.path = "/r/sub/a.txt" → ¬t.Pends e due := by
  intro s t
  refine ⟨⟨0, by decide +kernel, by decide +kernel⟩, ⟨"/r", by decide +kernel, by decide⟩,
    by decide +kernel, ?_⟩
  rintro e due hpath ⟨ticket, hget, -⟩
  have hnone : t.watch.pending.get? "/r/sub/a.txt" = none := by decide +kernel
  rw [hpath, hnone] at hget
  cases hget

end Session

end LiveIndex.Watch
