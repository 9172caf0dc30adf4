import LiveIndex.Proofs.Index.Deliveries
import LiveIndex.World.Index

/-! Listeners that keep up with an index. Batches, removals and single entries tell of what they
have done before anything else can happen, so a copy of the entries that follows what it is told has
the entries at any time, whatever comes of the saves. -/

namespace LiveIndex

namespace Index.Session

variable {s : Session}

/-- A listener is told of an action once if there is something to tell, and else not at all. -/
theorem toldTo_step (hnodup : s.index.listeners.Nodup) {l : Listener}
    (hl : l ∈ s.index.listeners) (a : Action) :
    (s.step a).toldTo l =
      s.toldTo l ++ if s.index.changes a = [] then [] else [s.index.changes a] := by
  rw [toldTo, (s.relays_step a).told, List.reverse_append, List.reverse_reverse, List.filter_append,
    List.map_append, toldTo, deliveredIn]
  split
  · rfl
  · have hone : (s.index.listeners.map fun l' => (l', s.index.changes a)).filter
        (fun delivery => delivery.1 = l) = [(l, s.index.changes a)] := by
      rw [List.filter_map]
      change (s.index.listeners.filter fun l' => l' = l).map _ = _
      rw [List.filter_eq, List.count_eq_one_of_mem hnodup hl]
      rfl
    rw [hone]
    rfl

/-- The listeners that were there at the start have kept up with the entries. -/
structure KeptUp (start s : Session) : Prop where
  lasting : s.Lasting
  consistent : s.index.Consistent
  nodup : s.index.listeners.Nodup
  listeners : s.index.listeners = start.index.listeners
  followed : ∀ l ∈ start.index.listeners, ∃ lists, s.toldTo l = start.toldTo l ++ lists ∧
    Notice.followAll start.index.entries lists.flatten = s.index.entries

theorem KeptUp.step {start : Session} (h : KeptUp start s) {a : Action} (ha : a.isTold = true) :
    KeptUp start (s.step a) := by
  obtain ⟨hlasting, hentries⟩ := h.lasting.step (Action.isLasting_of_isTold ha)
  have hlisteners : (s.step a).index.listeners = s.index.listeners := by
    rcases (s.relays_step a).listeners with hsame | ⟨hends, -⟩
    · rw [hsame]
      cases a with
      | listen l => cases ha
      | unlisten l => cases ha
      | _ => rfl
    · have hnot := hends h.lasting
      rw [Action.isLasting_of_isTold ha] at hnot
      cases hnot
  refine ⟨hlasting, consistent_step h.consistent a, hlisteners ▸ h.nodup,
    hlisteners.trans h.listeners, ?_⟩
  intro l hl
  obtain ⟨lists, htold, hfollowed⟩ := h.followed l hl
  refine ⟨lists ++ if s.index.changes a = [] then [] else [s.index.changes a], ?_, ?_⟩
  · rw [toldTo_step h.nodup (h.listeners ▸ hl), htold, List.append_assoc]
  · -- Told or not, what a listener has been told is all that has changed.
    have hflat : (if s.index.changes a = [] then [] else [s.index.changes a]).flatten =
        s.index.changes a := by
      split
      · next hnone => exact hnone.symm
      · exact List.flatten_singleton
    rw [List.flatten_append, hflat, Notice.followAll_append, hfollowed,
      followAll_changes h.consistent ha, hentries]

theorem KeptUp.run {start : Session} (h : KeptUp start s) {actions : List Action}
    (hactions : ∀ a ∈ actions, a.isTold = true) : KeptUp start (s.run actions) := by
  induction actions generalizing s with
  | nil => exact h
  | cons a rest ih =>
    exact ih (h.step (hactions a List.mem_cons_self)) fun b hb =>
      hactions b (List.mem_cons_of_mem _ hb)

end Index.Session

namespace World

end World

namespace Index.Session

/-- An index is bound to a place and gets two listeners, of which the first always fails. -/
def attending : List Action :=
  [ .begin 0 (.prepare "/r" none),
    .resume 0 (.ok ()),
    .listen (.recorder "a" true),
    .listen (.recorder "b" false) ]

def attended : Session :=
  (fresh .default (.error .badDocument)).run attending

end Index.Session

end LiveIndex
