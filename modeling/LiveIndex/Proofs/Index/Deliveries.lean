import LiveIndex.Proofs.Index.Drift
import LiveIndex.Proofs.Index.Notices

/-! Who is told what. Each stretch of a call's work says what it delivers and what becomes of the
listeners, and so does each step: it tells all of them of its changes, and only the end of an index
sends them away. -/

namespace LiveIndex.Index

variable {ending : Prop} {listeners : List Listener} {told : List (Listener × List Notice)}
  {work : Work}

/-- What an effect tells, and whom. -/
def Effect.delivery? : Effect → Option (Listener × List Notice)
  | .deliver l changes => some (l, changes)
  | _ => none

/-- What is told in an action, and whom: its changes to every listener, if there are any. -/
def deliveredIn (s : Index) (a : Action) : List (Listener × List Notice) :=
  if s.changes a = [] then [] else s.listeners.map fun l => (l, s.changes a)

/-- The listeners after an action that does not end the index. -/
def listenersAfter (s : Index) : Action → List Listener
  | .listen l => (s.listen l).listeners
  | .unlisten l => (s.unlisten l).listeners
  | _ => s.listeners

theorem delivery?_deliveries (s : Index) (changes : List Notice) :
    (s.deliveries changes).filterMap Effect.delivery? = s.listeners.map fun l => (l, changes) := by
  rw [deliveries, List.filterMap_map]
  change s.listeners.filterMap (some ∘ fun l => (l, changes)) = _
  rw [List.filterMap_eq_map]

/-- Work that tells of something and leaves the listeners as they were, unless it is part of an
end. -/
structure Delivers (ending : Prop) (listeners : List Listener)
    (told : List (Listener × List Notice)) (work : Work) : Prop where
  listeners : work.state.listeners = listeners ∨ (ending ∧ work.state.listeners = [])
  told : work.effects.filterMap Effect.delivery? = told
  ending : ∀ after, work.turn = .ask .lock (.queued after) → after.isOrdinary = false → ending

theorem Delivers.imp {ending' : Prop} (h : Delivers ending listeners told work)
    (himp : ending → ending') : Delivers ending' listeners told work :=
  ⟨h.listeners.imp_right fun ⟨hending, hnone⟩ => ⟨himp hending, hnone⟩, h.told,
    fun after hturn hafter => himp (h.ending after hturn hafter)⟩

theorem Delivers.after (h : Delivers ending listeners told work) (effects : List Effect) :
    Delivers ending listeners (effects.filterMap Effect.delivery? ++ told)
      (work.after effects) := by
  refine ⟨h.listeners, ?_, h.ending⟩
  rw [← h.told]
  exact List.filterMap_append

theorem delivers_done (s : Index) {effects : List Effect}
    (hquiet : effects.filterMap Effect.delivery? = []) (answer : Answer) :
    Delivers ending s.listeners [] (.done s effects answer) :=
  ⟨.inl rfl, hquiet, fun _ hturn => by cases hturn⟩

theorem delivers_failed (s : Index) {effects : List Effect}
    (hquiet : effects.filterMap Effect.delivery? = []) (f : Failure) :
    Delivers ending s.listeners [] (.failed s effects f) :=
  ⟨.inl rfl, hquiet, fun _ hturn => by cases hturn⟩

/-- Work that waits for something other than the lock. -/
theorem delivers_ask (s : Index) {effects : List Effect}
    (hquiet : effects.filterMap Effect.delivery? = []) {request : Request} {waiting : Waiting}
    (hrequest : request ≠ .lock) :
    Delivers ending s.listeners [] (.ask s effects request waiting) := by
  refine ⟨.inl rfl, hquiet, ?_⟩
  intro after hturn
  cases hturn
  exact absurd rfl hrequest

theorem delivers_afterSave (s : Index) {effects : List Effect}
    (hquiet : effects.filterMap Effect.delivery? = []) (saved : Bool) (after : AfterSave) :
    Delivers (after.isOrdinary = false) s.listeners [] (s.afterSave effects saved after) := by
  cases after with
  | drop => exact ⟨.inr ⟨rfl, rfl⟩, hquiet, fun _ hturn => by cases hturn⟩
  | _ => exact delivers_done s hquiet _

theorem delivers_beginSave (s : Index) (after : AfterSave) :
    Delivers (after.isOrdinary = false) s.listeners [] (s.beginSave after) := by
  unfold beginSave
  split
  · exact delivers_afterSave s rfl false after
  · refine ⟨.inl rfl, rfl, ?_⟩
    intro after' hturn hafter
    cases hturn
    exact hafter

theorem delivers_lockTaken (s : Index) (after : AfterSave) :
    Delivers (after.isOrdinary = false) s.listeners [] (s.lockTaken after) := by
  unfold lockTaken
  split
  · exact delivers_ask { s with dirty := false } rfl Request.noConfusion
  · exact delivers_afterSave s rfl false after

theorem delivers_written (s : Index) (after : AfterSave) (result : Except Failure Unit) :
    Delivers (after.isOrdinary = false) s.listeners [] (s.written after result) := by
  unfold written
  split
  · exact delivers_afterSave s rfl true after
  · split
    · exact delivers_afterSave { s with dirty := true } rfl false after
    · exact delivers_failed s rfl _

theorem delivers_startEmpty (s : Index) (initial : Bool) {effects : List Effect}
    (hquiet : effects.filterMap Effect.delivery? = []) :
    Delivers ending s.listeners [] (s.startEmpty initial effects) := by
  unfold startEmpty
  split
  · exact delivers_done s.renewFinder hquiet _
  · exact delivers_done s hquiet _

theorem delivers_loaded (s : Index) (initial : Bool) (result : Except Failure Snapshot) :
    Delivers ending s.listeners [] (s.loaded initial result) := by
  unfold loaded
  split
  · next snapshot =>
    refine delivers_done (s.adopt snapshot) ?_ _
    unfold disagreement
    split <;> rfl
  · exact delivers_startEmpty s initial rfl
  · split
    · exact delivers_startEmpty s initial rfl
    · exact delivers_startEmpty s initial rfl
    · exact delivers_failed s rfl _

theorem delivers_beginLoad (s : Index) (initial : Bool) :
    Delivers ending s.listeners [] (s.beginLoad initial) := by
  unfold beginLoad
  split
  · exact delivers_startEmpty s initial rfl
  · exact delivers_ask s rfl Request.noConfusion

theorem delivers_publish (s : Index) (now : Int) (changes : List Notice) (after : AfterSave) :
    Delivers (after.isOrdinary = false) s.listeners (s.listeners.map fun l => (l, changes))
      (s.publish now changes after) := by
  have hafter := (delivers_beginSave (s.bump now) after).after ((s.bump now).deliveries changes)
  rw [delivery?_deliveries, List.append_nil] at hafter
  exact hafter

/-- A call that tells of its changes, if there are any. -/
theorem delivers_changes (ending : Prop) (s : Index) (now : Int) (changes : List Notice)
    (after : AfterSave) (hafter : after.isOrdinary = true) (answer : Answer) :
    Delivers ending s.listeners (if changes = [] then [] else s.listeners.map fun l => (l, changes))
      (if changes.isEmpty then .done s [] answer else s.publish now changes after) := by
  by_cases h : changes = []
  · rw [if_pos h, if_pos (List.isEmpty_iff.mpr h)]
    exact delivers_done s rfl answer
  · rw [if_neg h, if_neg fun hempty => h (List.isEmpty_iff.mp hempty)]
    refine (delivers_publish s now changes after).imp ?_
    intro hending
    rw [hafter] at hending
    cases hending

theorem listeners_upsert (s : Index) (e : Entry) : (s.upsert e).1.listeners = s.listeners := by
  unfold upsert
  split
  · rfl
  · split <;> rfl

theorem listeners_upsertAll (s : Index) (entries : List Entry) :
    (s.upsertAll entries).1.listeners = s.listeners := by
  induction entries generalizing s with
  | nil => rfl
  | cons e rest ih => rw [upsertAll_cons, ih, listeners_upsert]

theorem listeners_removeFamily (s : Index) (path : String) :
    (s.removeFamily path).1.listeners = s.listeners := by
  unfold removeFamily
  split <;> rfl

/-- What a call tells when it begins. -/
theorem delivers_begin (s : Index) (now : Int) (call : Call) :
    Delivers ((Action.begin now call).isLasting = false) s.listeners
      (s.deliveredIn (.begin now call)) (s.begin now call) := by
  cases call with
  | prepare root path =>
    exact delivers_beginLoad { s with
      root := some (Path.tidy root)
      path := some ((path.map Path.tidy).getD
        (Environment.defaultIndexPath (Path.tidy root))) } true
  | load => exact delivers_beginLoad s false
  | save => exact (delivers_beginSave s .answer).imp Bool.noConfusion
  | batch entries =>
    have htold := delivers_changes ((Action.begin now (.batch entries)).isLasting = false)
      (s.upsertAll entries).1 now (s.upsertAll entries).2.2 (.summary (s.upsertAll entries).2.1) rfl
      (.summary (s.upsertAll entries).2.1)
    rw [listeners_upsertAll] at htold
    exact htold
  | remove path =>
    have htold := delivers_changes ((Action.begin now (.remove path)).isLasting = false)
      (s.removeFamily path).1 now (((s.removeFamily path).2.map Entry.path).map Notice.removal)
      (.count (s.removeFamily path).2.length) rfl (.count 0)
    rw [listeners_removeFamily] at htold
    -- Nothing is gone exactly if there is nothing to tell.
    have hbegin : s.begin now (.remove path) =
        if (((s.removeFamily path).2.map Entry.path).map Notice.removal).isEmpty then
          .done (s.removeFamily path).1 [] (.count 0)
        else (s.removeFamily path).1.publish now
          (((s.removeFamily path).2.map Entry.path).map Notice.removal)
          (.count (s.removeFamily path).2.length) := by
      rw [List.isEmpty_map, List.isEmpty_map, List.map_map]
      rfl
    rw [hbegin]
    exact htold
  | destroy =>
    have hquiet : (s.saveTimer.toList.map Effect.disarm).filterMap Effect.delivery? = [] := by
      cases s.saveTimer <;> rfl
    unfold begin beginDestroy
    dsimp only
    split
    · have hsave := (delivers_beginSave { s with saveTimer := none } .drop).after
        (s.saveTimer.toList.map Effect.disarm)
      rw [hquiet] at hsave
      exact hsave
    · exact delivers_ask { s with saveTimer := none } hquiet Request.noConfusion

/-- What is told of a single entry, besides the setting of a timer. -/
theorem delivers_add (s : Index) (now : Int) (timed : Bool) (e : Entry) :
    (s.add now timed e).1.listeners = s.listeners ∧
      (s.add now timed e).2.filterMap Effect.delivery? = s.deliveredIn (.add now timed e) := by
  have hupsert := listeners_upsert s e
  have hchanges : s.changes (.add now timed e) = ((s.upsert e).2.change? e).toList :=
    (change?_upsert s e).symm
  rw [deliveredIn, hchanges, ← hupsert]
  unfold add
  dsimp only
  cases (s.upsert e).2.change? e with
  | none => exact ⟨rfl, rfl⟩
  | some change =>
    cases timed with
    | true =>
      have hquiet :
          ((s.upsert e).1.noteChange now).saveLater.2.filterMap Effect.delivery? = [] := by
        unfold saveLater
        cases ((s.upsert e).1.noteChange now).saveTimer <;> rfl
      refine ⟨rfl, ?_⟩
      have hlater := delivery?_deliveries ((s.upsert e).1.noteChange now).saveLater.1 [change]
      dsimp only
      rw [if_pos rfl, List.filterMap_append, hquiet]
      exact hlater
    | false => exact ⟨rfl, delivery?_deliveries ((s.upsert e).1.noteChange now) [change]⟩

namespace Session

variable {s : Session}

/-- The lists that a listener has been told, the first one first. -/
def toldTo (s : Session) (l : Listener) : List (List Notice) :=
  (s.told.reverse.filter fun delivery => delivery.1 = l).map Prod.snd

theorem change_told (s : Session) (index : Index) (effects : List Effect) :
    (s.change index effects).told = (effects.filterMap Effect.delivery?).reverse ++ s.told := by
  induction effects generalizing s index with
  | nil => rfl
  | cons e effects ih =>
    have hstep : s.change index (e :: effects) =
        ({ s with index }.perform e).change ({ s with index }.perform e).index effects := rfl
    rw [hstep, ih]
    cases e with
    | deliver l changes =>
      have hfirst : (Effect.deliver l changes :: effects).filterMap Effect.delivery? =
          (l, changes) :: effects.filterMap Effect.delivery? := rfl
      rw [hfirst, List.reverse_cons, List.append_assoc]
      rfl
    | _ => rfl

theorem advance_told (s : Session) (id : Nat) (ticket : Option Nat) (work : Work) :
    (s.advance id ticket work).told =
      (work.effects.filterMap Effect.delivery?).reverse ++ s.told := by
  unfold advance
  split <;> exact change_told ..

/-- How a step relays what there is to tell: it is told, and the listeners stay, unless the index
ends. -/
structure Relays (ending : Prop) (listeners : List Listener) (told : List (Listener × List Notice))
    (s t : Session) : Prop where
  listeners : t.index.listeners = listeners ∨ (ending ∧ t.index.listeners = [])
  told : t.told = told.reverse ++ s.told

theorem relays_nothing {s t : Session} (hlisteners : t.index.listeners = listeners)
    (htold : t.told = s.told) : Relays ending listeners [] s t :=
  ⟨.inl hlisteners, htold⟩

theorem relays_change (s t : Session) (ht : t.told = s.told) {index : Index}
    (hlisteners : index.listeners = listeners) {effects : List Effect}
    (htold : effects.filterMap Effect.delivery? = told) :
    Relays ending listeners told s (t.change index effects) := by
  refine ⟨.inl ?_, ?_⟩
  · rw [change_index]
    exact hlisteners
  · rw [change_told, htold, ht]

/-- Getting the lock at once adds nothing to what is told, and ends the index only if the call ends
it. -/
theorem relays_settle (s t : Session) (ht : t.told = s.told)
    (h : Delivers ending listeners told work) (id : Nat) (ticket : Option Nat) :
    Relays ending listeners told s (t.settle id ticket work) := by
  have hchanged : (t.change work.state work.effects).index.listeners = work.state.listeners := by
    rw [change_index]
    rfl
  have htold : (t.change work.state work.effects).told = told.reverse ++ s.told := by
    rw [change_told, h.told, ht]
  have hkept {i : Index} (hi : i.listeners = work.state.listeners) :
      i.listeners = listeners ∨ (ending ∧ i.listeners = []) := by
    rw [hi]
    exact h.listeners
  unfold settle
  split
  · next after hturn =>
    dsimp only
    split
    · -- The lock is free, so what waits for it goes on in the same step.
      have htaken := delivers_lockTaken ((t.change work.state work.effects).index.withLock
        (t.change work.state work.effects).index.lock.take) after
      obtain ⟨lock, hadvance⟩ := (t.change work.state work.effects).advance_index id ticket
        (((t.change work.state work.effects).index.withLock
          (t.change work.state work.effects).index.lock.take).lockTaken after)
      refine ⟨?_, ?_⟩
      · rw [hadvance]
        rcases htaken.listeners with hsame | ⟨hdrop, hnone⟩
        · exact hkept (hsame.trans hchanged)
        · exact .inr ⟨h.ending after hturn hdrop, hnone⟩
      · rw [advance_told, htaken.told, htold]
        rfl
    · exact ⟨hkept hchanged, htold⟩
  · obtain ⟨lock, hadvance⟩ := t.advance_index id ticket work
    refine ⟨?_, ?_⟩
    · rw [hadvance]
      exact hkept rfl
    · rw [advance_told, h.told, ht]

/-- A call that goes on tells of nothing, and ends the index only if it is part of an end. -/
theorem relays_wake (s : Session) (f : Flight) (result : Except Failure Unit) :
    Relays (f.isLasting = false) s.index.listeners [] s (s.wake f result) := by
  unfold wake
  dsimp only
  split
  · exact s.relays_settle (s.without f) rfl (delivers_loaded ..) _ _
  · next after hrequest hwaiting =>
    have hlasting : f.isLasting = after.isOrdinary := by
      rw [Flight.isLasting, Flight.isQueued, Flight.isWriting, hrequest, hwaiting]
      exact Bool.or_false _
    rw [hlasting]
    split
    · -- It is the first one in the queue.
      have htaken := delivers_lockTaken (s.index.withLock (s.index.lock.enter f.id)) after
      exact s.relays_settle (s.without f) rfl htaken _ _
    · exact relays_nothing rfl rfl
  · next path snapshot after hrequest hwaiting =>
    have hlasting : f.isLasting = after.isOrdinary := by
      rw [Flight.isLasting, Flight.isQueued, Flight.isWriting, hrequest, hwaiting]
      exact Bool.false_or _
    have hconcluded : ((s.without f).concludeWrite snapshot result).1.told = s.told := by
      unfold concludeWrite
      split <;> rfl
    rw [hlasting]
    exact s.relays_settle _ hconcluded (delivers_written s.index after _) _ _
  · next tickets hrequest hwaiting =>
    have hlasting : f.isLasting = false := by
      rw [Flight.isLasting, Flight.isQueued, Flight.isWriting, hrequest, hwaiting]
      rfl
    split
    · exact relays_nothing rfl rfl
    · exact s.relays_settle (s.without f) rfl
        ((delivers_beginSave s.index .drop).imp fun _ => hlasting) _ _
  · exact relays_nothing rfl rfl

/-- Whatever happens is told to all listeners, and they stay; only an end sends them away. -/
theorem relays_step (s : Session) (a : Action) :
    Relays (s.Lasting → a.isLasting = false) (s.index.listenersAfter a) (s.index.deliveredIn a) s
      (s.step a) := by
  cases a with
  | begin now call =>
    have hbegin := (delivers_begin s.index now call).imp fun h (_ : s.Lasting) => h
    exact s.relays_settle { s with nextId := s.nextId + 1 } rfl hbegin s.nextId none
  | add now timed e =>
    obtain ⟨hlisteners, htold⟩ := delivers_add s.index now timed e
    exact s.relays_change s rfl hlisteners htold
  | startSave ticket =>
    simp only [step]
    split
    · have hsave : Delivers (s.Lasting → (Action.startSave ticket).isLasting = false)
          s.index.listeners [] (s.index.beginSave .answer) :=
        (delivers_beginSave s.index .answer).imp Bool.noConfusion
      exact s.relays_settle { s with due := s.due.erase ticket, nextId := s.nextId + 1 } rfl hsave
        s.nextId (some ticket)
    · exact relays_nothing rfl rfl
  | resume id result =>
    simp only [step]
    split
    · next f hf =>
      have hwake := s.relays_wake f result
      refine ⟨hwake.listeners.imp_right ?_, hwake.told⟩
      rintro ⟨hends, hnone⟩
      refine ⟨?_, hnone⟩
      intro hlasting
      rw [hlasting f (List.mem_of_find?_eq_some hf)] at hends
      cases hends
    · exact relays_nothing rfl rfl
  | search text exact limit =>
    obtain ⟨finder, hindex⟩ := search_index s.index text exact limit
    refine relays_nothing ?_ rfl
    simp only [step, hindex]
    rfl
  | query text limit =>
    obtain ⟨finder, hindex⟩ := query_index s.index text limit
    refine relays_nothing ?_ rfl
    simp only [step, hindex]
    rfl
  | ring ticket =>
    simp only [step]
    split
    · have hlisteners : (s.index.saveDue ticket).1.listeners = s.index.listeners := rfl
      have hdue : (s.index.saveDue ticket).2.filterMap Effect.delivery? = [] := rfl
      exact s.relays_change { s with armed := s.armed.erase ticket } rfl hlisteners hdue
    · exact relays_nothing rfl rfl
  | noteOver ticket =>
    simp only [step]
    split <;> exact relays_nothing rfl rfl
  | clear now => exact relays_nothing rfl rfl
  | listen l => exact relays_nothing rfl rfl
  | unlisten l => exact relays_nothing rfl rfl
  | disturb file => exact relays_nothing rfl rfl

end Session

end LiveIndex.Index
