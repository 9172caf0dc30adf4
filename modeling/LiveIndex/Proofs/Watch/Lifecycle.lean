import LiveIndex.Proofs.Index.Alone
import LiveIndex.Proofs.Watch.Debounce

/-! Starts and stops of a watch. A start goes on after it has waited without looking whether the
watch has been halted meanwhile, so that all is well only where nothing comes across a start that
then succeeds. -/

namespace LiveIndex.Watch

variable {tr a b : List Item} {i : Item} {id : Nat} {debounce : Int}

/-- No start is connected that a stop or an error has come across. -/
def Uncrossed (tr : List Item) : Prop :=
  ∀ a id b, tr = a ++ .connected id :: b → id ∈ called a

theorem Uncrossed.before (h : Uncrossed (a ++ b)) : Uncrossed a :=
  fun c id d ha => h c id (d ++ b) (by rw [ha, List.append_assoc, List.cons_append])

theorem Uncrossed.concat (h : Uncrossed tr) (hi : ∀ id, i = .connected id → id ∈ called tr) :
    Uncrossed (tr ++ [i]) := by
  intro a id b htr
  rcases List.eq_nil_or_concat' b with rfl | ⟨b, j, rfl⟩
  · obtain ⟨rfl, hlast⟩ := List.append_inj' htr rfl
    exact hi id (List.singleton_inj.mp hlast)
  · rw [← List.cons_append, ← List.append_assoc] at htr
    exact h a id b (List.append_inj' htr rfl).1

theorem linked_append (ha : linked a = true) (hb : ∀ id, .stopping id ∉ b) :
    linked (a ++ b) = true := by
  induction b using List.reverseRecOn with
  | nil => rwa [List.append_nil]
  | append_singleton b i ih =>
    have hbefore := ih fun id hid => hb id (List.mem_append_left _ hid)
    rw [← List.append_assoc, linked_concat]
    cases i with
    | connected => rfl
    | stopping id => exact absurd (List.mem_append_right _ (List.mem_singleton_self _)) (hb id)
    | _ => exact hbefore

theorem not_linked_append (hb : ∀ id, .connected id ∉ b) :
    linked (a ++ .stopping id :: b) = false := by
  induction b using List.reverseRecOn with
  | nil =>
    rw [linked_concat]
    rfl
  | append_singleton b i ih =>
    have hbefore := ih fun id hid => hb id (List.mem_append_left _ hid)
    rw [← List.cons_append, ← List.append_assoc, linked_concat]
    cases i with
    | connected id => exact absurd (List.mem_append_right _ (List.mem_singleton_self _)) (hb id)
    | stopping => rfl
    | _ => exact hbefore

/-- Since a halt no start has just been connected if none has been connected at all. -/
theorem not_connecting_append (hi : i.halts = true) (hb : ∀ id, .connected id ∉ b) :
    ¬Connecting id (a ++ i :: b) := by
  rintro ⟨c, d, htr, hd⟩
  -- Either the connection comes after the halt, or the halt is among what has been queued since.
  rcases List.append_eq_append_iff.mp htr with ⟨e, -, he⟩ | ⟨e, -, he⟩
  · cases e with
    | nil =>
      obtain ⟨rfl, -⟩ := List.cons.inj he
      cases hi
    | cons x e =>
      obtain ⟨-, rfl⟩ := List.cons.inj he
      exact hb id (List.mem_append_right _ List.mem_cons_self)
  · have hmem : i ∈ .connected id :: d := by
      rw [he]
      exact List.mem_append_right _ List.mem_cons_self
    rcases List.mem_cons.mp hmem with rfl | hmem
    · cases hi
    · have hqueued : (i.queued?).isSome = true := hd i hmem
      cases i with
      | queued => cases hi
      | _ => cases hqueued

/-- Between a stop and the next start nothing is queued, emitted, or said to be ready. -/
theorem Lawful.still (h : Lawful debounce (a ++ i :: b)) (hi : i.halts = true)
    (hstarting : ∀ id, .starting id ∉ b) (hconnected : ∀ id, .connected id ∉ b) :
    (∀ q, .queued q ∉ b) ∧ (∀ due time ticket e, .emitted due time ticket e ∉ b) ∧
      ∀ id, .ready id ∉ b := by
  have hruns {j : Item} {c d : List Item} (hb : b = c ++ j :: d) :
      runs (a ++ i :: c) ≠ true := by
    intro hrunning
    obtain ⟨id, hid⟩ := starting_of_runs hi hrunning
    exact hstarting id (hb ▸ List.mem_append_left _ hid)
  have hconnecting {j : Item} {c d : List Item} (hb : b = c ++ j :: d) (id : Nat) :
      ¬Connecting id (a ++ i :: c) :=
    not_connecting_append hi fun id hid => hconnected id (hb ▸ List.mem_append_left _ hid)
  have hallowed {j : Item} {c d : List Item} (hb : b = c ++ j :: d) :
      j.Allowed debounce (a ++ i :: c) := by
    rw [hb, ← List.cons_append, ← List.append_assoc] at h
    exact h.allowed
  refine ⟨fun q hq => ?_, fun due time ticket e he => ?_, fun id hid => ?_⟩
  · obtain ⟨c, d, hb⟩ := List.append_of_mem hq
    rcases (hallowed hb).2 with hrunning | ⟨id, hid⟩
    · exact hruns hb hrunning
    · exact hconnecting hb id hid
  · obtain ⟨c, d, hb⟩ := List.append_of_mem he
    exact hruns hb (hallowed hb).1
  · obtain ⟨c, d, hb⟩ := List.append_of_mem hid
    exact hconnecting hb id (hallowed hb)

namespace Session

variable {s : Session} {items : List Item} {f : Flight}

/-- Calls have numbers of their own. A call that waits has not returned, and a start that waits is
in the record. -/
structure Orderly (s : Session) : Prop where
  ids : (s.flights.map Flight.id).Nodup
  below : ∀ f ∈ s.flights, f.id < s.nextId
  returned : ∀ id, .returned id ∈ s.trace → id < s.nextId ∧ ∀ f ∈ s.flights, f.id ≠ id
  starting : ∀ f ∈ s.flights, f.waiting.isStart = true → .starting f.id ∈ s.trace

theorem Orderly.note (h : s.Orderly) (hitems : ∀ id, .returned id ∉ items) :
    (s.note items).Orderly where
  ids := h.ids
  below := h.below
  returned id hid := h.returned id ((List.mem_append.mp hid).resolve_right (hitems id))
  starting f hf hs := List.mem_append_left _ (h.starting f hf hs)

theorem Orderly.change (h : s.Orderly) (watch : Watch) (effects : List Effect) :
    (s.change watch effects).Orderly := by
  constructor
  · rw [change_flights]
    exact h.ids
  · rw [change_flights, change_nextId]
    exact h.below
  · rw [change_flights, change_nextId, change_trace]
    exact h.returned
  · rw [change_flights, change_trace]
    exact h.starting

/-- A call returns that does not wait. -/
theorem Orderly.finish (h : s.Orderly) (hid : ∀ f ∈ s.flights, f.id ≠ id) (hbelow : id < s.nextId)
    (ticket : Option Nat) (result : Except Failure (Option Bool)) :
    (s.finish id ticket result).Orderly := by
  refine ⟨h.ids, h.below, fun j hj => ?_, fun f hf hs => ?_⟩
  · rcases List.mem_append.mp hj with hj | hj
    · exact h.returned j hj
    · cases List.mem_singleton.mp hj
      exact ⟨hbelow, hid⟩
  · exact List.mem_append_left _ (h.starting f hf hs)

/-- A call begins to wait. -/
theorem Orderly.park (h : s.Orderly) (hid : ∀ g ∈ s.flights, g.id ≠ f.id)
    (hbelow : f.id < s.nextId) (hopen : .returned f.id ∉ s.trace)
    (hstart : f.waiting.isStart = true → .starting f.id ∈ s.trace) : (s.park f).Orderly := by
  have hmem {g : Flight} (hg : g ∈ (s.park f).flights) : g ∈ s.flights ∨ g = f :=
    (List.mem_append.mp hg).imp_right List.mem_singleton.mp
  constructor
  · change ((s.flights ++ [f]).map Flight.id).Nodup
    rw [List.map_append]
    refine List.nodup_append.mpr ⟨h.ids, List.nodup_singleton _, ?_⟩
    intro j hj k hk
    obtain ⟨g, hg, rfl⟩ := List.mem_map.mp hj
    rw [List.mem_singleton.mp hk]
    exact hid g hg
  · intro g hg
    rcases hmem hg with hg | rfl
    · exact h.below g hg
    · exact hbelow
  · intro j hj
    obtain ⟨hlt, hne⟩ := h.returned j hj
    refine ⟨hlt, fun g hg => ?_⟩
    rcases hmem hg with hg | rfl
    · exact hne g hg
    · exact fun heq => hopen (heq ▸ hj)
  · intro g hg hs
    rcases hmem hg with hg | rfl
    · exact h.starting g hg hs
    · exact hstart hs

/-- A call that goes on returns, or it waits again; it waits as a start only if it is one. -/
theorem Orderly.advance (h : s.Orderly) {ticket : Option Nat} {work : Work}
    (hid : ∀ f ∈ s.flights, f.id ≠ id) (hbelow : id < s.nextId) (hopen : .returned id ∉ s.trace)
    (hitems : ∀ id, .returned id ∉ items)
    (hstart : ∀ request waiting, work.turn = .ask request waiting → waiting.isStart = true →
      .starting id ∈ s.trace ++ items) : (s.advance id ticket items work).Orderly := by
  have hchange := (h.note hitems).change work.state work.effects
  have hid' : ∀ f ∈ ((s.note items).change work.state work.effects).flights, f.id ≠ id := by
    rwa [change_flights]
  have hbelow' : id < ((s.note items).change work.state work.effects).nextId := by
    rwa [change_nextId]
  have htrace : ((s.note items).change work.state work.effects).trace = s.trace ++ items := by
    rw [change_trace, Session.note]
  unfold Session.advance
  dsimp only
  split
  · exact hchange.finish hid' hbelow' _ _
  · next request waiting hturn =>
    apply hchange.park hid' hbelow'
    · rw [htrace]
      exact fun hmem => (List.mem_append.mp hmem).elim hopen (hitems id)
    · rw [htrace]
      exact hstart request waiting hturn

theorem Orderly.near {t : Session} (h : s.Orderly) (hnear : s.Near t) : t.Orderly := by
  constructor
  · rw [hnear.flights]
    exact h.ids
  · rw [hnear.flights, hnear.nextId]
    exact h.below
  · rw [hnear.flights, hnear.nextId, hnear.trace]
    exact h.returned
  · rw [hnear.flights, hnear.trace]
    exact h.starting

theorem Orderly.launch (h : s.Orderly) {ticket : Option Nat} {work : Work}
    (hitems : ∀ id, .returned id ∉ items)
    (hstart : ∀ request waiting, work.turn = .ask request waiting → waiting.isStart = true →
      .starting s.nextId ∈ items) : (s.launch ticket items work).Orderly := by
  have hnext : Orderly { s with nextId := s.nextId + 1 } := by
    refine ⟨h.ids, fun f hf => ?_, fun id hid => ?_, h.starting⟩
    · exact Nat.lt_succ_of_lt (h.below f hf)
    · exact ⟨Nat.lt_succ_of_lt (h.returned id hid).1, (h.returned id hid).2⟩
  apply hnext.advance
  · exact fun f hf => Nat.ne_of_lt (h.below f hf)
  · exact Nat.lt_succ_self s.nextId
  · exact fun hid => Nat.lt_irrefl _ (h.returned _ hid).1
  · exact hitems
  · exact fun request waiting hturn hs => List.mem_append_right _ (hstart request waiting hturn hs)

/-- A call that goes on is not among those that wait meanwhile. -/
theorem Orderly.resume {t : Session} {work : Work} (h : s.Orderly)
    (hfind : s.flights.find? (·.id = id) = some f) (hresumed : s.Resumption f t items work) :
    (t.advance f.id f.ticket items work).Orderly := by
  have hf := List.mem_of_find?_eq_some hfind
  -- The other calls are those before and after it, and none of them has its number.
  obtain ⟨l₁, l₂, hsplit, hrest⟩ := eraseP_of_find? hfind
  have hflights : t.flights = l₁ ++ l₂ := hresumed.flights.trans hrest
  have hsub : (l₁ ++ l₂).Sublist s.flights := by
    rw [hsplit]
    exact (List.sublist_cons_self f l₂).append_left l₁
  have hother : ∀ g ∈ l₁ ++ l₂, g.id ≠ f.id := by
    have hnodup := h.ids
    rw [hsplit, List.map_append, List.map_cons, List.nodup_middle, ← List.map_append] at hnodup
    intro g hg hid
    exact (List.nodup_cons.mp hnodup).1 (hid ▸ List.mem_map_of_mem hg)
  have ht : t.Orderly := by
    constructor
    · rw [hflights]
      exact h.ids.sublist (hsub.map Flight.id)
    · rw [hflights, hresumed.nextId]
      exact fun g hg => h.below g (hsub.subset hg)
    · rw [hflights, hresumed.nextId, hresumed.trace]
      intro id hid
      exact ⟨(h.returned id hid).1, fun g hg => (h.returned id hid).2 g (hsub.subset hg)⟩
    · rw [hflights, hresumed.trace]
      exact fun g hg => h.starting g (hsub.subset hg)
  apply ht.advance
  · rw [hflights]
    exact hother
  · rw [hresumed.nextId]
    exact h.below f hf
  · rw [hresumed.trace]
    exact fun hid => (h.returned f.id hid).2 f hf rfl
  · intro id hid
    rcases hresumed.items _ hid with hpassing | ⟨heq | heq, -⟩
    · exact hpassing
    · cases heq
    · cases heq
  · intro request waiting hturn hs
    rw [hresumed.trace]
    exact List.mem_append_left _ (h.starting f hf (hresumed.starts request waiting hturn hs))

theorem Orderly.step (h : s.Orderly) (a : Action) : (s.step a).Orderly := by
  have hnone : ∀ id, Item.returned id ∉ ([] : List Item) := fun id => List.not_mem_nil
  generalize hstep : s.step a = t
  cases hstep ▸ s.step_cases a with
  | waited ms => exact ⟨h.ids, h.below, h.returned, h.starting⟩
  | changed watch effects hnear hitems =>
    exact ((h.near hnear).note fun id hid => hitems _ hid).change _ _
  | started =>
    apply h.launch
    · intro id hid
      split at hid
      · cases hid
      · cases List.mem_singleton.mp hid
    · intro request waiting hturn _
      change (Watch.beginStart _).turn = _ at hturn
      unfold Watch.beginStart at hturn
      split at hturn
      · cases hturn
      · next hrunning =>
        rw [if_neg hrunning]
        exact List.mem_singleton_self _
  | stopped =>
    refine h.launch (fun id hid => ?_) fun request waiting hturn hs => ?_
    · cases List.mem_singleton.mp hid
    · cases hturn
      cases hs
  | expanding ticket path hnear =>
    refine (h.near hnear).launch hnone fun request waiting hturn hs => ?_
    cases hturn
    cases hs
  | resumed hfind hresumed => exact h.resume hfind hresumed

theorem Orderly.run (h : s.Orderly) (actions : List Action) : (s.run actions).Orderly := by
  induction actions generalizing s with
  | nil => exact h
  | cons a rest ih => exact ih (h.step a)

/-- The backend rests, or it has been started since it was last stopped. -/
def Fed (s : Session) : Prop :=
  s.feed.current = none ∨ linked s.trace = true

theorem Fed.note (h : s.Fed) (hitems : ∀ id, .stopping id ∉ items) : (s.note items).Fed :=
  h.imp_right fun hlinked => linked_append hlinked hitems

theorem perform_current (e : Effect) (h : s.feed.current = none) :
    (s.perform e).feed.current = none := by
  -- Without a run the feed takes other paths, but starts no run.
  have hrest {f : Feed} (hf : f.current = none) : f.replaceRun = (f, []) := by
    rw [Feed.replaceRun, hf]
  cases e with
  | start _ job => cases job <;> exact h
  | watch path =>
    change (s.feed.addPath path).1.current = none
    unfold Feed.addPath
    split
    · exact h
    · rwa [hrest]
      exact h
  | unwatch path =>
    change (s.feed.unwatchPath path).1.current = none
    unfold Feed.unwatchPath
    split
    · rwa [hrest]
      exact h
    · exact h
  | _ => exact h

theorem beginStop_current (f : Feed) : f.beginStop.state.current = none := by
  unfold Feed.beginStop
  dsimp only
  split <;> rfl

theorem Fed.change (h : s.Fed) (watch : Watch) (effects : List Effect) :
    (s.change watch effects).Fed := by
  rcases h with hnone | hlinked
  · left
    rw [Session.change]
    generalize hs : ({ s with watch } : Session) = t
    have ht : t.feed.current = none := by rw [← hs]; exact hnone
    clear hs
    induction effects generalizing t with
    | nil => exact ht
    | cons e effects ih => exact ih _ (perform_current e ht)
  · right
    rwa [change_trace]

theorem Fed.advance (h : (s.note items).Fed) (id : Nat) (ticket : Option Nat) (work : Work) :
    (s.advance id ticket items work).Fed := by
  have hchange := h.change work.state work.effects
  unfold Session.advance
  dsimp only
  split
  · exact hchange.note fun id hid => by cases List.mem_singleton.mp hid
  · next request waiting _ =>
    -- A backend that is asked to stop rests from then on.
    cases request with
    | stopBackend => exact .inl (beginStop_current _)
    | _ => exact hchange

theorem Fed.near {t : Session} (h : s.Fed) (hnear : s.Near t) : t.Fed := by
  rwa [Fed, hnear.current, hnear.trace]

theorem Fed.launch (h : (s.note items).Fed) (ticket : Option Nat) (work : Work) :
    (s.launch ticket items work).Fed :=
  Fed.advance (s := { s with nextId := s.nextId + 1 }) h ..

theorem Fed.resume {t : Session} {work : Work} (h : s.Fed)
    (hresumed : s.Resumption f t items work) : (t.advance f.id f.ticket items work).Fed := by
  have hitems : ∀ id, .stopping id ∉ items := by
    intro id hid
    rcases hresumed.items _ hid with hpassing | ⟨heq | heq, -⟩
    · exact hpassing
    · cases heq
    · cases heq
  apply Fed.advance
  rcases hresumed.current with hcurrent | ⟨rest, rfl⟩
  · have ht : t.Fed := by rwa [Fed, hcurrent, hresumed.trace]
    exact ht.note hitems
  · right
    have hconnected : linked (t.trace ++ [.connected f.id]) = true := linked_concat ..
    change linked (t.trace ++ .connected f.id :: rest) = true
    rw [List.append_cons]
    exact linked_append hconnected fun id hid => hitems id (List.mem_cons_of_mem _ hid)

theorem Fed.step (h : s.Fed) (a : Action) : (s.step a).Fed := by
  generalize hstep : s.step a = t
  cases hstep ▸ s.step_cases a with
  | waited ms => exact h
  | changed watch effects hnear hitems =>
    exact ((h.near hnear).note fun id hid => hitems _ hid).change _ _
  | started =>
    refine (h.note fun id hid => ?_).launch _ _
    split at hid
    · cases hid
    · cases List.mem_singleton.mp hid
  | stopped => exact .inl (beginStop_current _)
  | expanding ticket path hnear =>
    exact ((h.near hnear).note fun _ => List.not_mem_nil).launch _ _
  | resumed hfind hresumed => exact h.resume hresumed

theorem Fed.run (h : s.Fed) (actions : List Action) : (s.run actions).Fed := by
  induction actions generalizing s with
  | nil => exact h
  | cons a rest ih => exact ih (h.step a)

/-- A stop after which no start is called, when all starts from before it have returned. -/
structure Rested (s : Session) (a : List Item) (id : Nat) (b : List Item) : Prop where
  trace : s.trace = a ++ .stopping id :: b
  ended : ∀ id', .starting id' ∈ a → .returned id' ∈ s.trace
  starting : ∀ id', .starting id' ∉ b
  connected : ∀ id', .connected id' ∉ b

/-- No start waits then. -/
theorem Rested.no_start (h : s.Rested a id b) (horderly : s.Orderly) :
    ∀ f ∈ s.flights, f.waiting.isStart = false := by
  intro f hf
  refine Bool.eq_false_iff.mpr fun hstart => ?_
  have hstarting := horderly.starting f hf hstart
  rw [h.trace] at hstarting
  -- It is not from before the stop, since it has not returned, and not from after it.
  rcases List.mem_append.mp hstarting with hbefore | hafter
  · exact (horderly.returned f.id (h.ended f.id hbefore)).2 f hf rfl
  · rcases List.mem_cons.mp hafter with hstop | hafter
    · cases hstop
    · exact h.starting f.id hafter

theorem Rested.step (h : s.Rested a id b) (horderly : s.Orderly) {action : Action}
    (haction : action ≠ .start) : ∃ new, (s.step action).Rested a id (b ++ new) := by
  obtain ⟨new, htrace, hnew⟩ := s.step_trace action
  refine ⟨new, ?_, fun id' hid' => ?_, fun id' hid' => ?_, fun id' hid' => ?_⟩
  · rw [htrace, h.trace, List.append_assoc, List.cons_append]
  · rw [htrace]
    exact List.mem_append_left _ (h.ended id' hid')
  · rcases List.mem_append.mp hid' with hold | hid'
    · exact h.starting id' hold
    · exact haction (hnew _ hid').1
  · rcases List.mem_append.mp hid' with hold | hid'
    · exact h.connected id' hold
    · obtain ⟨f, hf, -, hstart⟩ := hnew _ hid'
      rw [h.no_start horderly f hf] at hstart
      cases hstart

theorem Rested.run (h : s.Rested a id b) (horderly : s.Orderly) {actions : List Action}
    (hactions : .start ∉ actions) : ∃ new, (s.run actions).Rested a id (b ++ new) := by
  induction actions generalizing s b with
  | nil => exact ⟨[], by rwa [List.append_nil]⟩
  | cons action rest ih =>
    have haction : action ≠ .start := fun heq => hactions (heq ▸ List.mem_cons_self)
    obtain ⟨new, hstep⟩ := h.step horderly haction
    obtain ⟨later, hrun⟩ := ih hstep (horderly.step action)
      fun hmem => hactions (List.mem_cons_of_mem _ hmem)
    exact ⟨new ++ later, by rwa [List.append_assoc] at hrun⟩

/-- The backend rests then, and nothing is pending or told. -/
theorem Rested.still (h : s.Rested a id b) (hsound : s.Sound debounce) (hfed : s.Fed) :
    s.feed.isRunning = false ∧ s.watch.pending.items = [] ∧ (∀ id', .ready id' ∉ b) ∧
      ∀ due time ticket e, .emitted due time ticket e ∉ b := by
  have htracks := hsound.tracks
  rw [h.trace] at htracks
  obtain ⟨hqueued, hemitted, hready⟩ := htracks.lawful.still rfl h.starting h.connected
  refine ⟨?_, ?_, hready, hemitted⟩
  · have hnone : s.feed.current = none := by
      refine hfed.resolve_right ?_
      rw [h.trace, not_linked_append h.connected]
      exact Bool.false_ne_true
    rw [Feed.isRunning, hnone]
  · have hstanding : standing (a ++ .stopping id :: b) = [] :=
      List.eq_nil_iff_forall_not_mem.mpr fun q hq => hqueued q (queued_of_standing rfl hq)
    rw [htracks.pending, hstanding, List.map_nil]

end Session

end LiveIndex.Watch
