import LiveIndex.Proofs.Store.OrderedMap
import LiveIndex.Proofs.Watch.Session

/-! What is pending in a watch is what stands in its record, and each pending event has one timer.
Every stretch of work keeps this. -/

namespace LiveIndex

namespace OrderedMap

variable {κ ν : Type} [DecidableEq κ]

theorem items_moveToEnd (m : OrderedMap κ ν) (k : κ) (v : ν) :
    (m.moveToEnd k v).items = m.items.filter (fun kv => kv.1 ≠ k) ++ [(k, v)] := by
  have habsent : k ∉ (m.erase k).items.map Prod.fst := by
    intro hk
    obtain ⟨kv, hkv, rfl⟩ := List.mem_map.mp hk
    simpa using (List.mem_filter.mp hkv).2
  exact putItem_of_notMem habsent v

end OrderedMap

namespace Watch

variable {w : Watch} {timers : List Timer} {tr items : List Item} {q : Queued}
  {debounce clock : Int}

/-- The timer of a queued event. -/
def Queued.timer (debounce : Int) (q : Queued) : Timer :=
  ⟨q.ticket, q.event.path, q.time + debounce⟩

def Queued.entry (q : Queued) : String × Event × Nat :=
  (q.event.path, q.event, q.ticket)

/-- A watch and its timers are as the record says. -/
structure Tracks (debounce : Int) (w : Watch) (timers : List Timer) (tr : List Item) : Prop where
  pending : w.pending.items = (standing tr).map Queued.entry
  timers : timers = (standing tr).map (Queued.timer debounce)
  running : w.running = runs tr
  ready : w.ready = isReady tr
  fresh : ∀ ticket ∈ tickets tr, ticket < w.ticket
  lawful : Lawful debounce tr
  quiet : w.debounce = debounce

/-- What is told of no event. -/
def Plain (p : Payload) : Prop :=
  ∀ e, p ≠ .event e

def payloads (effects : List Effect) : List Payload :=
  effects.filterMap Effect.payload?

theorem payloads_append (a b : List Effect) : payloads (a ++ b) = payloads a ++ payloads b :=
  List.filterMap_append

theorem timersAfter_append (timers : List Timer) (a b : List Effect) :
    timersAfter clock timers (a ++ b) = timersAfter clock (timersAfter clock timers a) b :=
  List.foldl_append

/-- Work that leaves alone what is pending, and tells handlers only of some things. -/
structure Aside (said : Payload → Prop) (w : Watch) (r : Watch × List Effect) : Prop where
  pending : r.1.pending = w.pending
  running : r.1.running = w.running
  ready : r.1.ready = w.ready
  debounce : r.1.debounce = w.debounce
  ticket : w.ticket ≤ r.1.ticket
  timers : ∀ clock timers, timersAfter clock timers r.2 = timers
  told : ∀ p ∈ payloads r.2, said p

section Aside

variable {said : Payload → Prop} {r : Watch × List Effect}

theorem Aside.refl (said : Payload → Prop) (w : Watch) : Aside said w (w, []) :=
  ⟨rfl, rfl, rfl, rfl, Nat.le_refl _, fun _ _ => rfl, fun _ hp => absurd hp List.not_mem_nil⟩

theorem Aside.append {r' : Watch × List Effect} (h : Aside said w r) (h' : Aside said r.1 r') :
    Aside said w (r'.1, r.2 ++ r'.2) where
  pending := h'.pending.trans h.pending
  running := h'.running.trans h.running
  ready := h'.ready.trans h.ready
  debounce := h'.debounce.trans h.debounce
  ticket := Nat.le_trans h.ticket h'.ticket
  timers clock timers := by rw [timersAfter_append, h.timers, h'.timers]
  told p hp := by
    rw [payloads_append] at hp
    rcases List.mem_append.mp hp with hp | hp
    · exact h.told p hp
    · exact h'.told p hp

theorem Aside.weaken {said' : Payload → Prop} (h : Aside said w r)
    (himp : ∀ p, said p → said' p) : Aside said' w r :=
  { h with told := fun p hp => himp p (h.told p hp) }

/-- A line in the log makes no difference. -/
theorem Aside.logged (h : Aside said w r) (level : Level) (text : String) :
    Aside said w (r.1, .log level text :: r.2) :=
  { h with }

theorem aside_tell (w : Watch) (t : Topic) (p : Payload) (h : Handler) :
    Aside (· = p) w (w.tell t p h) := by
  have hjob : Aside (· = p) w (w.startJob (.handle h p)) :=
    ⟨rfl, rfl, rfl, rfl, Nat.le_succ _, fun _ _ => rfl, fun _ hp => List.mem_singleton.mp hp⟩
  cases h with
  | intake id => exact hjob
  | recorder label style fails =>
    cases style with
    | delayed delay => exact hjob
    | prompt =>
      cases fails with
      | false =>
        exact ⟨rfl, rfl, rfl, rfl, Nat.le_refl _, fun _ _ => rfl,
          fun _ hp => List.mem_singleton.mp hp⟩
      | true =>
        exact ⟨rfl, rfl, rfl, rfl, Nat.le_refl _, fun _ _ => rfl,
          fun _ hp => List.mem_singleton.mp hp⟩

theorem aside_emit (w : Watch) (t : Topic) (p : Payload) : Aside (· = p) w (w.emit t p) := by
  rw [emit]
  generalize w.handlersOf t = hs
  induction hs generalizing w with
  | nil => exact .refl _ w
  | cons h rest ih => exact (aside_tell w t p h).append (ih _)

/-- Each handler of a topic is told once. -/
theorem payloads_emit (w : Watch) (t : Topic) (p : Payload) :
    payloads (w.emit t p).2 = List.replicate (w.handlersOf t).length p ∧
      (w.emit t p).1.handlers = w.handlers := by
  have htell (w : Watch) (h : Handler) :
      payloads (w.tell t p h).2 = [p] ∧ (w.tell t p h).1.handlers = w.handlers := by
    cases h with
    | intake id => exact ⟨rfl, rfl⟩
    | recorder label style fails =>
      cases style with
      | delayed delay => exact ⟨rfl, rfl⟩
      | prompt => cases fails <;> exact ⟨rfl, rfl⟩
  rw [emit]
  generalize w.handlersOf t = hs
  induction hs generalizing w with
  | nil => exact ⟨rfl, rfl⟩
  | cons h rest ih =>
    obtain ⟨hpayloads, hhandlers⟩ := ih (w.tell t p h).1
    constructor
    · change payloads ((w.tell t p h).2 ++ ((w.tell t p h).1.tellAll t p rest).2) = _
      rw [payloads_append, (htell w h).1, hpayloads]
      rfl
    · exact hhandlers.trans (htell w h).2

theorem aside_signal (w : Watch) (t : Topic) {p : Payload} (hp : Plain p) :
    Aside Plain w (w.emit t p) :=
  (aside_emit w t p).weaken fun _ h => h ▸ hp

/-- Work aside makes no difference to what the record says. -/
theorem Tracks.aside (h : Tracks debounce w timers tr) (hr : Aside said w r) :
    Tracks debounce r.1 (timersAfter clock timers r.2) tr where
  pending := by rw [hr.pending, h.pending]
  timers := by rw [hr.timers, h.timers]
  running := hr.running.trans h.running
  ready := hr.ready.trans h.ready
  fresh ticket hticket := Nat.lt_of_lt_of_le (h.fresh ticket hticket) hr.ticket
  lawful := h.lawful
  quiet := hr.debounce.trans h.quiet

end Aside

section Pending

theorem Tracks.get?_iff (h : Tracks debounce w timers tr) {path : String} {e : Event}
    {ticket : Nat} : w.pending.get? path = some (e, ticket) ↔
      ∃ q ∈ standing tr, q.event.path = path ∧ q.event = e ∧ q.ticket = ticket := by
  constructor
  · intro hget
    have hmem := OrderedMap.mem_of_get? hget
    rw [h.pending] at hmem
    obtain ⟨q, hq, hentry⟩ := List.mem_map.mp hmem
    cases hentry
    exact ⟨q, hq, rfl, rfl, rfl⟩
  · rintro ⟨q, hq, rfl, rfl, rfl⟩
    refine OrderedMap.get?_of_mem ?_
    rw [h.pending]
    exact List.mem_map_of_mem hq

/-- A path has one pending event. -/
theorem Tracks.path_inj (h : Tracks debounce w timers tr) {p : Queued} (hp : p ∈ standing tr)
    (hq : q ∈ standing tr) (hpath : p.event.path = q.event.path) : p = q := by
  have hp' := h.get?_iff.mpr ⟨p, hp, rfl, rfl, rfl⟩
  have hq' := h.get?_iff.mpr ⟨q, hq, rfl, rfl, rfl⟩
  rw [hpath, hq'] at hp'
  exact h.lawful.standing_inj hp hq (Prod.mk.inj (Option.some.inj hp')).2.symm

/-- The timers that are left when those of some events have been taken back. -/
theorem Tracks.timers_without (h : Tracks debounce w timers tr) (gone : Queued → Bool)
    (disarmed : List Nat) (hgone : ∀ q ∈ standing tr, q.ticket ∈ disarmed ↔ gone q = true) :
    timers.filter (fun t => t.ticket ∉ disarmed) =
      ((standing tr).filter fun q => !gone q).map (Queued.timer debounce) := by
  rw [h.timers, List.filter_map]
  refine congrArg (List.map _) (List.filter_congr fun q hq => ?_)
  have hiff := hgone q hq
  change decide (q.ticket ∉ disarmed) = _
  cases hg : gone q <;> simp [hiff, hg]

theorem timersAfter_disarm (timers : List Timer) (ts : List Nat) :
    timersAfter clock timers (ts.map .disarm) = timers.filter (fun t => t.ticket ∉ ts) := by
  induction ts generalizing timers with
  | nil => simp [timersAfter]
  | cons t ts ih =>
    change timersAfter clock (timers.filter (·.ticket ≠ t)) (ts.map .disarm) = _
    rw [ih, List.filter_filter]
    refine List.filter_congr fun timer _ => ?_
    simp [Bool.and_comm]

theorem payloads_disarm (ts : List Nat) : payloads (ts.map .disarm) = [] := by
  induction ts with
  | nil => rfl
  | cons t ts ih => exact ih

/-- A queued event comes in the place of an earlier one of its path. -/
theorem Tracks.queue (h : Tracks debounce w timers tr) (htaking : Taking tr) (e : Event) :
    Tracks debounce (w.queue e).1 (timersAfter clock timers (w.queue e).2)
      (tr ++ [w.queueItem clock e]) := by
  have hstanding : standing (tr ++ [w.queueItem clock e]) =
      (standing tr).filter (fun q => !decide (e.path = q.event.path)) ++ [⟨clock, w.ticket, e⟩] :=
    standing_concat ..
  -- The timer that is taken back is that of the earlier event of the path.
  have hdisarmed : ∀ q ∈ standing tr,
      q.ticket ∈ (w.pending.get? e.path).toList.map Prod.snd ↔
        decide (e.path = q.event.path) = true := by
    intro q hq
    rw [decide_eq_true_eq]
    constructor
    · intro hmem
      obtain ⟨⟨old, ticket⟩, hold, rfl⟩ := List.mem_map.mp hmem
      obtain ⟨p, hp, hpath, -, hticket⟩ := h.get?_iff.mp (Option.mem_toList.mp hold)
      rw [← h.lawful.standing_inj hp hq hticket, hpath]
    · intro hpath
      have hget := h.get?_iff.mpr ⟨q, hq, hpath.symm, rfl, rfl⟩
      rw [hget]
      exact List.mem_singleton_self _
  have heffects : (w.queue e).2 = ((w.pending.get? e.path).toList.map Prod.snd).map .disarm ++
      [.arm w.ticket e.path w.debounce] := by
    rw [List.map_map]
    rfl
  constructor
  · rw [hstanding, List.map_append]
    change (w.pending.moveToEnd e.path (e, w.ticket)).items = _
    rw [OrderedMap.items_moveToEnd, h.pending, List.filter_map]
    refine congrArg (· ++ [(e.path, e, w.ticket)])
      (congrArg (List.map _) (List.filter_congr fun q _ => ?_))
    simp [Queued.entry, eq_comm]
  · rw [hstanding, List.map_append, heffects, timersAfter_append, timersAfter_disarm,
      h.timers_without _ _ hdisarmed, h.quiet]
    rfl
  · rw [runs_concat]
    exact h.running
  · rw [isReady_concat]
    exact h.ready
  · intro ticket hticket
    rw [tickets_concat] at hticket
    rcases List.mem_append.mp hticket with hticket | hticket
    · exact Nat.lt_succ_of_lt (h.fresh ticket hticket)
    · rw [List.mem_singleton.mp hticket]
      exact Nat.lt_succ_self w.ticket
  · exact h.lawful.concat ⟨h.fresh, htaking⟩
  · exact h.quiet

/-- An item that queues nothing leaves pending what it does not end. -/
theorem Tracks.concat (h : Tracks debounce w timers tr) {i : Item} (hi : i.Allowed debounce tr)
    (hqueued : i.queued? = none) {w' : Watch} {timers' : List Timer}
    (hpending : w'.pending.items = ((standing tr).filter fun q => !i.ends q).map Queued.entry)
    (htimers : timers' = ((standing tr).filter fun q => !i.ends q).map (Queued.timer debounce))
    (hrunning : w'.running = i.onRunning w.running) (hready : w'.ready = i.onReady w.ready)
    (hticket : w'.ticket = w.ticket) (hquiet : w'.debounce = w.debounce) :
    Tracks debounce w' timers' (tr ++ [i]) := by
  have hstanding : standing (tr ++ [i]) = (standing tr).filter fun q => !i.ends q :=
    standing_concat_of hqueued
  constructor
  · rw [hstanding, hpending]
  · rw [hstanding, htimers]
  · rw [runs_concat, ← h.running, hrunning]
  · rw [isReady_concat, ← h.ready, hready]
  · rw [tickets_concat_of hqueued, hticket]
    exact h.fresh
  · exact h.lawful.concat hi
  · exact hquiet.trans h.quiet

/-- An item that concerns only whether the watch runs and is ready. -/
theorem Tracks.flag (h : Tracks debounce w timers tr) {i : Item} (hi : i.Allowed debounce tr)
    (hqueued : i.queued? = none) (hends : ∀ q, i.ends q = false) :
    Tracks debounce { w with running := i.onRunning w.running, ready := i.onReady w.ready } timers
      (tr ++ [i]) := by
  have hall : (standing tr).filter (fun q => !i.ends q) = standing tr :=
    List.filter_eq_self.mpr fun q _ => by rw [hends, Bool.not_false]
  apply h.concat hi hqueued
  · rw [hall]
    exact h.pending
  · rw [hall]
    exact h.timers
  all_goals rfl

/-- Stops and errors take back all that is pending. -/
theorem Tracks.halt (h : Tracks debounce w timers tr) {i : Item} (hi : i.halts = true) :
    Tracks debounce w.halt.1 (timersAfter clock timers w.halt.2) (tr ++ [i]) := by
  have hqueued : i.queued? = none := by cases i <;> first | rfl | cases hi
  have hends (q : Queued) : i.ends q = true := by cases i <;> first | rfl | cases hi
  have hallowed : i.Allowed debounce tr := by
    cases i with
    | stopping => trivial
    | failing => trivial
    | _ => cases hi
  have hnone : (standing tr).filter (fun q => !i.ends q) = [] :=
    List.filter_eq_nil_iff.mpr fun q _ => by rw [hends]; decide
  have hdisarmed : ∀ q ∈ standing tr, q.ticket ∈ w.pending.values.map Prod.snd ↔ true = true := by
    intro q hq
    refine iff_of_true ?_ rfl
    rw [OrderedMap.values, h.pending, List.map_map, List.map_map]
    exact List.mem_map_of_mem hq
  have heffects : w.halt.2 = (w.pending.values.map Prod.snd).map .disarm := by
    rw [List.map_map]
    rfl
  apply h.concat hallowed hqueued
  · rw [hnone]
    rfl
  · rw [hnone, heffects, timersAfter_disarm, h.timers_without (fun _ => true) _ hdisarmed]
    simp
  · exact (Item.onRunning_of_halts hi _).symm
  · exact (Item.onReady_of_halts hi _).symm
  · rfl
  · rfl

theorem payloads_halt (w : Watch) : payloads w.halt.2 = [] := by
  have heffects : w.halt.2 = (w.pending.values.map Prod.snd).map .disarm := by
    rw [List.map_map]
    rfl
  rw [heffects, payloads_disarm]

/-- Whether a path is another one or lies beneath it. -/
def touches (path p : String) : Bool :=
  p = path || Path.isBeneath path p

theorem unwatchPath_of_mem {path : String} (hmem : path ∈ w.extraPaths) : w.unwatchPath path =
    ({ w with
        extraPaths := w.extraPaths.erase path
        pending := w.pending.filter fun p _ => !touches path p },
      (if w.running then [.unwatch path] else []) ++
        ((w.pending.filter fun p _ => touches path p).values.map Prod.snd).map .disarm) := by
  rw [unwatchPath, if_neg (not_not_intro hmem), List.map_map]
  rfl

/-- A path that is not watched any more takes the events at and below it along. -/
theorem Tracks.unwatch (h : Tracks debounce w timers tr) (path : String) :
    Tracks debounce (w.unwatchPath path).1 (timersAfter clock timers (w.unwatchPath path).2)
      (tr ++ w.unwatchItems path) := by
  by_cases hmem : path ∈ w.extraPaths
  · rw [unwatchPath_of_mem hmem, unwatchItems, if_pos hmem]
    -- The timers that are taken back are those of the events at and below the path.
    have hdisarmed : ∀ q ∈ standing tr,
        q.ticket ∈ (w.pending.filter fun p _ => touches path p).values.map Prod.snd ↔
          touches path q.event.path = true := by
      intro q hq
      have hitems : (w.pending.filter fun p _ => touches path p).values.map Prod.snd =
          ((standing tr).filter fun q => touches path q.event.path).map Queued.ticket := by
        change ((w.pending.items.filter fun kv => touches path kv.1).map Prod.snd).map Prod.snd = _
        rw [h.pending, List.filter_map, List.map_map, List.map_map]
        rfl
      rw [hitems]
      constructor
      · intro hmem
        obtain ⟨p, hp, hticket⟩ := List.mem_map.mp hmem
        obtain ⟨hp, htouched⟩ := List.mem_filter.mp hp
        rwa [h.lawful.standing_inj hp hq hticket] at htouched
      · exact fun htouched => List.mem_map_of_mem (List.mem_filter.mpr ⟨hq, htouched⟩)
    have hsignal (timers : List Timer) :
        timersAfter clock timers (if w.running then [.unwatch path] else []) = timers := by
      split <;> rfl
    apply h.concat (i := .unwatched path) trivial rfl
    · change w.pending.items.filter (fun kv => !touches path kv.1) = _
      rw [h.pending, List.filter_map]
      rfl
    · rw [timersAfter_append, hsignal, timersAfter_disarm, h.timers_without _ _ hdisarmed]
      rfl
    all_goals rfl
  · rw [unwatchPath, if_pos hmem, unwatchItems, if_neg hmem, List.append_nil]
    exact h

theorem payloads_unwatch (w : Watch) (path : String) : payloads (w.unwatchPath path).2 = [] := by
  by_cases hmem : path ∈ w.extraPaths
  · rw [unwatchPath_of_mem hmem, payloads_append, payloads_disarm]
    split <;> rfl
  · rw [unwatchPath, if_pos hmem]
    rfl

/-- Each timer belongs to a pending event. -/
theorem Tracks.pending_of_timer (h : Tracks debounce w timers tr) {t : Timer} (ht : t ∈ timers) :
    ∃ q ∈ standing tr, t = q.timer debounce ∧
      w.pending.get? t.path = some (q.event, q.ticket) := by
  rw [h.timers] at ht
  obtain ⟨q, hq, rfl⟩ := List.mem_map.mp ht
  exact ⟨q, hq, rfl, h.get?_iff.mpr ⟨q, hq, rfl, rfl, rfl⟩⟩

/-- The quiet time of a path with a pending event is over. -/
theorem fire_of_pending {path : String} {e : Event} {ticket : Nat}
    (hget : w.pending.get? path = some (e, ticket)) :
    Aside (· = .event e) { w with pending := w.pending.erase path } (w.fire path) := by
  rw [fire, hget]
  dsimp only
  split
  · exact .refl _ _
  · exact (aside_emit _ (.kind e.kind) (.event e)).append (aside_emit _ .event (.event e))

/-- All handlers of its kind and of all events are told of an event, if the watch runs. -/
theorem payloads_fire {path : String} {e : Event} {ticket : Nat}
    (hget : w.pending.get? path = some (e, ticket)) : payloads (w.fire path).2 =
      if w.running then List.replicate
        ((w.handlersOf (.kind e.kind)).length + (w.handlersOf .event).length) (.event e)
      else [] := by
  rw [fire, hget]
  by_cases hrunning : w.running = true
  · obtain ⟨hkind, hhandlers⟩ :=
      payloads_emit { w with pending := w.pending.erase path } (.kind e.kind) (.event e)
    dsimp only
    rw [if_pos hrunning, if_neg (by rw [hrunning]; decide)]
    generalize emit { w with pending := w.pending.erase path } (.kind e.kind) (.event e) = r
      at hkind hhandlers
    have hevent : payloads (r.1.emit .event (.event e)).2 =
        List.replicate (w.handlersOf .event).length (.event e) := by
      rw [(payloads_emit r.1 .event (.event e)).1, handlersOf, hhandlers]
      rfl
    rw [payloads_append, hkind, hevent, List.replicate_append_replicate]
    rfl
  · dsimp only
    rw [if_neg hrunning, if_pos (by simpa using hrunning)]
    rfl

/-- When the timer of a pending event rings, the event is told or dropped. -/
theorem Tracks.ring_item (h : Tracks debounce w timers tr) (hq : q ∈ standing tr)
    (hget : w.pending.get? q.event.path = some (q.event, q.ticket))
    (hdue : q.time + debounce ≤ clock) :
    ∃ i, w.ringItems clock (q.timer debounce) = [i] ∧ i.Allowed debounce tr ∧
      i.queued? = none ∧ (∀ p, i.ends p = decide (q.ticket = p.ticket)) ∧
      i.onRunning w.running = w.running ∧ i.onReady w.ready = w.ready := by
  have hstanding : ⟨q.time + debounce - debounce, q.ticket, q.event⟩ ∈ standing tr := by
    rwa [Int.add_sub_cancel]
  have hget' : w.pending.get? (q.timer debounce).path = some (q.event, q.ticket) := hget
  rw [ringItems, hget']
  cases hrunning : w.running with
  | true =>
    have hruns : runs tr = true := h.running.symm.trans hrunning
    exact ⟨_, rfl, ⟨hruns, hstanding, hdue⟩, rfl, fun _ => rfl, rfl, rfl⟩
  | false =>
    have hruns : runs tr = false := h.running.symm.trans hrunning
    exact ⟨_, rfl, ⟨hruns, q.event, hstanding, hdue⟩, rfl, fun _ => rfl, rfl, rfl⟩

/-- A timer that rings takes its event away. -/
theorem Tracks.ring (h : Tracks debounce w timers tr) {t : Timer} (ht : t ∈ timers)
    (hdue : t.due ≤ clock) :
    Tracks debounce (w.fire t.path).1
      (timersAfter clock (timers.filter (·.ticket ≠ t.ticket)) (w.fire t.path).2)
      (tr ++ w.ringItems clock t) := by
  obtain ⟨q, hq, rfl, hget⟩ := h.pending_of_timer ht
  have hfire := fire_of_pending hget
  obtain ⟨i, hi, hallowed, hqueued, hends, hrunning, hready⟩ := h.ring_item hq hget hdue
  -- The watch goes by paths, and the record by tickets.
  have hpath : ∀ p ∈ standing tr, p.event.path = q.event.path ↔ q.ticket = p.ticket := by
    intro p hp
    constructor
    · exact fun hpath => by rw [h.path_inj hp hq hpath]
    · exact fun hticket => by rw [h.lawful.standing_inj hp hq hticket.symm]
  have herased : Tracks debounce { w with pending := w.pending.erase q.event.path }
      (timers.filter (·.ticket ≠ q.ticket)) (tr ++ [i]) := by
    apply h.concat hallowed hqueued
    · change w.pending.items.filter (fun kv => kv.1 ≠ q.event.path) = _
      rw [h.pending, List.filter_map]
      refine congrArg (List.map _) (List.filter_congr fun p hp => ?_)
      simp [Queued.entry, hends, hpath p hp]
    · rw [h.timers, List.filter_map]
      refine congrArg (List.map _) (List.filter_congr fun p _ => ?_)
      simp [Queued.timer, hends, eq_comm]
    · exact hrunning.symm
    · exact hready.symm
    · rfl
    · rfl
  rw [hi]
  exact herased.aside hfire

end Pending

/-- What work leaves behind is as the record says, and no handler is told of an event. -/
structure Keeps (debounce clock : Int) (timers : List Timer) (tr : List Item) (items : List Item)
    (r : Watch × List Effect) : Prop where
  tracks : Tracks debounce r.1 (timersAfter clock timers r.2) (tr ++ items)
  told : ∀ p ∈ payloads r.2, Plain p

theorem Tracks.keeps_aside (h : Tracks debounce w timers tr) {r : Watch × List Effect}
    (hr : Aside Plain w r) : Keeps debounce clock timers tr [] r :=
  ⟨by
    rw [List.append_nil]
    exact h.aside hr, hr.told⟩

theorem Keeps.aside {r r' : Watch × List Effect} (h : Keeps debounce clock timers tr items r)
    (hr : Aside Plain r.1 r') : Keeps debounce clock timers tr items (r'.1, r.2 ++ r'.2) where
  tracks := by
    rw [timersAfter_append]
    exact h.tracks.aside hr
  told p hp := by
    rw [payloads_append] at hp
    rcases List.mem_append.mp hp with hp | hp
    · exact h.told p hp
    · exact hr.told p hp

/-- A line in the log makes no difference. -/
theorem Keeps.logged {r : Watch × List Effect} (h : Keeps debounce clock timers tr items r)
    (level : Level) (text : String) :
    Keeps debounce clock timers tr items (r.1, .log level text :: r.2) :=
  ⟨h.tracks, h.told⟩

/-- Work that queues events at a time when events may be queued. -/
structure Carries (debounce clock : Int) (w : Watch) (items : List Item) (r : Watch × List Effect) :
    Prop where
  queued : ∀ i ∈ items, ∃ q, i = .queued q ∧ q.time = clock
  keeps : ∀ {timers tr}, Tracks debounce w timers tr → Taking tr →
    Keeps debounce clock timers tr items r

section Carries

variable {r r' : Watch × List Effect} {d : Disk} {now : Int}

theorem Aside.carries (h : Aside Plain w r) (clock : Int) : Carries debounce clock w [] r :=
  ⟨fun _ hi => absurd hi List.not_mem_nil, fun ht _ => ht.keeps_aside h⟩

theorem Carries.isSome (h : Carries debounce clock w items r) :
    ∀ i ∈ items, (i.queued?).isSome = true := by
  intro i hi
  obtain ⟨q, rfl, -⟩ := h.queued i hi
  rfl

theorem Carries.append {items' : List Item} (h : Carries debounce clock w items r)
    (h' : Carries debounce clock r.1 items' r') :
    Carries debounce clock w (items ++ items') (r'.1, r.2 ++ r'.2) where
  queued i hi := (List.mem_append.mp hi).elim (h.queued i) (h'.queued i)
  keeps {timers tr} ht htaking := by
    have hfirst := h.keeps ht htaking
    have hrest := h'.keeps hfirst.tracks (htaking.append h.isSome)
    refine ⟨?_, fun p hp => ?_⟩
    · rw [timersAfter_append, ← List.append_assoc]
      exact hrest.tracks
    · rw [payloads_append] at hp
      exact (List.mem_append.mp hp).elim (hfirst.told p) (hrest.told p)

theorem carries_queue (clock : Int) (w : Watch) (e : Event) :
    Carries debounce clock w [w.queueItem clock e] (w.queue e) where
  queued i hi := ⟨_, List.mem_singleton.mp hi, rfl⟩
  keeps ht htaking := by
    refine ⟨ht.queue htaking e, fun p hp => ?_⟩
    rw [queue, payloads_append] at hp
    cases hget : w.pending.get? e.path <;> rw [hget] at hp <;> cases hp

theorem aside_known (said : Payload → Prop) (w : Watch) (known : List String) :
    Aside said w ({ w with knownDirs := known }, []) :=
  ⟨rfl, rfl, rfl, rfl, Nat.le_refl _, fun _ _ => rfl, fun _ hp => absurd hp List.not_mem_nil⟩

theorem interpretGone_fst (w : Watch) (now : Int) (path : String) :
    ∃ known, (w.interpretGone now path).1 = { w with knownDirs := known } := by
  unfold interpretGone
  split
  · exact ⟨_, rfl⟩
  · split <;> exact ⟨_, rfl⟩

theorem interpretPresent_fst (w : Watch) (d : Disk) (now : Int) (added : Bool) (path : String) :
    ∃ known, (w.interpretPresent d now added path).1 = { w with knownDirs := known } := by
  unfold interpretPresent
  split
  · split <;> exact ⟨_, rfl⟩
  · split <;> exact ⟨_, rfl⟩

/-- Interpreting a sighting changes at most which directories are known. -/
theorem interpret_fst (w : Watch) (d : Disk) (now : Int) (kind : SightingKind) (path : String) :
    ∃ known, (w.interpret d now kind path).1 = { w with knownDirs := known } := by
  unfold interpret
  split
  · exact ⟨_, rfl⟩
  · split
    · exact ⟨_, rfl⟩
    · cases kind with
      | deleted => exact w.interpretGone_fst now path
      | added => exact w.interpretPresent_fst d now true path
      | modified => exact w.interpretPresent_fst d now false path
      | other => exact ⟨_, rfl⟩

theorem aside_expansion (w : Watch) (path : String) :
    Aside Plain w (w.startJob (.expand path)) :=
  ⟨rfl, rfl, rfl, rfl, Nat.le_succ _, fun _ _ => rfl, fun _ hp => absurd hp List.not_mem_nil⟩

theorem carries_takeChange (clock : Int) (w : Watch) (d : Disk) (now : Int) (c : Sighting) :
    Carries debounce clock w (w.changeItems d now clock c) (w.takeChange d now c) := by
  obtain ⟨known, hknown⟩ := w.interpret_fst d now c.kind c.path
  have haside := aside_known Plain w known
  rw [changeItems, takeChange]
  generalize w.interpret d now c.kind c.path = read at hknown
  obtain ⟨w', event⟩ := read
  obtain rfl : w' = _ := hknown
  cases event with
  | error f =>
    have hsignal := haside.append (aside_signal _ .error (p := .failure f) fun _ h => by cases h)
    exact (hsignal.logged _ _).carries clock
  | ok event =>
    cases event with
    | none => exact haside.carries clock
    | some e =>
      have hqueue : Carries debounce clock w _ _ :=
        (haside.carries clock).append (carries_queue clock _ e)
      dsimp only
      split
      · exact hqueue.append ((aside_expansion _ e.path).carries clock)
      · exact hqueue

theorem carries_takeEach (clock : Int) (w : Watch) (d : Disk) (now : Int) (cs : List Sighting) :
    Carries debounce clock w (w.eachItems d now clock cs) (w.takeEach d now cs) := by
  induction cs generalizing w with
  | nil => exact (Aside.refl Plain w).carries clock
  | cons c rest ih => exact (carries_takeChange clock w d now c).append (ih _)

theorem carries_found (clock : Int) (w : Watch) (now : Int) (found : List Entry) :
    Carries debounce clock w (w.foundItems now clock found) (w.queueFound now found) := by
  induction found generalizing w with
  | nil => exact (Aside.refl Plain w).carries clock
  | cons e rest ih =>
    rw [foundItems, queueFound]
    cases w.foundEvent now e with
    | ok event => exact (carries_queue clock w event).append (ih _)
    | error f => exact ((Aside.refl Plain w).carries clock).append (ih w)

theorem carries_new (clock : Int) (w : Watch) (now : Int) (found : List Entry) :
    Carries debounce clock w (w.newItems now clock found) (w.queueNew now found) := by
  induction found generalizing w with
  | nil => exact (Aside.refl Plain w).carries clock
  | cons e rest ih =>
    rw [newItems, queueNew]
    dsimp only
    generalize hknown : (if e.isDirectory then
      { w with knownDirs := addKnown w.knownDirs e.path } else w) = w'
    have haside : Aside Plain w (w', []) := by
      rw [← hknown]
      split
      · exact aside_known Plain w _
      · exact .refl Plain w
    split
    · exact (haside.carries clock).append (((Aside.refl Plain w').carries clock).append (ih w'))
    · cases w'.foundEvent now e with
      | ok event =>
        exact (haside.carries clock).append ((carries_queue clock w' event).append (ih _))
      | error f =>
        exact (haside.carries clock).append (((Aside.refl Plain w').carries clock).append (ih w'))

end Carries

section Stretches

variable {d : Disk} {now : Int} {f : Failure}

/-- Changes that are reported queue their events, if the watch runs. -/
theorem Tracks.report (h : Tracks debounce w timers tr) (cs : List Sighting) :
    Keeps debounce clock timers tr (w.reportItems d now clock cs) (w.takeChanges d now cs) := by
  rw [reportItems, takeChanges]
  split
  · next hrunning =>
    have htaking : Taking tr := .inl (h.running.symm.trans hrunning)
    exact (carries_takeEach clock w d now cs).keeps h htaking
  · exact h.keeps_aside (.refl Plain w)

theorem Tracks.keeps_halt (h : Tracks debounce w timers tr) {i : Item} (hi : i.halts = true) :
    Keeps debounce clock timers tr [i] w.halt :=
  ⟨h.halt hi, fun p hp => by
    rw [payloads_halt] at hp
    cases hp⟩

theorem plain_failure (f : Failure) : Plain (.failure f) := fun _ h => by cases h

theorem plain_nothing : Plain .nothing := fun _ h => by cases h

theorem plain_message (text : String) : Plain (.message text) := fun _ h => by cases h

theorem aside_stopped (w : Watch) (wasRunning : Bool) :
    Aside Plain w (if wasRunning then w.emit .stopped .nothing else (w, [])) := by
  split
  · exact aside_signal w .stopped plain_nothing
  · exact .refl Plain w

theorem Tracks.fatal (h : Tracks debounce w timers tr) (f : Failure) :
    Keeps debounce clock timers tr [.failing] (w.fatal f) := by
  have hsignals := (aside_signal w.halt.1 .error (plain_failure f)).append
    (aside_stopped _ w.running)
  have hhalt : Keeps debounce clock timers tr [.failing] w.halt := h.keeps_halt rfl
  have hkeeps := hhalt.aside hsignals
  rw [← List.append_assoc] at hkeeps
  exact hkeeps.logged _ _

theorem Tracks.keeps_unwatch (h : Tracks debounce w timers tr) (path : String) :
    Keeps debounce clock timers tr (w.unwatchItems path) (w.unwatchPath path) :=
  ⟨h.unwatch path, fun p hp => by
    rw [payloads_unwatch] at hp
    cases hp⟩

theorem aside_addPath (w : Watch) (path : String) : Aside Plain w (w.addPath path) := by
  rw [addPath]
  split
  · exact .refl Plain w
  · refine ⟨rfl, rfl, rfl, rfl, Nat.le_refl _, fun clock timers => ?_, fun p hp => ?_⟩
    · dsimp only
      split <;> rfl
    · dsimp only at hp
      split at hp <;> cases hp

theorem aside_handlers (w : Watch) (handlers : OrderedMap String (List Handler)) :
    Aside Plain w ({ w with handlers }, []) :=
  ⟨rfl, rfl, rfl, rfl, Nat.le_refl _, fun _ _ => rfl, fun _ hp => by cases hp⟩

theorem aside_jobOver (w : Watch) (ticket : Nat) (result : Except Failure Unit) :
    Aside Plain w (w.jobOver ticket result) := by
  cases result with
  | ok => exact ⟨rfl, rfl, rfl, rfl, Nat.le_refl _, fun _ _ => rfl, fun _ hp => by cases hp⟩
  | error f => exact ⟨rfl, rfl, rfl, rfl, Nat.le_refl _, fun _ _ => rfl, fun _ hp => by cases hp⟩

/-- A start sets the watch running, unless it runs. -/
theorem Tracks.beginStart (h : Tracks debounce w timers tr) (id : Nat) :
    Keeps debounce clock timers tr (if w.running then [] else [.starting id])
      (w.beginStart.state, w.beginStart.effects) := by
  rw [Watch.beginStart]
  split
  · exact (h.keeps_aside (aside_signal w .warning (plain_message _))).logged _ _
  · exact ⟨h.flag (i := .starting id) trivial rfl fun _ => rfl, fun p hp => by cases hp⟩

theorem Tracks.learned (h : Tracks debounce w timers tr) (result : Except Failure (List Entry)) :
    Keeps debounce clock timers tr [] ((w.learned result).state, (w.learned result).effects) := by
  cases result with
  | error f => exact h.keeps_aside (.refl Plain w)
  | ok initial => exact h.keeps_aside (aside_known Plain w _)

/-- A start that succeeds queues what was there, and then the watch is ready. -/
theorem Tracks.started (h : Tracks debounce w timers tr) (id : Nat) (initial : List Entry)
    (result : Except Failure Unit) :
    Keeps debounce clock timers tr (w.startedItems now clock id initial result)
      ((w.started now initial result).state, (w.started now initial result).effects) := by
  cases result with
  | error f => exact h.fatal f
  | ok =>
    have hconnected : Tracks debounce w timers (tr ++ [.connected id]) :=
      h.flag (i := .connected id) trivial rfl fun _ => rfl
    -- What was there is queued even if the watch has been halted meanwhile.
    have hconnecting : Taking (tr ++ [.connected id]) :=
      .inr ⟨id, tr, [], rfl, fun _ hi => absurd hi List.not_mem_nil⟩
    have hcarries : Carries debounce clock w
        (if w.ignoreInitial then [] else w.foundItems now clock initial)
        (if w.ignoreInitial then (w, []) else w.queueFound now initial) := by
      split
      · exact (Aside.refl Plain w).carries clock
      · exact carries_found clock w now initial
    rw [startedItems, Watch.started]
    generalize (if w.ignoreInitial then [] else w.foundItems now clock initial) = items at hcarries
    generalize (if w.ignoreInitial then (w, []) else w.queueFound now initial) = r at hcarries
    have hqueued := hcarries.keeps hconnected hconnecting
    have hready : Keeps debounce clock timers (tr ++ [.connected id]) (items ++ [.ready id])
        ({ r.1 with ready := true }, r.2) := by
      refine ⟨?_, hqueued.told⟩
      rw [← List.append_assoc]
      refine hqueued.tracks.flag (i := .ready id) ⟨tr, items, ?_, hcarries.isSome⟩ rfl fun _ => rfl
      rw [List.append_assoc]
      rfl
    have hsignal := hready.aside (aside_signal { r.1 with ready := true } .ready plain_nothing)
    refine ⟨?_, hsignal.told⟩
    have htracks := hsignal.tracks
    rwa [List.append_assoc] at htracks

theorem Tracks.beginStop (h : Tracks debounce w timers tr) (id : Nat) :
    Keeps debounce clock timers tr [.stopping id] (w.beginStop.state, w.beginStop.effects) :=
  h.keeps_halt rfl

/-- Waiting for jobs changes nothing. -/
theorem settle_eq (w : Watch) (effects : List Effect) :
    (w.settle effects).state = w ∧ (w.settle effects).effects = effects := by
  unfold settle
  split <;> exact ⟨rfl, rfl⟩

theorem aside_settle (w : Watch) : Aside Plain w ((w.settle []).state, (w.settle []).effects) := by
  rw [(w.settle_eq []).1, (w.settle_eq []).2]
  exact .refl Plain w

theorem aside_stoppedWork (w : Watch) (wasRunning : Bool) :
    Aside Plain w ((w.stopped wasRunning).state, (w.stopped wasRunning).effects) := by
  have haside := aside_stopped w wasRunning
  rw [Watch.stopped]
  generalize (if wasRunning then w.emit .stopped .nothing else (w, [])) = r at haside
  dsimp only
  rwa [(r.1.settle_eq r.2).1, (r.1.settle_eq r.2).2]

theorem Tracks.expanded (h : Tracks debounce w timers tr) (result : Except Failure (List Entry)) :
    Keeps debounce clock timers tr (w.expandedItems now clock result)
      ((w.expanded now result).state, (w.expanded now result).effects) := by
  cases result with
  | error f => exact h.keeps_aside (.refl Plain w)
  | ok found =>
    rw [expandedItems, Watch.expanded]
    split
    · next hrunning =>
      have htaking : Taking tr := .inl (h.running.symm.trans hrunning)
      exact (carries_new clock w now found).keeps h htaking
    · exact h.keeps_aside (.refl Plain w)

end Stretches

end Watch

end LiveIndex
