import LiveIndex.Proofs.Index.Alone
import LiveIndex.Proofs.Index.Drift
import LiveIndex.Proofs.Index.Updates
import LiveIndex.Proofs.Intake.Steps

/-! What a flush makes of the changes that were taken in before it, compared with what they make of
the index one after another. -/

namespace LiveIndex.Intake

open Index (Moment Update)

/-- A call that brings in a change of a path. -/
inductive Brings : Call → WatchKind → String → Prop
  | change {word : String} {kind : WatchKind} (hword : WatchKind.ofWord? word = some kind)
      (path : String) : Brings (.change word path) kind path
  | directoryChange {word : String} {kind : WatchKind}
      (hword : WatchKind.ofWord? word = some kind) (hdirectory : kind.ofDirectory = true)
      (path : String) : Brings (.directoryChange word path) kind path

/-- A change as it is taken in: the call that brings it, and the update of the index that it stands
for, with the entry that is found when it arrives. -/
structure Arrival where
  call : Call
  kind : WatchKind
  update : Update
  brings : Brings call kind update.path
  fits : update.isRemoval = kind.isRemoval

/-- The update that a queued change stands for. -/
def Change.update? (c : Change) : Option Update :=
  if c.isRemoval then some (.remove c.path) else c.entry.map .store

theorem Brings.begin {call : Call} {kind : WatchKind} {path : String} (h : Brings call kind path)
    (ix : Intake) : ix.begin call = ix.receive kind path := by
  cases h with
  | change hword path => simp only [Intake.begin, beginChange, hword]
  | directoryChange hword hdirectory path =>
    simp only [Intake.begin, beginDirectoryChange, hword, hdirectory, if_true]

/-- No batch is under way, and the queue holds the last one of some updates for each path. -/
structure Holds (ix : Intake) (us : List Update) : Prop where
  live : ix.destroyed = false
  idle : ix.processing = false
  batch : ix.batch = none
  queue : ∀ p, Option.Rel (fun c u => c.path = p ∧ c.update? = some u) (ix.queue.get? p)
    (Update.last us p)

theorem holds_create (root : String) (options : Options) : Holds (create root options) [] :=
  ⟨rfl, rfl, rfl, fun _ => .none⟩

section Arrivals

variable {ix : Intake} {us : List Update} {u : Update} {c : Change}

/-- A change that is queued takes the place of the one of its path before it. -/
theorem Holds.enqueue (h : Holds ix us) (hpath : c.path = u.path) (hupdate : c.update? = some u) :
    Holds (ix.enqueue c).1 (us ++ [u]) := by
  have hnot : ¬ix.destroyed = true := by
    rw [h.live]
    exact Bool.false_ne_true
  rw [Intake.enqueue, if_neg hnot]
  refine ⟨h.live, h.idle, h.batch, fun p => ?_⟩
  change Option.Rel _ ((ix.queue.insert c.path c).get? p) _
  rw [OrderedMap.get?_insert, Update.last_concat, hpath]
  split
  · next hp => exact .some ⟨hpath.trans hp, hupdate⟩
  · exact h.queue p

/-- A change that is the latest of its path is queued at once. -/
theorem Holds.accept (h : Holds ix us) (hpath : c.path = u.path) (hupdate : c.update? = some u)
    (hlatest : ix.latest.get? c.path = some c.arrival) :
    (ix.accept c).turn = .done (.ok ()) ∧ Holds (ix.accept c).state (us ++ [u]) := by
  rw [Intake.accept, if_pos hlatest]
  have herased : Holds { ix with latest := ix.latest.erase c.path } us :=
    ⟨h.live, h.idle, h.batch, h.queue⟩
  exact ⟨rfl, herased.enqueue hpath hupdate⟩

/-- An arrival takes a ticket, which makes it the latest of its path. -/
def drawn (ix : Intake) (path : String) : Intake :=
  { ix with ticket := ix.ticket + 1, latest := ix.latest.insert path ix.ticket }

theorem Holds.drawn (h : Holds ix us) (path : String) : Holds (ix.drawn path) us :=
  ⟨h.live, h.idle, h.batch, h.queue⟩

theorem latest_drawn (ix : Intake) (path : String) :
    (ix.drawn path).latest.get? path = some ix.ticket :=
  (OrderedMap.get?_insert ..).trans (if_pos rfl)

theorem Holds.receive (h : Holds ix us) (kind : WatchKind) (path : String) :
    ix.receive kind path =
      if kind.isRemoval then (ix.drawn path).accept ⟨kind, path, none, 0, ix.ticket⟩
      else .ask (ix.drawn path) [] (.lookUp path) (.lookingUp ix.ticket kind path) := by
  have hnot : ¬ix.destroyed = true := by
    rw [h.live]
    exact Bool.false_ne_true
  rw [Intake.receive, if_neg hnot]
  rfl

end Arrivals

namespace Session

/-- Lets a change arrive; its metadata is found at once. -/
def deliver (s : Session) (a : Arrival) : Session :=
  match a.update with
  | .store e => (s.step (.begin a.call)).step (.resume s.nextId (.found (.ok e)))
  | .remove _ => s.step (.begin a.call)

def deliverAll (s : Session) (arrivals : List Arrival) : Session :=
  arrivals.foldl deliver s

variable {s : Session} {us : List Update}

/-- The only call that waits goes on when what it waits for comes. -/
theorem step_resume {f : Flight} (hs : s.flights = [f]) (reply : Reply) :
    s.step (.resume f.id reply) = s.wake f reply := by
  simp [step, hs]

theorem without_flights {f : Flight} (hs : s.flights = [f]) : (s.without f).flights = [] := by
  simp [without, hs]

/-- What a call does that brings in a change of a path, while no other one waits. -/
theorem step_brings (hflights : s.flights = []) (h : Holds s.intake us) {call : Call}
    {kind : WatchKind} {path : String} (hbrings : Brings call kind path) :
    let work := if kind.isRemoval then
        (s.intake.drawn path).accept ⟨kind, path, none, 0, s.intake.ticket⟩
      else .ask (s.intake.drawn path) [] (.lookUp path) (.lookingUp s.intake.ticket kind path)
    (s.step (.begin call)).intake = work.state ∧
      (s.step (.begin call)).flights =
        match work.turn with
        | .done _ => []
        | .ask request waiting => [⟨s.nextId, none, request, waiting⟩] := by
  intro work
  have hbegin : s.step (.begin call) =
      (s.note (s.intake.arrivalEvents call)).launch none work := by
    have hwork : work = s.intake.begin call := by
      rw [hbrings.begin, h.receive]
    rw [hwork]
    cases hbrings <;> rfl
  rw [hbegin]
  refine ⟨advance_intake .., (advance_flights ..).trans ?_⟩
  change s.flights ++ _ = _
  rw [hflights]
  rfl

/-- After an arrival the queue holds its update as well. -/
theorem deliver_holds (hflights : s.flights = []) (h : Holds s.intake us) (a : Arrival) :
    (s.deliver a).flights = [] ∧ Holds (s.deliver a).intake (us ++ [a.update]) := by
  obtain ⟨call, kind, update, hbrings, hfits⟩ := a
  cases update with
  | remove path =>
    have hkind : kind.isRemoval = true := hfits.symm
    have hbrings : Brings call kind path := hbrings
    obtain ⟨hintake, hcalls⟩ := step_brings hflights h hbrings
    rw [if_pos hkind] at hintake hcalls
    obtain ⟨hdone, hheld⟩ := (h.drawn path).accept (c := ⟨kind, path, none, 0, s.intake.ticket⟩)
      (u := .remove path) rfl (by simp [Change.update?, Change.isRemoval, hkind])
      (latest_drawn s.intake path)
    refine ⟨hcalls.trans ?_, ?_⟩
    · rw [hdone]
    · exact hintake ▸ hheld
  | store e =>
    have hkind : ¬kind.isRemoval = true := by
      rw [← hfits]
      exact Bool.false_ne_true
    have hbrings : Brings call kind e.path := hbrings
    obtain ⟨hintake, hcalls⟩ := step_brings hflights h hbrings
    rw [if_neg hkind] at hintake hcalls
    obtain ⟨t, ht⟩ : ∃ t, t = s.step (.begin call) := ⟨_, rfl⟩
    rw [← ht] at hintake hcalls
    obtain ⟨hdone, hheld⟩ := (h.drawn e.path).accept
      (c := ⟨kind, e.path, some e, 0, s.intake.ticket⟩) (u := .store e) rfl
      (by simp [Change.update?, Change.isRemoval, hkind]) (latest_drawn s.intake e.path)
    obtain ⟨f, hf⟩ : ∃ f : Flight, f = ⟨s.nextId, none, .lookUp e.path,
      .lookingUp s.intake.ticket kind e.path⟩ := ⟨_, rfl⟩
    have hwaits : t.flights = [f] := by
      rw [hcalls, hf]
      rfl
    -- The metadata is found while the change is still the latest of its path.
    have hwake : s.deliver ⟨call, kind, .store e, hbrings, hfits⟩ =
        ((t.without f).note (t.intake.foundEvents s.intake.ticket kind e.path (.ok e))).advance
          f.id f.ticket
          ((s.intake.drawn e.path).accept ⟨kind, e.path, some e, 0, s.intake.ticket⟩) := by
      have hdeliver : s.deliver ⟨call, kind, .store e, hbrings, hfits⟩ =
          t.step (.resume f.id (.found (.ok e))) := by
        rw [ht, hf]
        rfl
      have hfound : t.wake f (.found (.ok e)) =
          ((t.without f).note (t.intake.foundEvents s.intake.ticket kind e.path (.ok e))).advance
            f.id f.ticket (t.intake.lookedUp s.intake.ticket kind e.path (.ok e)) := by
        rw [hf]
        rfl
      rw [hdeliver, step_resume hwaits, hfound, hintake]
      rfl
    rw [hwake]
    refine ⟨?_, (advance_intake ..).symm ▸ hheld⟩
    rw [advance_flights, hdone, flightsAfter, List.append_nil]
    exact without_flights hwaits

theorem deliverAll_holds (hflights : s.flights = []) (h : Holds s.intake us)
    (arrivals : List Arrival) : (s.deliverAll arrivals).flights = [] ∧
      Holds (s.deliverAll arrivals).intake (us ++ arrivals.map Arrival.update) := by
  induction arrivals generalizing s us with
  | nil =>
    rw [List.map_nil, List.append_nil]
    exact ⟨hflights, h⟩
  | cons a rest ih =>
    obtain ⟨hnext, hheld⟩ := deliver_holds hflights h a
    have hall := ih hnext hheld
    rwa [List.append_assoc] at hall

end Session

section Queue

variable {ix : Intake} {us : List Update}

theorem update?_eq_store {c : Change} {e : Entry} :
    c.update? = some (.store e) ↔ c.isRemoval = false ∧ c.entry = some e := by
  unfold Change.update?
  cases c.isRemoval with
  | true => simp
  | false => simp

theorem update?_eq_remove {c : Change} {p : String} :
    c.update? = some (.remove p) ↔ c.isRemoval = true ∧ c.path = p := by
  unfold Change.update?
  cases c.isRemoval with
  | true => simp
  | false => simp

theorem Holds.of_get? (h : Holds ix us) {p : String} {c : Change}
    (hc : ix.queue.get? p = some c) :
    c.path = p ∧ ∃ u, Update.last us p = some u ∧ c.update? = some u := by
  have hrel := h.queue p
  rw [hc] at hrel
  generalize Update.last us p = last at hrel
  cases hrel with
  | some hboth => exact ⟨hboth.1, _, rfl, hboth.2⟩

theorem Holds.of_mem (h : Holds ix us) {c : Change} (hc : c ∈ ix.queue.values) :
    ∃ u, Update.last us c.path = some u ∧ c.update? = some u := by
  obtain ⟨p, hp⟩ := OrderedMap.mem_values_iff.mp hc
  obtain ⟨rfl, hlast⟩ := h.of_get? hp
  exact hlast

theorem Holds.mem_of_last (h : Holds ix us) {p : String} {u : Update}
    (hu : Update.last us p = some u) : ∃ c ∈ ix.queue.values, c.path = p ∧ c.update? = some u := by
  have hrel := h.queue p
  rw [hu] at hrel
  generalize hc : ix.queue.get? p = c at hrel
  cases hrel with
  | some hboth => exact ⟨_, OrderedMap.mem_values_iff.mpr ⟨p, hc⟩, hboth⟩

def stores (ix : Intake) : List Change :=
  ix.queue.values.filter fun c => !c.isRemoval

def removals (ix : Intake) : List Change :=
  ix.queue.values.filter Change.isRemoval

/-- An intake that has taken its queue as a batch. -/
def busy (ix : Intake) : Intake :=
  { ix with processing := true, queue := .empty }

theorem process_flush (hix : ix.processing = false) : ix.process .flush =
    if ix.queue.isEmpty then .done ix [] ()
    else if ix.stores.isEmpty then ix.busy.nextRemoval ⟨.flush, ix.removals, []⟩
    else .ask ix.busy [] (.store (ix.stores.filterMap Change.entry))
      (.storing ix.stores ⟨.flush, ix.removals, []⟩) := by
  rw [process, hix, Bool.false_or]
  rfl

/-- What is queued is what is left of the updates if only the last one of each path counts. -/
theorem Holds.coalesced (h : Holds ix us) : Index.Coalesced us (ix.stores.filterMap Change.entry)
    (ix.removals.map Change.path) := by
  have hentry : ∀ c ∈ ix.stores,
      ∃ e, c.entry = some e ∧ Update.last us c.path = some (.store e) := by
    intro c hc
    obtain ⟨hmem, hstore⟩ := List.mem_filter.mp hc
    obtain ⟨u, hlast, hupdate⟩ := h.of_mem hmem
    cases u with
    | remove p =>
      rw [(update?_eq_remove.mp hupdate).1] at hstore
      cases hstore
    | store e => exact ⟨e, (update?_eq_store.mp hupdate).2, hlast⟩
  refine ⟨?_, fun e => ⟨?_, ?_⟩, fun p => ⟨?_, ?_⟩⟩
  · have hpaths :
        (ix.stores.filterMap Change.entry).map Entry.path = ix.stores.map Change.path := by
      rw [List.map_filterMap, List.filterMap_eq_map_iff_forall_eq_some]
      intro c hc
      obtain ⟨e, he, hlast⟩ := hentry c hc
      obtain ⟨hpath, -⟩ := Update.last_eq_some_iff.mp hlast
      rw [he, Option.map_some]
      exact congrArg some hpath
    have hkeyed : ∀ p c, ix.queue.get? p = some c → c.path = p := fun p c hc => (h.of_get? hc).1
    rw [hpaths]
    exact (OrderedMap.nodup_map_values hkeyed).sublist (List.filter_sublist.map _)
  · intro he
    obtain ⟨c, hc, hce⟩ := List.mem_filterMap.mp he
    obtain ⟨e', he', hlast⟩ := hentry c hc
    cases he'.symm.trans hce
    obtain ⟨hpath, -⟩ := Update.last_eq_some_iff.mp hlast
    have hpath : e.path = c.path := hpath
    rw [hpath]
    exact hlast
  · intro hlast
    obtain ⟨c, hc, -, hupdate⟩ := h.mem_of_last hlast
    obtain ⟨hstore, hce⟩ := update?_eq_store.mp hupdate
    refine List.mem_filterMap.mpr ⟨c, List.mem_filter.mpr ⟨hc, ?_⟩, hce⟩
    rw [hstore]
    rfl
  · intro hp
    obtain ⟨c, hc, rfl⟩ := List.mem_map.mp hp
    obtain ⟨hmem, hremoval⟩ := List.mem_filter.mp hc
    obtain ⟨u, hlast, hupdate⟩ := h.of_mem hmem
    cases u with
    | remove p => rw [hlast, (update?_eq_remove.mp hupdate).2]
    | store e =>
      rw [(update?_eq_store.mp hupdate).1] at hremoval
      cases hremoval
  · intro hlast
    obtain ⟨c, hc, hpath, hupdate⟩ := h.mem_of_last hlast
    exact List.mem_map.mpr
      ⟨c, List.mem_filter.mpr ⟨hc, (update?_eq_remove.mp hupdate).1⟩, hpath⟩

end Queue

/-- An intake and the index that it serves. -/
structure Pair where
  intake : Session
  base : Index.Session

namespace Pair

/-- What an intake is told of a call of its index. -/
def told : Option (Except Failure Index.Answer) → Except Failure Unit
  | some (.error f) => .error f
  | _ => .ok ()

/-- Lets the index do what the intake has asked of it. -/
def serve (p : Pair) (m : Moment) : Pair :=
  match p.intake.flights with
  | [] => p
  | f :: _ =>
    match f.request with
    | .store entries =>
      let base := p.base.call m (.batch entries)
      ⟨p.intake.step (.resume f.id (.served (told (base.answer? p.base.nextId)))), base⟩
    | .remove path =>
      let base := p.base.call m (.remove path)
      ⟨p.intake.step (.resume f.id (.served (told (base.answer? p.base.nextId)))), base⟩
    | _ => p

def serveAll (p : Pair) (moments : List Moment) : Pair :=
  moments.foldl serve p

/-- Flushes the intake, with all that it asks for. -/
def flush (p : Pair) (moments : List Moment) : Pair :=
  serveAll ⟨p.intake.step (.begin .flush), p.base⟩ moments

theorem serveAll_done (p : Pair) (h : p.intake.flights = []) (moments : List Moment) :
    p.serveAll moments = p := by
  induction moments with
  | nil => rfl
  | cons m rest ih =>
    have hserve : p.serve m = p := by
      rw [serve, h]
    change (p.serve m).serveAll rest = p
    rw [hserve, ih]

section Serving

variable {s : Session} (hflights : s.flights = []) {base : Index.Session} (hidle : base.Idle)
  {m : Moment} (hm : m.Bearable) (id : Nat) (ix : Intake) (effects : List Effect) (round : Round)

include hflights in
theorem advance_ask (request : Request) (waiting : Waiting) :
    (s.advance id none (.ask ix effects request waiting)).flights =
        [⟨id, none, request, waiting⟩] ∧
      (s.advance id none (.ask ix effects request waiting)).intake = ix := by
  refine ⟨?_, Session.advance_intake ..⟩
  rw [Session.advance_flights, hflights]
  rfl

include hflights hidle hm

/-- When the index has stored what it was asked to store, a batch goes on to its removals. -/
theorem serve_storing (entries : List Entry) (stores : List Change) : ∃ r : Session,
    r.flights = [] ∧
      serve ⟨s.advance id none (.ask ix effects (.store entries) (.storing stores round)), base⟩ m =
        ⟨r.advance id none ((ix.nextRemoval round).after []), base.call m (.batch entries)⟩ := by
  obtain ⟨u, hu⟩ : ∃ u, u =
    s.advance id none (.ask ix effects (.store entries) (.storing stores round)) := ⟨_, rfl⟩
  obtain ⟨hwaits, hintake⟩ := advance_ask hflights id ix effects (.store entries)
    (.storing stores round)
  rw [← hu] at hwaits hintake
  have hanswer := (Index.Session.call_batch hidle hm entries).answer
  refine ⟨(u.without _).note [.returned stores (.ok ())], Session.without_flights hwaits, ?_⟩
  rw [← hu]
  simp only [serve, hwaits, hanswer, told]
  rw [Session.step_resume hwaits, ← hintake]
  rfl

/-- When the index has removed a path, a batch goes on to its next removal. -/
theorem serve_removing (c : Change) : ∃ r : Session, r.flights = [] ∧
    serve ⟨s.advance id none (.ask ix effects (.remove c.path) (.removing c round)), base⟩ m =
      ⟨r.advance id none ((ix.nextRemoval round).after []), base.call m (.remove c.path)⟩ := by
  obtain ⟨u, hu⟩ : ∃ u, u =
    s.advance id none (.ask ix effects (.remove c.path) (.removing c round)) := ⟨_, rfl⟩
  obtain ⟨hwaits, hintake⟩ := advance_ask hflights id ix effects (.remove c.path)
    (.removing c round)
  rw [← hu] at hwaits hintake
  have hanswer := (Index.Session.call_remove hidle hm c.path).answer
  refine ⟨(u.without _).note [.returned [c] (.ok ())], Session.without_flights hwaits, ?_⟩
  rw [← hu]
  simp only [serve, hwaits, hanswer, told]
  rw [Session.step_resume hwaits, ← hintake]
  rfl

end Serving

/-- What has nothing to ask for is over, whatever the index could do. -/
theorem serveAll_over {s : Session} (hflights : s.flights = []) (base : Index.Session) (id : Nat)
    (work : Work) (hturn : work.turn = .done (.ok ())) (moments : List Moment) :
    serveAll ⟨s.advance id none work, base⟩ moments = ⟨s.advance id none work, base⟩ ∧
      (s.advance id none work).flights = [] ∧
      (id, .ok ()) ∈ (s.advance id none work).answers := by
  have hdone : (s.advance id none work).flights = [] := by
    rw [Session.advance_flights, hturn, hflights]
    rfl
  refine ⟨serveAll_done _ hdone moments, hdone, ?_⟩
  rw [Session.advance_answers, hturn]
  exact List.mem_append_right _ List.mem_cons_self

/-- What is left of a batch without failures: the removals are made one after another, and then the
flush is over. -/
theorem serveAll_nextRemoval {s : Session} (hflights : s.flights = []) {base : Index.Session}
    (hidle : base.Idle) (id : Nat) {ix : Intake} (hqueue : ix.queue = .empty)
    (effects : List Effect) (removals : List Change) {moments : List Moment}
    (hmoments : ∀ m ∈ moments, m.Bearable) (hlength : removals.length ≤ moments.length) :
    let work := (ix.nextRemoval ⟨.flush, removals, []⟩).after effects
    let t := serveAll ⟨s.advance id none work, base⟩ moments
    t.intake.flights = [] ∧ (id, .ok ()) ∈ t.intake.answers ∧ t.base.Idle ∧
      t.base.index.entries = (base.index.removeAll (removals.map Change.path)).entries := by
  -- Each removal takes one moment; what is fixed is the intake, for the queue stays empty.
  induction removals generalizing s base moments effects with
  | nil =>
    intro work
    have hturn : work.turn = .done (.ok ()) := by
      have hempty : ix.queue.isEmpty = true := by
        rw [hqueue]
        rfl
      change (ix.roundOver ⟨.flush, [], []⟩).turn = _
      simp only [roundOver, retryAll, hempty, Bool.true_or, if_true]
      rfl
    obtain ⟨hover, hdone, hanswered⟩ := serveAll_over hflights base id work hturn moments
    intro t
    have ht : t = _ := hover
    rw [ht]
    exact ⟨hdone, hanswered, hidle, rfl⟩
  | cons c rest ih =>
    intro work t
    obtain _ | ⟨m, moments⟩ := moments
    · exact absurd hlength (Nat.not_succ_le_zero _)
    have hm := hmoments m List.mem_cons_self
    have hleft := Index.Session.call_remove hidle hm c.path
    obtain ⟨r, hr, hserve⟩ := serve_removing hflights hidle hm id ix (effects ++ [])
      ⟨.flush, rest, []⟩ c
    obtain ⟨hover, hanswered, hafter, hentries⟩ := ih hr hleft.idle []
      (fun m' h => hmoments m' (List.mem_cons_of_mem _ h)) (Nat.le_of_succ_le_succ hlength)
    have hnext : t = _ := congrArg (serveAll · moments) hserve
    rw [hnext]
    refine ⟨hover, hanswered, hafter, hentries.trans ?_⟩
    rw [List.map_cons, Index.removeAll_cons]
    exact Index.removeAll_congr hleft.entries _

/-- Without failures a batch leaves the index with the entries that were queued less the paths that
were to be removed. -/
theorem serveAll_process {s : Session} (hflights : s.flights = []) {base : Index.Session}
    (hidle : base.Idle) (id : Nat) {ix : Intake} (hix : ix.processing = false)
    (effects : List Effect) {moments : List Moment} (hmoments : ∀ m ∈ moments, m.Bearable)
    (hlength : ix.removals.length + 1 ≤ moments.length) :
    let t := serveAll ⟨s.advance id none ((ix.process .flush).after effects), base⟩ moments
    t.intake.flights = [] ∧ (id, .ok ()) ∈ t.intake.answers ∧ t.base.Idle ∧
      t.base.index.entries = ((base.index.upsertAll (ix.stores.filterMap Change.entry)).1.removeAll
        (ix.removals.map Change.path)).entries := by
  rw [process_flush hix]
  split
  · next hempty =>
    -- Nothing is queued, and nothing is asked for.
    have hvalues : ix.queue.values = [] := by
      rw [OrderedMap.values, List.isEmpty_iff.mp hempty]
      rfl
    obtain ⟨hover, hdone, hanswered⟩ := serveAll_over hflights base id
      (Stretch.after effects (.done ix [] ())) rfl moments
    intro t
    have ht : t = _ := hover
    rw [ht, stores, removals, hvalues]
    exact ⟨hdone, hanswered, hidle, rfl⟩
  · split
    · next hstore =>
      rw [List.isEmpty_iff.mp hstore]
      exact serveAll_nextRemoval hflights hidle id rfl effects ix.removals hmoments
        (Nat.le_of_succ_le hlength)
    · intro t
      obtain _ | ⟨m, moments⟩ := moments
      · exact absurd hlength (Nat.not_succ_le_zero _)
      -- The entries are stored by the first call, and the removals follow.
      have hm := hmoments m List.mem_cons_self
      have hleft := Index.Session.call_batch hidle hm (ix.stores.filterMap Change.entry)
      obtain ⟨r, hr, hserve⟩ := serve_storing hflights hidle hm id ix.busy (effects ++ [])
        ⟨.flush, ix.removals, []⟩ (ix.stores.filterMap Change.entry) ix.stores
      have hqueue : ix.busy.queue = .empty := rfl
      obtain ⟨hover, hanswered, hafter, hleaves⟩ := serveAll_nextRemoval hr hleft.idle id hqueue
        [] ix.removals (fun m' h => hmoments m' (List.mem_cons_of_mem _ h))
        (Nat.le_of_succ_le_succ hlength)
      have hnext : t = _ := congrArg (serveAll · moments) hserve
      rw [hnext]
      exact ⟨hover, hanswered, hafter, hleaves.trans (Index.removeAll_congr hleft.entries _)⟩

/-- Without failures a flush answers and applies what is queued as one batch. -/
theorem flush_leaves {s : Session} (hflights : s.flights = []) {us : List Update}
    (h : Holds s.intake us) {base : Index.Session} (hidle : base.Idle) {moments : List Moment}
    (hmoments : ∀ m ∈ moments, m.Bearable)
    (hlength : s.intake.removals.length + 1 ≤ moments.length) :
    let t := flush ⟨s, base⟩ moments
    t.intake.flights = [] ∧ (s.nextId, .ok ()) ∈ t.intake.answers ∧ t.base.Idle ∧
      t.base.index.entries =
        ((base.index.upsertAll (s.intake.stores.filterMap Change.entry)).1.removeAll
          (s.intake.removals.map Change.path)).entries := by
  intro t
  obtain ⟨ix, hix⟩ : ∃ ix, ix = s.intake.disarmTimers.1.disarmTimers.1 := ⟨_, rfl⟩
  obtain ⟨effects, heffects⟩ : ∃ effects,
      effects = s.intake.disarmTimers.2 ++ s.intake.disarmTimers.1.disarmTimers.2 := ⟨_, rfl⟩
  have hbegin : s.intake.begin .flush = (ix.process .flush).after effects := by
    have hbatch : s.intake.disarmTimers.1.batch = none := h.batch
    change s.intake.beginFlush .flush = _
    simp only [beginFlush, hbatch, flushNow, Stretch.after, List.append_assoc, hix, heffects]
  have hstep : s.step (.begin .flush) =
      { s.note (s.intake.arrivalEvents .flush) with nextId := s.nextId + 1 }.advance s.nextId none
        ((ix.process .flush).after effects) := by
    rw [← hbegin]
    rfl
  have hidle' : ix.processing = false := by
    rw [hix]
    exact h.idle
  have hlength' : ix.removals.length + 1 ≤ moments.length := by
    rw [hix]
    exact hlength
  have hall := serveAll_process (s := { s.note (s.intake.arrivalEvents .flush) with
    nextId := s.nextId + 1 }) hflights hidle s.nextId hidle' effects hmoments hlength'
  rw [← hstep, hix] at hall
  exact hall

end Pair

end LiveIndex.Intake
