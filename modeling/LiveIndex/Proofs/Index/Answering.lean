import LiveIndex.Proofs.Index.Alone
import LiveIndex.Proofs.Index.Turns
import LiveIndex.Proofs.Index.Waiting

/-! Calls that save before they answer. What such a call answers is settled when it begins, and
whatever else is under way, it can be brought to its end. -/

namespace LiveIndex.Index.Session

variable {s : Session}

/-- How a call stands that has something to answer after its save: it answers, or it waits for the
lock, or for the end of its write. -/
inductive Owes (answer : Answer) : Turn Request Waiting Answer → Prop
  | answers : Owes answer (.done (.ok answer))
  | queued {after : AfterSave} (h : after.answer? = some answer) :
      Owes answer (.ask .lock (.queued after))
  | writing {after : AfterSave} (h : after.answer? = some answer) (path : String)
      (snapshot : Snapshot) : Owes answer (.ask (.write path snapshot) (.writing after))

variable {id : Nat} {answer : Answer} {after : AfterSave}

theorem answered_of_answer? (h : after.answer? = some answer) (saved : Bool) :
    after.answered saved = answer := by
  cases after <;> cases h <;> rfl

theorem owes_lockTaken (h : after.answer? = some answer) (i : Index) :
    Owes answer (i.lockTaken after).turn := by
  rcases lockTaken_cases i after with ⟨⟨path, snapshot, hwrite⟩, -⟩ | ⟨hdone, -⟩
  · rw [hwrite]
    exact .writing h path snapshot
  · rw [hdone, answered_of_answer? h]
    exact .answers

theorem owes_beginSave (h : after.answer? = some answer) (i : Index) :
    Owes answer (i.beginSave after).turn := by
  rw [beginSave]
  split
  · rw [afterSave_of_answer _ _ _ h]
    exact .answers
  · exact .queued h

theorem owes_publish (h : after.answer? = some answer) (i : Index) (now : Int)
    (changes : List Notice) : Owes answer (i.publish now changes after).turn :=
  owes_beginSave h (i.bump now)

/-- What is held as it was, and of the same version. -/
structure Unmoved (i i' : Index) : Prop extends SameStock i i' where
  version : i'.version = i.version

theorem Unmoved.refl (i : Index) : Unmoved i i :=
  ⟨⟨⟨rfl, rfl⟩, rfl, rfl⟩, rfl⟩

theorem Unmoved.withLock {i i' : Index} (h : Unmoved i i') (lock : Lock) :
    Unmoved i (i'.withLock lock) :=
  ⟨h.toSameStock.trans (sameStock_withLock i' lock), h.version⟩

theorem Unmoved.trans {i i' i'' : Index} (h : Unmoved i i') (h' : Unmoved i' i'') :
    Unmoved i i'' :=
  ⟨h.toSameStock.trans h'.toSameStock, h'.version.trans h.version⟩

theorem unmoved_lockTaken (h : after.answer? = some answer) (i : Index) :
    Unmoved i (i.lockTaken after).state := by
  unfold lockTaken
  split
  · exact ⟨⟨⟨rfl, rfl⟩, rfl, rfl⟩, rfl⟩
  · rw [afterSave_of_answer _ _ _ h]
    exact .refl i

theorem unmoved_beginSave (h : after.answer? = some answer) (i : Index) :
    Unmoved i (i.beginSave after).state := by
  unfold beginSave
  split
  · rw [afterSave_of_answer _ _ _ h]
    exact .refl i
  · exact .refl i

theorem unmoved_publish (h : after.answer? = some answer) (i : Index) (now : Int)
    (changes : List Notice) : Unmoved (i.bump now) (i.publish now changes after).state :=
  unmoved_beginSave h (i.bump now)

/-- Of the call that owes an answer only its work moves what is held, and no turn with the lock. -/
theorem unmoved_settle (s : Session) (id : Nat) (ticket : Option Nat) {work : Work}
    (h : Owes answer work.turn) : Unmoved work.state (s.settle id ticket work).index := by
  unfold settle
  split
  · next after hturn =>
    rw [hturn] at h
    cases h with
    | queued h =>
      dsimp only
      split
      · obtain ⟨lock, hindex⟩ := (s.change work.state work.effects).advance_index id ticket
          (((s.change work.state work.effects).index.withLock
            (s.change work.state work.effects).index.lock.take).lockTaken after)
        rw [hindex, change_index, withLock_withLock]
        exact (((Unmoved.refl _).withLock _).trans (unmoved_lockTaken h _)).withLock lock
      · rw [park_index, change_index, withLock_withLock]
        exact (Unmoved.refl _).withLock _
  · obtain ⟨lock, hindex⟩ := s.advance_index id ticket work
    rw [hindex]
    exact (Unmoved.refl _).withLock lock

/-- Work for a call that owes an answer ends with that answer, or with the call waiting. -/
theorem settle_owes (s : Session) (id : Nat) (ticket : Option Nat) {work : Work}
    (h : Owes answer work.turn) :
    ((s.settle id ticket work).answers = (id, .ok answer) :: s.answers ∧
        (s.settle id ticket work).flights = s.flights) ∨
      (s.settle id ticket work).answers = s.answers ∧
        ∃ f : Flight, f.id = id ∧ Owes answer (.ask f.request f.waiting) ∧
          (s.settle id ticket work).flights = s.flights ++ [f] := by
  have hadvance {t : Session} {work : Work} (h : Owes answer work.turn) :
      ((t.advance id ticket work).answers = (id, .ok answer) :: t.answers ∧
          (t.advance id ticket work).flights = t.flights) ∨
        (t.advance id ticket work).answers = t.answers ∧
          ∃ f : Flight, f.id = id ∧ Owes answer (.ask f.request f.waiting) ∧
            (t.advance id ticket work).flights = t.flights ++ [f] := by
    rcases t.advance_outcome id ticket work with ⟨r, hturn, hanswers, hflights⟩ |
      ⟨request, waiting, hturn, hanswers, hflights⟩
    · rw [hturn] at h
      cases h
      exact .inl ⟨hanswers, hflights⟩
    · rw [hturn] at h
      exact .inr ⟨hanswers, ⟨id, ticket, request, waiting⟩, rfl, h, hflights⟩
  unfold settle
  split
  · next after hturn =>
    rw [hturn] at h
    cases h with
    | queued h =>
      dsimp only
      split
      · have houtcome := hadvance (t := s.change work.state work.effects) (owes_lockTaken h
          ((s.change work.state work.effects).index.withLock
            (s.change work.state work.effects).index.lock.take))
        rwa [change_answers, change_flights] at houtcome
      · refine .inr ⟨change_answers .., ⟨id, ticket, .lock, .queued after⟩, rfl, .queued h, ?_⟩
        change (s.change work.state work.effects).flights ++ _ = _
        rw [change_flights]
  · exact hadvance h

/-- A call that goes by a number owes an answer, or has given it. Nothing else comes of it but a
failure of its write that no save lives with, and that it was told of. -/
structure Pledged (s : Session) (id : Nat) (answer : Answer) (past : List Action) : Prop where
  pending : ∀ f ∈ s.flights, f.id = id → Owes answer (.ask f.request f.waiting)
  answered : ∀ r, (id, r) ∈ s.answers → r = .ok answer ∨
    ∃ e, r = .error e ∧ toleratesWrite e = false ∧ .resume id (.error e) ∈ past
  there : (∃ f ∈ s.flights, f.id = id) ∨ ∃ r, (id, r) ∈ s.answers
  once : ∀ f ∈ s.flights, f.id = id → ∀ r, (id, r) ∉ s.answers

variable {past : List Action}

theorem Pledged.of_same {t : Session} (h : s.Pledged id answer past)
    (hflights : t.flights = s.flights) (hanswers : t.answers = s.answers) :
    t.Pledged id answer past := by
  refine ⟨?_, ?_, ?_, ?_⟩
  · rw [hflights]
    exact h.pending
  · rw [hanswers]
    exact h.answered
  · rw [hflights, hanswers]
    exact h.there
  · rw [hflights, hanswers]
    exact h.once

theorem Pledged.concat (h : s.Pledged id answer past) (a : Action) :
    s.Pledged id answer (past ++ [a]) := by
  refine ⟨h.pending, ?_, h.there, h.once⟩
  intro r hr
  rcases h.answered r hr with hok | ⟨e, he, htolerated, hpast⟩
  · exact .inl hok
  · exact .inr ⟨e, he, htolerated, List.mem_append_left _ hpast⟩

/-- Work for another call leaves it alone. -/
theorem Pledged.settle (h : s.Pledged id answer past) {other : Nat} (hother : other ≠ id)
    (ticket : Option Nat) (work : Work) : (s.settle other ticket work).Pledged id answer past := by
  rcases s.settle_outcome other ticket work with ⟨r', hanswers, hflights⟩ |
    ⟨hanswers, g, hg, hflights⟩
  · have hold : ∀ r, (id, r) ∈ (s.settle other ticket work).answers → (id, r) ∈ s.answers := by
      rw [hanswers]
      intro r hr
      rcases List.mem_cons.mp hr with hr | hr
      · exact absurd (congrArg Prod.fst hr).symm hother
      · exact hr
    refine ⟨?_, fun r hr => h.answered r (hold r hr), ?_, ?_⟩
    · rw [hflights]
      exact h.pending
    · rw [hflights, hanswers]
      rcases h.there with hwaits | ⟨r, hr⟩
      · exact .inl hwaits
      · exact .inr ⟨r, List.mem_cons_of_mem _ hr⟩
    · rw [hflights]
      exact fun f hf hid r hr => h.once f hf hid r (hold r hr)
  · have hold : ∀ f ∈ (s.settle other ticket work).flights, f.id = id → f ∈ s.flights := by
      rw [hflights]
      intro f hf hid
      rcases List.mem_append.mp hf with hf | hf
      · exact hf
      · rw [List.mem_singleton.mp hf] at hid
        exact absurd (hg.symm.trans hid) hother
    refine ⟨fun f hf hid => h.pending f (hold f hf hid) hid, ?_, ?_, ?_⟩
    · rw [hanswers]
      exact h.answered
    · rw [hflights, hanswers]
      rcases h.there with ⟨f, hf, hid⟩ | hanswered
      · exact .inl ⟨f, List.mem_append_left _ hf, hid⟩
      · exact .inr hanswered
    · rw [hanswers]
      exact fun f hf hid => h.once f (hold f hf hid) hid

theorem Pledged.without (h : s.Pledged id answer past) {f : Flight} (hid : f.id ≠ id)
    {t : Session} (hsame : SameCalls (s.without f) t) : t.Pledged id answer past := by
  refine ⟨?_, ?_, ?_, ?_⟩
  · rw [hsame.flights]
    exact fun g hg => h.pending g (List.mem_of_mem_eraseP hg)
  · rw [hsame.answers]
    exact h.answered
  · rw [hsame.flights, hsame.answers]
    rcases h.there with ⟨g, hg, hgid⟩ | hanswered
    · refine .inl ⟨g, (List.mem_eraseP_of_neg ?_).mpr hg, hgid⟩
      simpa [hgid] using Ne.symm hid
    · exact .inr hanswered
  · rw [hsame.flights, hsame.answers]
    exact fun g hg => h.once g (List.mem_of_mem_eraseP hg)

section Own

variable {t : Session} (hnone : ∀ f ∈ s.flights, f.id ≠ id) (hopen : ∀ r, (id, r) ∉ s.answers)

include hnone hopen

/-- It has given its answer, or its write has failed as it was told to. -/
theorem pledged_answered {r : Except Failure Answer} (hanswers : t.answers = (id, r) :: s.answers)
    (hflights : t.flights = s.flights) (hr : r = .ok answer ∨
      ∃ e, r = .error e ∧ toleratesWrite e = false ∧ .resume id (.error e) ∈ past) :
    t.Pledged id answer past := by
  refine ⟨?_, ?_, ?_, ?_⟩
  · rw [hflights]
    exact fun f hf hid => absurd hid (hnone f hf)
  · rw [hanswers]
    intro r' hr'
    rcases List.mem_cons.mp hr' with hr' | hr'
    · obtain rfl : r' = r := congrArg Prod.snd hr'
      exact hr
    · exact absurd hr' (hopen r')
  · rw [hanswers]
    exact .inr ⟨r, List.mem_cons_self⟩
  · rw [hflights]
    exact fun f hf hid => absurd hid (hnone f hf)

/-- Its own work ends with the answer or with the call waiting. -/
theorem pledged_settle (past : List Action) (ticket : Option Nat) {work : Work}
    (h : Owes answer work.turn) : (s.settle id ticket work).Pledged id answer past := by
  rcases s.settle_owes id ticket h with ⟨hanswers, hflights⟩ | ⟨hanswers, f, hid, howes, hflights⟩
  · exact pledged_answered hnone hopen hanswers hflights (.inl rfl)
  · refine ⟨?_, ?_, ?_, ?_⟩
    · rw [hflights]
      intro g hg hgid
      rcases List.mem_append.mp hg with hg | hg
      · exact absurd hgid (hnone g hg)
      · rw [List.mem_singleton.mp hg]
        exact howes
    · rw [hanswers]
      exact fun r hr => absurd hr (hopen r)
    · rw [hflights]
      exact .inl ⟨f, List.mem_append_right _ List.mem_cons_self, hid⟩
    · rw [hanswers]
      exact fun _ _ _ => hopen

end Own

theorem Owes.awaits_or_writes {f : Flight} (h : Owes answer (.ask f.request f.waiting)) :
    f.awaitsLock = true ∨ f.writes = true := by
  obtain ⟨id, ticket, request, waiting⟩ := f
  cases h with
  | queued h => exact .inl rfl
  | writing h path snapshot => exact .inr rfl

/-- A call that is over does not wait any more. -/
theorem settle_done (s : Session) (id : Nat) (ticket : Option Nat) {work : Work}
    {r : Except Failure Answer} (h : work.turn = .done r) :
    (s.settle id ticket work).answers = (id, r) :: s.answers ∧
      (s.settle id ticket work).flights = s.flights := by
  have hsettle : s.settle id ticket work = s.advance id ticket work := by
    unfold settle
    rw [h]
  rw [hsettle]
  rcases s.advance_outcome id ticket work with ⟨r', hturn, hanswers, hflights⟩ |
    ⟨request, waiting, hturn, -, -⟩
  · rw [h] at hturn
    cases hturn
    exact ⟨hanswers, hflights⟩
  · rw [h] at hturn
    cases hturn

/-- What it goes on with when it is told to is what it waited for: the lock, or the end of its
write. -/
theorem pledged_wake {t : Session} {f : Flight} {result : Except Failure Unit} {work : Work}
    (hnone : ∀ g ∈ t.flights, g.id ≠ f.id) (hopen : ∀ r, (f.id, r) ∉ t.answers)
    (howes : Owes answer (.ask f.request f.waiting)) (hkind : WakeKind s f result work) :
    (t.settle f.id f.ticket work).Pledged f.id answer (past ++ [.resume f.id result]) := by
  cases hkind with
  | other hawaits hwrites hlock =>
    rcases howes.awaits_or_writes with howes | howes
    · rw [hawaits] at howes
      cases howes
    · rw [hwrites] at howes
      cases howes
  | lock after hrequest hwaiting _ _ hwork =>
    rw [hrequest, hwaiting] at howes
    cases howes with
    | queued hanswer =>
      rw [hwork]
      exact pledged_settle hnone hopen _ f.ticket (owes_lockTaken hanswer _)
  | write path snapshot after outcome hrequest hwaiting htold hwork =>
    rw [hrequest, hwaiting] at howes
    cases howes with
    | writing hanswer path snapshot =>
      rcases (written_cases s.index after outcome).2 with ⟨saved, hdone⟩ |
        ⟨e, houtcome, htolerated, hdone⟩
      · rw [answered_of_answer? hanswer, ← hwork] at hdone
        exact pledged_settle hnone hopen _ f.ticket (hdone ▸ .answers)
      · -- The write has failed in the way that it was told to fail.
        have hresult : result = .error e := by
          refine (htold e houtcome).resolve_right fun hother => ?_
          rw [htolerated] at hother
          cases hother
        rw [← hwork] at hdone
        obtain ⟨hanswers, hflights⟩ := t.settle_done f.id f.ticket hdone
        refine pledged_answered hnone hopen hanswers hflights (.inr ⟨e, rfl, htolerated, ?_⟩)
        rw [hresult]
        exact List.mem_append_right _ List.mem_cons_self

theorem Pledged.wake (h : s.Pledged id answer past) (hs : s.Numbered) {f : Flight}
    (hf : s.flights.find? (·.id = f.id) = some f) (result : Except Failure Unit) :
    (s.wake f result).Pledged id answer (past ++ [.resume f.id result]) := by
  have hmem : f ∈ s.flights := List.mem_of_find?_eq_some hf
  have hlater := h.concat (.resume f.id result)
  rcases s.wake_kinds f result with hsame | ⟨t, work, hsame, hwake, hkind⟩
  · rw [hsame]
    exact hlater
  · rw [hwake]
    by_cases hid : f.id = id
    · have hnone : ∀ g ∈ t.flights, g.id ≠ f.id := by
        rw [hsame.flights]
        exact (hs.without hmem).2.2
      have hopen : ∀ r, (f.id, r) ∉ t.answers := by
        rw [hsame.answers, hid]
        exact h.once f hmem hid
      rw [← hid]
      exact pledged_wake hnone hopen (h.pending f hmem hid) hkind
    · exact (hlater.without hid hsame).settle hid f.ticket work

theorem Pledged.step (h : s.Pledged id answer past) (hs : s.Numbered) (hid : id < s.nextId)
    (a : Action) : (s.step a).Pledged id answer (past ++ [a]) := by
  rcases s.step_cases a with hsame | ⟨t, ticket, work, hsame, -, hstep⟩ |
    ⟨f, result, rfl, hf, hstep⟩
  · exact (h.concat a).of_same hsame.flights hsame.answers
  · rw [hstep]
    have hbegun : Pledged { t with nextId := t.nextId + 1 } id answer (past ++ [a]) :=
      (h.concat a).of_same hsame.flights hsame.answers
    refine hbegun.settle ?_ ticket work
    rw [hsame.nextId]
    exact hid.ne'
  · rw [hstep]
    exact h.wake hs hf result

theorem Pledged.run (h : s.Pledged id answer past) (hs : s.Numbered) (hid : id < s.nextId)
    (actions : List Action) : (s.run actions).Pledged id answer (past ++ actions) := by
  induction actions generalizing s past with
  | nil => exact (List.append_nil past).symm ▸ h
  | cons a actions ih =>
    have hnext := ih (h.step hs hid a) (hs.step a) (hid.trans_le (s.nextId_le_step a))
    rwa [List.append_assoc] at hnext

/-- Only calls that have begun are answered. -/
def Recorded (s : Session) : Prop :=
  ∀ p ∈ s.answers, p.1 < s.nextId

theorem Recorded.settle (h : s.Recorded) (hid : id < s.nextId) (ticket : Option Nat) (work : Work) :
    (s.settle id ticket work).Recorded := by
  rw [Recorded, settle_nextId]
  rcases s.settle_answers id ticket work with hsame | ⟨r, hmore⟩
  · rw [hsame]
    exact h
  · rw [hmore]
    exact List.forall_mem_cons.mpr ⟨hid, h⟩

theorem Recorded.step (h : s.Recorded) (hs : s.Numbered) (a : Action) : (s.step a).Recorded := by
  rcases s.step_cases a with hsame | ⟨t, ticket, work, hsame, -, hstep⟩ | ⟨f, result, -, hf, hstep⟩
  · rw [Recorded, hsame.answers, hsame.nextId]
    exact h
  · have hbegun : Recorded { t with nextId := t.nextId + 1 } := by
      intro p hp
      refine Nat.lt_succ_of_lt ?_
      rw [hsame.nextId]
      exact h p (hsame.answers ▸ hp)
    rw [hstep]
    exact hbegun.settle (Nat.lt_succ_self _) ticket work
  · rw [hstep]
    rcases s.wake_kinds f result with hsame | ⟨t, work, hsame, hwake, -⟩
    · rw [hsame]
      exact h
    · have hrest : t.Recorded := by
        rw [Recorded, hsame.answers, hsame.nextId]
        exact h
      rw [hwake]
      refine hrest.settle ?_ f.ticket work
      rw [hsame.nextId]
      exact hs.begun f (List.mem_of_find?_eq_some hf)

theorem Recorded.run (h : s.Recorded) (hs : s.Numbered) (actions : List Action) :
    (s.run actions).Recorded := by
  induction actions generalizing s with
  | nil => exact h
  | cons a actions ih => exact ih (h.step hs a) (hs.step a)

theorem recorded_fresh (options : Options) (file : Except Failure Content) :
    (fresh options file).Recorded :=
  fun _ hp => absurd hp List.not_mem_nil

/-- A call that owes an answer when it begins goes on owing it until it gives it. -/
theorem pledged_launch (hs : s.Numbered) (hr : s.Recorded) (ticket : Option Nat) {work : Work}
    (h : Owes answer work.turn) (past : List Action) :
    (s.launch ticket work).Pledged s.nextId answer past := by
  refine pledged_settle ?_ ?_ past ticket h
  · exact fun f hf => (hs.begun f hf).ne
  · exact fun r hmem => absurd (hr _ hmem) (Nat.lt_irrefl _)

section Progress

/-- How much is ahead of those who wait for the lock: they leave the queue one after another, and
each may have to write. -/
def ahead (s : Session) : Nat :=
  2 * s.index.lock.queue.length + if s.index.lock.held then 1 else 0

theorem settle_lock (s : Session) (id : Nat) (ticket : Option Nat) {work : Work}
    (hother : ∀ after, work.turn ≠ .ask .lock (.queued after)) :
    (s.settle id ticket work).index.lock = lockAfter work := by
  have hadvance : (s.advance id ticket work).index.lock = lockAfter work := by
    unfold advance
    split
    · rw [finish_index, change_index, withLock_lock]
      rfl
    · rw [park_index, change_index, withLock_lock]
      rfl
  unfold settle
  split
  · next after hturn => exact absurd hturn (hother after)
  · exact hadvance

/-- A call that writes gives the lock back and leaves when the disk is done. -/
theorem step_writes (hs : s.Numbered) {f : Flight} (hf : f ∈ s.flights)
    (hwrites : f.writes = true) :
    (s.step (.resume f.id (.ok ()))).index.lock = s.index.lock.leave.1 ∧
      ∀ g ∈ (s.step (.resume f.id (.ok ()))).flights, g.id ≠ f.id := by
  obtain ⟨path, snapshot, after, hrequest, hwaiting⟩ := Flight.eq_of_writes hwrites
  obtain ⟨t, outcome, hsame, -, hwake⟩ := s.wake_writing hrequest hwaiting (.ok ())
  obtain ⟨hlock, hturn⟩ := written_cases s.index after outcome
  have hdone : ∃ r, (s.index.written after outcome).turn = .done r := by
    rcases hturn with ⟨saved, hdone⟩ | ⟨e, -, -, hdone⟩
    · exact ⟨_, hdone⟩
    · exact ⟨_, hdone⟩
  obtain ⟨r, hdone⟩ := hdone
  have hother : ∀ after', (s.index.written after outcome).turn ≠ .ask .lock (.queued after') := by
    intro after'
    rw [hdone]
    exact nofun
  rw [step_resume hs hf, hwake]
  refine ⟨?_, ?_⟩
  · rw [settle_lock _ _ _ hother, hlock]
  · rw [(t.settle_done f.id f.ticket hdone).2, hsame.flights]
    exact (hs.without hf).2.2

/-- The first one in the queue of a free lock leaves it when it is told to go on. -/
theorem step_first (hs : s.Numbered) {f : Flight} (hf : f ∈ s.flights)
    (hawaits : f.awaitsLock = true) (hfree : s.index.lock.held = false) {rest : List Nat}
    (hqueue : s.index.lock.queue = f.id :: rest) :
    (s.step (.resume f.id (.ok ()))).index.lock.queue = rest := by
  obtain ⟨after, hrequest, hwaiting⟩ := Flight.eq_of_awaitsLock hawaits
  have hhead : s.index.lock.queue.head? = some f.id := by rw [hqueue, List.head?_cons]
  have hleft : (s.index.lock.enter f.id).queue = rest := by
    change s.index.lock.queue.erase f.id = rest
    rw [hqueue, List.erase_cons_head]
  rw [step_resume hs hf, s.wake_first hrequest hwaiting hfree hhead]
  rcases lockTaken_cases (s.index.withLock (s.index.lock.enter f.id)) after with
    ⟨⟨path, snapshot, hwrite⟩, hlock⟩ | ⟨hdone, hlock⟩
  · rw [settle_lock, hlock]
    · exact hleft
    · rw [hwrite]
      exact fun _ => nofun
  · rw [settle_lock, hlock]
    · exact hleft
    · rw [hdone]
      exact fun _ => nofun

/-- As long as a call waits for the lock or writes, some call can go on, so that less is ahead or
that call is over. -/
theorem exists_closer (hs : s.Numbered) (ht : s.InTurn) {f : Flight} (hf : f ∈ s.flights)
    (hwaits : f.awaitsLock = true ∨ f.writes = true) :
    ∃ i, (s.step (.resume i (.ok ()))).ahead < s.ahead ∨
      ∀ g ∈ (s.step (.resume i (.ok ()))).flights, g.id ≠ f.id := by
  by_cases hheld : s.index.lock.held = true
  · -- Whoever has the lock can give it back.
    obtain ⟨g, hg, hwrites⟩ := ht.held hheld
    obtain ⟨hlock, -⟩ := step_writes hs hg hwrites
    refine ⟨g.id, .inl ?_⟩
    rw [ahead, ahead, hlock, if_pos hheld]
    exact Nat.lt_succ_self _
  · rcases hwaits with hawaits | hwrites
    · -- The first one in the queue can have it.
      have hmem : f.id ∈ s.index.lock.queue := by
        rw [ht.queue]
        exact List.mem_map_of_mem (List.mem_filter.mpr ⟨hf, hawaits⟩)
      obtain ⟨first, rest, hqueue⟩ := List.exists_cons_of_ne_nil (List.ne_nil_of_mem hmem)
      have hfirst : first ∈ (s.flights.filter Flight.awaitsLock).map Flight.id := by
        rw [← ht.queue, hqueue]
        exact List.mem_cons_self
      obtain ⟨g, hg, rfl⟩ := List.mem_map.mp hfirst
      obtain ⟨hg, hgawaits⟩ := List.mem_filter.mp hg
      have hless := step_first hs hg hgawaits (Bool.eq_false_iff.mpr hheld) hqueue
      refine ⟨g.id, .inl ?_⟩
      rw [ahead, ahead, hless, hqueue, List.length_cons]
      split <;> omega
    · exact ⟨f.id, .inr (step_writes hs hf hwrites).2⟩

/-- A call that still owes its answer can be brought to give it: those who wait are told to go on,
one after another, until it is over. -/
theorem Pledged.exists_answer (h : s.Pledged id answer past) (hs : s.Numbered) (ht : s.InTurn)
    (hid : id < s.nextId) (hwaits : ∃ f ∈ s.flights, f.id = id) :
    ∃ ids : List Nat,
      (id, .ok answer) ∈ (s.run (ids.map fun i => .resume i (.ok ()))).answers := by
  obtain ⟨n, hn⟩ : ∃ n, n = s.ahead := ⟨_, rfl⟩
  induction n using Nat.strong_induction_on generalizing s past with
  | _ n ih =>
    obtain ⟨f, hf, hfid⟩ := hwaits
    obtain ⟨i, hcloser⟩ := exists_closer hs ht hf (h.pending f hf hfid).awaits_or_writes
    obtain ⟨t, htstep⟩ : ∃ t, t = s.step (.resume i (.ok ())) := ⟨_, rfl⟩
    rw [← htstep] at hcloser
    -- What has failed before does not matter, since the call has not been answered yet.
    have hopen : s.Pledged id answer [] :=
      ⟨h.pending, fun r hr => absurd hr (h.once f hf hfid r), h.there, h.once⟩
    have hnext : t.Pledged id answer [.resume i (.ok ())] := htstep ▸ hopen.step hs hid _
    by_cases hstill : ∃ g ∈ t.flights, g.id = id
    · have hless : t.ahead < n := by
        rcases hcloser with hless | hnone
        · rwa [hn]
        · obtain ⟨g, hg, hgid⟩ := hstill
          exact absurd (hgid.trans hfid.symm) (hnone g hg)
      have hnumbered : t.Numbered := htstep ▸ hs.step _
      have hturn : t.InTurn := htstep ▸ ht.step _
      have hbegun : id < t.nextId := hid.trans_le (htstep ▸ s.nextId_le_step _)
      obtain ⟨ids, hanswer⟩ := ih t.ahead hless hnext hnumbered hturn hbegun hstill rfl
      refine ⟨i :: ids, ?_⟩
      rw [htstep] at hanswer
      exact hanswer
    · rcases hnext.there with hflight | ⟨r, hr⟩
      · exact absurd hflight hstill
      · refine ⟨[i], ?_⟩
        change (id, .ok answer) ∈ (s.step (.resume i (.ok ()))).answers
        rw [← htstep]
        rcases hnext.answered r hr with rfl | ⟨e, -, -, hpast⟩
        · exact hr
        · rw [List.mem_singleton] at hpast
          cases hpast

end Progress

/-- What comes of a call from some time on: only the one answer, unless its write is told to fail in
a way that no save lives with; and as long as there is none, the call can be brought to give it. -/
structure Resolves (s : Session) (id : Nat) (answer : Answer) : Prop where
  only : ∀ actions r, (id, r) ∈ (s.run actions).answers → r = .ok answer ∨
    ∃ e, r = .error e ∧ toleratesWrite e = false ∧ .resume id (.error e) ∈ actions
  ends : ∀ actions, (∃ r, (id, r) ∈ (s.run actions).answers) ∨ ∃ ids : List Nat, (id, .ok answer) ∈
    ((s.run actions).run (ids.map fun i => .resume i (.ok ()))).answers

/-- In whatever state an index is, a call that owes an answer when it begins comes to that. -/
theorem resolves_begin (options : Options) (file : Except Failure Content) (before : List Action)
    (now : Int) {call : Call}
    (h : Owes answer (((fresh options file).run before).index.begin now call).turn) :
    (((fresh options file).run before).step (.begin now call)).Resolves
      ((fresh options file).run before).nextId answer := by
  have hfresh : (fresh options file).Numbered := numbered_fresh options file
  have hrecorded : ((fresh options file).run before).Recorded :=
    (recorded_fresh options file).run hfresh before
  have hinTurn : ((fresh options file).run before).InTurn :=
    (inTurn_fresh options file).run before
  have hnumbered : ((fresh options file).run before).Numbered := hfresh.run before
  generalize (fresh options file).run before = s at h hrecorded hinTurn hnumbered ⊢
  obtain ⟨t, ht⟩ : ∃ t, t = s.step (.begin now call) := ⟨_, rfl⟩
  have hpledged : t.Pledged s.nextId answer [] :=
    ht ▸ pledged_launch hnumbered hrecorded none h []
  have htnumbered : t.Numbered := ht ▸ hnumbered.step _
  have htinTurn : t.InTurn := ht ▸ hinTurn.step _
  have hbegun : s.nextId < t.nextId := by
    rw [ht, step, launch, settle_nextId]
    exact Nat.lt_succ_self _
  rw [← ht]
  refine ⟨?_, ?_⟩
  · intro actions
    exact (hpledged.run htnumbered hbegun actions).answered
  · intro actions
    have hlater := hpledged.run htnumbered hbegun actions
    rcases hlater.there with hwaits | hanswered
    · exact .inr (hlater.exists_answer (htnumbered.run actions) (htinTurn.run actions)
        (hbegun.trans_le (t.nextId_le_run actions)) hwaits)
    · exact .inl hanswered

end LiveIndex.Index.Session
