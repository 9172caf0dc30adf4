import LiveIndex.Proofs.Keeper.Parts

/-! What a keeper leaves at work. Each watch that runs, each intake that is not ended and each
listener that it has registered is known to the keeper or to a call that goes on, as long as no
start begins beside another call, or with a watch that has not been stopped. -/

namespace LiveIndex.Keeper

namespace Flight

/-- Whether a call is a start that has made its watch. -/
def isStart (f : Flight) : Bool :=
  match f.waiting with
  | .launching _ | .discarding => true
  | _ => false

/-- Whether a call is a stop that is done with the watch. -/
def isLate (f : Flight) : Bool :=
  match f.waiting with
  | .stoppingIntake _ | .stoppingIndex => true
  | _ => false

def Launches (f : Flight) (number : Nat) : Prop :=
  ∃ l id, f.waiting = .launching l ∧ f.awaited = .watch number id

def Discards (f : Flight) (number : Nat) : Prop :=
  f.waiting = .discarding ∧ ∃ id, f.awaited = .intake number id

def Halts (f : Flight) : Prop :=
  ∃ after, f.waiting = .stoppingWatch after

def Closes (f : Flight) (number : Nat) : Prop :=
  ∃ after id, f.waiting = .stoppingIntake after ∧ f.awaited = .intake number id

variable {f : Flight} {number : Nat}

theorem Launches.isStart (h : f.Launches number) : f.isStart = true := by
  obtain ⟨l, id, hwaiting, -⟩ := h
  rw [Flight.isStart, hwaiting]

theorem Discards.isStart (h : f.Discards number) : f.isStart = true := by
  rw [Flight.isStart, h.1]

theorem Launches.unique {other : Nat} (h : f.Launches number) (h' : f.Launches other) :
    number = other := by
  obtain ⟨-, id, -, hawaited⟩ := h
  obtain ⟨-, id', -, hother⟩ := h'
  cases hawaited.symm.trans hother
  rfl

theorem Discards.unique {other : Nat} (h : f.Discards number) (h' : f.Discards other) :
    number = other := by
  obtain ⟨-, id, hawaited⟩ := h
  obtain ⟨-, id', hother⟩ := h'
  cases hawaited.symm.trans hother
  rfl

theorem Launches.not_discards {other : Nat} (h : f.Launches number) : ¬f.Discards other := by
  obtain ⟨l, id, hwaiting, -⟩ := h
  rintro ⟨hdiscards, -⟩
  cases hwaiting.symm.trans hdiscards

theorem Closes.isLate (h : f.Closes number) : f.isLate = true := by
  obtain ⟨after, id, hwaiting, -⟩ := h
  rw [Flight.isLate, hwaiting]

theorem Halts.not_start (h : f.Halts) : f.isStart = false := by
  obtain ⟨after, hwaiting⟩ := h
  rw [Flight.isStart, hwaiting]

theorem not_start_of_late (h : f.isLate = true) : f.isStart = false := by
  obtain ⟨id, awaited, waiting⟩ := f
  cases waiting with
  | launching l => cases h
  | discarding => cases h
  | _ => rfl

end Flight

namespace Session

variable {s t : Session} {calls : List Flight} {nextId id : Nat} {f : Option Flight}
  {listeners : List Listener}

/-- What a call waits for, and what holds of that. -/
inductive Awaits (s : Session) : Flight → Prop
  | start {id number : Nat} {l : Option Listener} (h : number < s.parts.length) :
      Awaits s ⟨id, .watch number 0, .launching l⟩
  | halt {id number call : Nat} {after : AfterStop} (hidle : ¬Runs s.parts number)
      (hwatch : ∀ watch, s.keeper.watch = some watch → watch = number) :
      Awaits s ⟨id, .watch number call, .stoppingWatch after⟩
  | discard {id number call : Nat} (h : Ending s.parts number call) :
      Awaits s ⟨id, .intake number call, .discarding⟩
  | close {id number call : Nat} {after : AfterStop} (h : Ending s.parts number call) :
      Awaits s ⟨id, .intake number call, .stoppingIntake after⟩
  | index {id : Nat} : Awaits s ⟨id, .index, .stoppingIndex⟩

/-- Calls have numbers of their own, and answer once. -/
structure Numbered (s : Session) : Prop where
  ids : (s.calls.map Flight.id).Nodup
  known : ∀ c ∈ s.calls, c.id < s.nextId
  answered : ∀ x ∈ s.answers, x.1 < s.nextId ∧ ∀ c ∈ s.calls, c.id ≠ x.1
  once : (s.answers.map Prod.fst).Nodup

/-- What runs or is not ended is known to the keeper or to a start. A start that goes on is the only
one, and the keeper knows of nothing at work then. -/
structure Owned (s : Session) : Prop where
  placed : ∀ number, s.keeper.intake = some number → number < s.parts.length
  awaits : ∀ c ∈ s.calls, s.Awaits c
  alone : ∀ c ∈ s.calls, c.isStart = true → s.keeper.watch = none ∧ s.keeper.listener = none ∧
    (∀ number, s.keeper.intake = some number → ¬Open s.parts number) ∧
      ∀ c' ∈ s.calls, c'.id ≠ c.id → c'.isLate = true
  running : ∀ number, Runs s.parts number →
    s.keeper.watch = some number ∨ ∃ c ∈ s.calls, c.Launches number
  opened : ∀ number, Open s.parts number →
    s.keeper.intake = some number ∨ ∃ c ∈ s.calls, c.Launches number ∨ c.Discards number

/-- What a keeper knows of is at work only while it has a watch or a stop goes on. Listeners other
than those from before are the keeper's. -/
structure Sound (listeners : List Listener) (s : Session) : Prop where
  parts : ∀ p ∈ s.parts, p.Sound
  numbered : s.Numbered
  owned : s.Owned
  registered : ∀ l ∈ s.index.listeners, l ∈ listeners ∨ s.keeper.listener = some l
  single : ∀ l, l ∉ listeners → s.index.listeners.count l ≤ 1
  stopped : ∀ number, s.keeper.intake = some number → Open s.parts number →
    s.keeper.watch ≠ none ∨ ∃ c ∈ s.calls, c.Closes number
  heard : ∀ l, s.keeper.listener = some l →
    s.keeper.watch ≠ none ∨ ∃ c ∈ s.calls, ∃ number, c.Closes number

/-- A session with other calls that wait. -/
def taking (s : Session) (calls : List Flight) (nextId : Nat) : Session :=
  { s with calls, nextId }

/-- A call that goes on is taken out, or a new one draws its number. -/
structure Taken (s : Session) (calls : List Flight) (nextId id : Nat) (f : Option Flight) :
    Prop where
  grown : s.nextId ≤ nextId
  known : id < nextId
  fewer : calls.Sublist s.calls
  apart : ∀ c ∈ calls, c.id ≠ id
  others : ∀ c ∈ s.calls, c ∈ calls ∨ f = some c
  taken : ∀ c ∈ f, c ∈ s.calls ∧ c.id = id
  unanswered : ∀ x ∈ s.answers, x.1 ≠ id

theorem taken_new (h : s.Numbered) : s.Taken s.calls (s.nextId + 1) s.nextId none :=
  ⟨Nat.le_succ _, Nat.lt_succ_self _, .refl _, fun c hc => (h.known c hc).ne, fun _ hc => .inl hc,
    by rintro _ ⟨⟩, fun x hx => (h.answered x hx).1.ne⟩

theorem taken_call (h : s.Numbered) {c : Flight} (hc : s.calls.find? (·.id = id) = some c) :
    s.Taken (s.without c).calls s.nextId c.id (some c) := by
  have hmem := List.mem_of_find?_eq_some hc
  obtain ⟨l₁, l₂, hsplit, hrest⟩ := eraseP_of_find? hc
  have hcalls : (s.without c).calls = l₁ ++ l₂ := hrest
  refine ⟨Nat.le_refl _, h.known c hmem, List.eraseP_sublist .., ?_, ?_, ?_,
    fun x hx => ((h.answered x hx).2 c hmem).symm⟩
  · have hids := h.ids
    rw [hsplit, List.map_append, List.map_cons, List.nodup_middle, ← List.map_append] at hids
    intro c' hc' hsame
    rw [hcalls] at hc'
    exact (List.nodup_cons.mp hids).1 (hsame ▸ List.mem_map_of_mem hc')
  · intro c' hc'
    rw [hcalls]
    rw [hsplit] at hc'
    rcases List.mem_append.mp hc' with hc' | hc'
    · exact .inl (List.mem_append_left _ hc')
    · rcases List.mem_cons.mp hc' with rfl | hc'
      · exact .inr rfl
      · exact .inl (List.mem_append_right _ hc')
  · rintro c' ⟨⟩
    exact ⟨hmem, rfl⟩

/-- A call that is over answers once. -/
theorem Numbered.answers (h : s.Numbered) (ht : s.Taken calls nextId id f)
    {result : Except Failure Answer} (hcalls : t.calls = calls) (hnext : t.nextId = nextId)
    (hanswers : t.answers = s.answers ++ [(id, result)]) : t.Numbered := by
  refine ⟨?_, ?_, ?_, ?_⟩
  · rw [hcalls]
    exact h.ids.sublist (ht.fewer.map _)
  · rw [hcalls, hnext]
    exact fun c hc => (h.known c (ht.fewer.subset hc)).trans_le ht.grown
  · rw [hcalls, hnext, hanswers]
    intro x hx
    rcases List.mem_append.mp hx with hx | hx
    · obtain ⟨hlt, hgone⟩ := h.answered x hx
      exact ⟨hlt.trans_le ht.grown, fun c hc => hgone c (ht.fewer.subset hc)⟩
    · rw [List.mem_singleton.mp hx]
      exact ⟨ht.known, ht.apart⟩
  · rw [hanswers, List.map_append]
    refine List.nodup_append.mpr ⟨h.once, List.nodup_singleton _, ?_⟩
    intro i hi j hj
    obtain ⟨x, hx, rfl⟩ := List.mem_map.mp hi
    rw [List.mem_singleton.mp hj]
    exact ht.unanswered x hx

/-- A call that goes on waits under its number. -/
theorem Numbered.waits (h : s.Numbered) (ht : s.Taken calls nextId id f) {c : Flight}
    (hid : c.id = id) (hcalls : t.calls = calls ++ [c]) (hnext : t.nextId = nextId)
    (hanswers : t.answers = s.answers) : t.Numbered := by
  have hmem {c' : Flight} (hc' : c' ∈ t.calls) : c' ∈ s.calls ∧ c'.id ≠ id ∨ c' = c := by
    rw [hcalls] at hc'
    rcases List.mem_append.mp hc' with hc' | hc'
    · exact .inl ⟨ht.fewer.subset hc', ht.apart c' hc'⟩
    · exact .inr (List.mem_singleton.mp hc')
  refine ⟨?_, ?_, ?_, hanswers ▸ h.once⟩
  · rw [hcalls, List.map_append]
    refine List.nodup_append.mpr ⟨h.ids.sublist (ht.fewer.map _), List.nodup_singleton _, ?_⟩
    intro i hi j hj
    obtain ⟨c', hc', rfl⟩ := List.mem_map.mp hi
    rw [List.mem_singleton.mp hj, hid]
    exact ht.apart c' hc'
  · intro c' hc'
    rw [hnext]
    rcases hmem hc' with ⟨hold, -⟩ | rfl
    · exact (h.known c' hold).trans_le ht.grown
    · exact hid ▸ ht.known
  · intro x hx
    rw [hanswers] at hx
    rw [hnext]
    obtain ⟨hlt, hgone⟩ := h.answered x hx
    refine ⟨hlt.trans_le ht.grown, fun c' hc' => ?_⟩
    rcases hmem hc' with ⟨hold, -⟩ | rfl
    · exact hgone c' hold
    · exact hid ▸ (ht.unanswered x hx).symm

/-- Nothing is made, and the keeper comes to know of less. -/
structure Rests (s t : Session) : Prop where
  later : Later s.parts t.parts
  length : t.parts.length = s.parts.length
  watch : t.keeper.watch = s.keeper.watch ∨
    t.keeper.watch = none ∧ ∀ number, s.keeper.watch = some number → ¬Runs s.parts number
  intake : t.keeper.intake = s.keeper.intake
  listener : t.keeper.listener = s.keeper.listener ∨ t.keeper.listener = none

theorem Rests.runs (h : Rests s t) {number : Nat} (hruns : Runs t.parts number) :
    Runs s.parts number :=
  h.later.runs _ (h.length ▸ lt_of_runs hruns) hruns

theorem Rests.opened (h : Rests s t) {number : Nat} (hopen : Open t.parts number) :
    Open s.parts number :=
  h.later.opened _ (h.length ▸ lt_of_open hopen) hopen

theorem Rests.awaits (h : Rests s t) {c : Flight} (hc : s.Awaits c) : t.Awaits c := by
  cases hc with
  | start hlt => exact .start (h.length.symm ▸ hlt)
  | halt hidle hwatch =>
    refine .halt (fun hruns => ?_) fun watch hsome => ?_
    · exact hidle (h.runs hruns)
    · rcases h.watch with hsame | ⟨hnone, -⟩
      · exact hwatch watch (hsame.symm.trans hsome)
      · cases hnone.symm.trans hsome
  | discard hends => exact .discard (h.later.ending _ _ hends)
  | close hends => exact .close (h.later.ending _ _ hends)
  | index => exact .index

/-- What happens beside a start, which goes on to wait. -/
structure Aside (s t : Session) : Prop extends Rests s t where
  starts : ∀ c ∈ s.calls, c.isStart = true → c ∈ t.calls
  calls : ∀ c ∈ t.calls, c ∈ s.calls ∨
    c.isStart = false ∧ t.Awaits c ∧ (c.isLate = true ∨ s.keeper.watch ≠ none)

theorem Aside.owned (h : Aside s t) (ho : s.Owned) : t.Owned := by
  have hold {c : Flight} (hc : c ∈ t.calls) (hstart : c.isStart = true) : c ∈ s.calls := by
    rcases h.calls c hc with hc | ⟨hnot, -⟩
    · exact hc
    · cases hnot.symm.trans hstart
  refine ⟨?_, ?_, ?_, ?_, ?_⟩
  · rw [h.intake, h.length]
    exact ho.placed
  · intro c hc
    rcases h.calls c hc with hc | ⟨-, hawaits, -⟩
    · exact h.awaits (ho.awaits c hc)
    · exact hawaits
  · intro c hc hstart
    obtain ⟨hwatch, hlistener, hintake, hlate⟩ := ho.alone c (hold hc hstart) hstart
    refine ⟨?_, ?_, ?_, ?_⟩
    · exact h.watch.elim (fun hsame => hsame.trans hwatch) fun hnone => hnone.1
    · exact h.listener.elim (fun hsame => hsame.trans hlistener) fun hnone => hnone
    · rw [h.intake]
      exact fun number hnumber hnow => hintake number hnumber (h.opened hnow)
    · intro c' hc' hne
      rcases h.calls c' hc' with hc' | ⟨-, -, hnew | hsome⟩
      · exact hlate c' hc' hne
      · exact hnew
      · exact absurd hwatch hsome
  · intro number hnow
    rcases ho.running number (h.runs hnow) with hwatch | ⟨c, hc, hlaunches⟩
    · rcases h.watch with hsame | ⟨-, hidle⟩
      · exact .inl (hsame.trans hwatch)
      · exact absurd (h.runs hnow) (hidle number hwatch)
    · exact .inr ⟨c, h.starts c hc hlaunches.isStart, hlaunches⟩
  · intro number hnow
    rcases ho.opened number (h.opened hnow) with hintake | ⟨c, hc, hmakes⟩
    · exact .inl (h.intake.trans hintake)
    · have hstart : c.isStart = true := hmakes.elim Flight.Launches.isStart Flight.Discards.isStart
      exact .inr ⟨c, h.starts c hc hstart, hmakes⟩

/-- What a step comes to: the parts change or a call answers; a start makes a watch, keeps it, or
discards it with its intake; a stop halts the watch, then closes the intake, and is over. -/
inductive Stepped (s : Session) : Session → Prop
  | same : Stepped s s
  | parts {number : Nat} {g : Part → Part} (hg : ∀ p, s.parts[number]? = some p → p.Sound →
      p.Follows (g p) ∧ (g p).Sound) : Stepped s { s with parts := s.parts.modify number g }
  | drops : Stepped s { s with index := s.index.dropState }
  | answers {calls : List Flight} {nextId id : Nat} {f : Option Flight} {k : Keeper}
      {result : Except Failure Answer} (ht : s.Taken calls nextId id f)
      (hwatch : k.watch = s.keeper.watch) (hintake : k.intake = s.keeper.intake)
      (hlistener : k.listener = s.keeper.listener)
      (hf : ∀ c ∈ f, c.isStart = false ∧ ∀ number, ¬c.Closes number)
      (hfails : ∀ c ∈ f, c.Halts → ∃ failure, result = .error failure)
      (hresult : result ≠ .ok (.flag true)) :
      Stepped s ((s.taking calls nextId).advance id ⟨k, [], .done result⟩)
  | launches {nextId id : Nat} (ht : s.Taken s.calls nextId id none) (hcalls : s.calls = [])
      (hwatch : s.keeper.watch = none) (settings : Launch) (l : Option Listener) :
      Stepped s ((s.taking s.calls nextId).advance id
        (.ask s.keeper [] (.launch settings) (.launching l)))
  | halts {calls : List Flight} {nextId id watch : Nat} (ht : s.Taken calls nextId id none)
      (hwatch : s.keeper.watch = some watch) (after : AfterStop) :
      Stepped s ((s.taking calls nextId).advance id
        (.ask s.keeper [] (.stopWatching watch) (.stoppingWatch after)))
  | closes {calls : List Flight} {nextId id intake : Nat} {f : Option Flight} {k : Keeper}
      (ht : s.Taken calls nextId id f) (hwatch : k.watch = none)
      (hidle : ∀ number, s.keeper.watch = some number → ¬Runs s.parts number)
      (hintake : k.intake = s.keeper.intake) (hlistener : k.listener = s.keeper.listener)
      (hf : ∀ c ∈ f, c.Halts) (hknown : s.keeper.intake = some intake) (after : AfterStop) :
      Stepped s ((s.taking calls nextId).advance id
        (.ask k [] (.stopIntake intake) (.stoppingIntake after)))
  | stops {calls : List Flight} {nextId id : Nat} {f : Option Flight} {k : Keeper}
      (ht : s.Taken calls nextId id f) (hwatch : k.watch = s.keeper.watch ∨
        k.watch = none ∧ ∀ number, s.keeper.watch = some number → ¬Runs s.parts number)
      (hintake : k.intake = s.keeper.intake) (hlistener : k.listener = s.keeper.listener)
      (hf : ∀ c ∈ f, c.isStart = false) (hhalts : ∀ c ∈ f, c.Halts → k.watch = none)
      (hclosed : ∀ number, s.keeper.intake = some number → Open s.parts number →
        k.watch ≠ none ∨ ∃ c ∈ calls, c.Closes number) (after : AfterStop) :
      Stepped s ((s.taking calls nextId).advance id (k.watchingOver after))
  | keeps {calls : List Flight} {nextId id number : Nat} {c : Flight}
      (ht : s.Taken calls nextId id (some c)) (hc : c.Launches number) (l : Option Listener) :
      Stepped s ((s.taking calls nextId).advance id
        (s.keeper.launched l (.ok (number, number, true))))
  | discards {calls : List Flight} {nextId id number : Nat} {c : Flight}
      (ht : s.Taken calls nextId id (some c)) (hc : c.Launches number)
      (hidle : ¬Runs s.parts number) :
      Stepped s ((s.taking calls nextId).advance id
        (.ask s.keeper [] (.stopIntake number) .discarding))
  | discarded {calls : List Flight} {nextId id number : Nat} {c : Flight}
      (ht : s.Taken calls nextId id (some c)) (hc : c.Discards number)
      (hclosed : ¬Open s.parts number) :
      Stepped s ((s.taking calls nextId).advance id (.done s.keeper [] (.flag false)))

theorem sound_parts (h : s.Sound listeners) {number : Nat} {g : Part → Part}
    (hg : ∀ p, s.parts[number]? = some p → p.Sound → p.Follows (g p) ∧ (g p).Sound) :
    Sound listeners { s with parts := s.parts.modify number g } := by
  have hlater : Later s.parts (s.parts.modify number g) :=
    later_modify fun p hp => (hg p hp (h.parts p (List.mem_of_getElem? hp))).1
  have haside : Aside s { s with parts := s.parts.modify number g } :=
    ⟨⟨hlater, List.length_modify .., .inl rfl, rfl, .inl rfl⟩, fun _ hc _ => hc,
      fun _ hc => .inl hc⟩
  exact ⟨sound_modify h.parts fun p hp hsound => (hg p hp hsound).2,
    ⟨h.numbered.ids, h.numbered.known, h.numbered.answered, h.numbered.once⟩, haside.owned h.owned,
    h.registered, h.single, fun n hn hopen => h.stopped n hn (haside.opened hopen), h.heard⟩

/-- An index that is ended has no listeners. -/
theorem sound_drops (h : s.Sound listeners) :
    Sound listeners { s with index := s.index.dropState } :=
  have haside : Aside s { s with index := s.index.dropState } :=
    ⟨⟨later_refl _, rfl, .inl rfl, rfl, .inl rfl⟩, fun _ hc _ => hc, fun _ hc => .inl hc⟩
  ⟨h.parts, ⟨h.numbered.ids, h.numbered.known, h.numbered.answered, h.numbered.once⟩,
    haside.owned h.owned, fun _ hl => absurd hl List.not_mem_nil, fun _ _ => Nat.zero_le 1,
    h.stopped, h.heard⟩

theorem sound_answers (h : s.Sound listeners) {k : Keeper} {result : Except Failure Answer}
    (ht : s.Taken calls nextId id f) (hwatch : k.watch = s.keeper.watch)
    (hintake : k.intake = s.keeper.intake) (hlistener : k.listener = s.keeper.listener)
    (hf : ∀ c ∈ f, c.isStart = false ∧ ∀ number, ¬c.Closes number) :
    Sound listeners ((s.taking calls nextId).advance id ⟨k, [], .done result⟩) := by
  -- What is over is neither a start nor the end of an intake, so nothing loses its owner.
  have hstays {c : Flight} (hc : c ∈ s.calls) (hstays : c.isStart = true ∨ ∃ n, c.Closes n) :
      c ∈ calls := by
    rcases ht.others c hc with hc | hc
    · exact hc
    · obtain ⟨hstart, hcloses⟩ := hf c hc
      rcases hstays with hstays | ⟨n, hn⟩
      · cases hstart.symm.trans hstays
      · exact absurd hn (hcloses n)
  have haside : Aside s ((s.taking calls nextId).advance id ⟨k, [], .done result⟩) :=
    ⟨⟨later_refl _, rfl, .inl hwatch, hintake, .inl hlistener⟩, fun c hc hs => hstays hc (.inl hs),
      fun c hc => .inl (ht.fewer.subset hc)⟩
  refine ⟨h.parts, h.numbered.answers ht rfl rfl rfl, haside.owned h.owned, ?_, h.single, ?_, ?_⟩
  · exact fun l hl => hlistener.symm ▸ h.registered l hl
  · intro n hn hopen
    refine (h.stopped n (hintake ▸ hn) hopen).imp (fun hsome => hwatch.symm ▸ hsome) ?_
    rintro ⟨c, hc, hcloses⟩
    exact ⟨c, hstays hc (.inr ⟨n, hcloses⟩), hcloses⟩
  · intro l hl
    refine (h.heard l (hlistener ▸ hl)).imp (fun hsome => hwatch.symm ▸ hsome) ?_
    rintro ⟨c, hc, hcloses⟩
    exact ⟨c, hstays hc (.inr hcloses), hcloses⟩

/-- Nothing is at work for a keeper that has no watch while no call goes on. -/
theorem Sound.at_rest (h : s.Sound listeners) (hcalls : s.calls = [])
    (hwatch : s.keeper.watch = none) : (∀ number, ¬Runs s.parts number) ∧
      (∀ number, ¬Open s.parts number) ∧ s.keeper.listener = none := by
  have hnobody {P : Flight → Prop} : ¬∃ c ∈ s.calls, P c := by
    rw [hcalls]
    exact fun ⟨_, hc, _⟩ => List.not_mem_nil hc
  refine ⟨fun number hruns => ?_, fun number hopen => ?_, ?_⟩
  · have hsome := (h.owned.running number hruns).resolve_right hnobody
    cases hwatch.symm.trans hsome
  · have hknown := (h.owned.opened number hopen).resolve_right hnobody
    exact (h.stopped number hknown hopen).resolve_right hnobody hwatch
  · refine Option.eq_none_iff_forall_not_mem.mpr fun l hl => ?_
    exact (h.heard l hl).resolve_right hnobody hwatch

/-- A start makes a watch, which only the start knows of then. -/
theorem sound_launches (h : s.Sound listeners) (ht : s.Taken s.calls nextId id none)
    (hcalls : s.calls = []) (hwatch : s.keeper.watch = none) (settings : Launch)
    (l : Option Listener) :
    Sound listeners ((s.taking s.calls nextId).advance id
      (.ask s.keeper [] (.launch settings) (.launching l))) := by
  obtain ⟨hlater, hparts⟩ := later_asked h.parts (.launch settings)
  obtain ⟨hidle, hclosed, hsilent⟩ := h.at_rest hcalls hwatch
  generalize hstep : (s.taking s.calls nextId).advance id
    (.ask s.keeper [] (.launch settings) (.launching l)) = t
  have hmade : t.parts = (asked s.parts (.launch settings)).1 := hstep ▸ rfl
  have hlength : t.parts.length = s.parts.length + 1 := hmade ▸ List.length_append
  have hkeeper : t.keeper = s.keeper := hstep ▸ rfl
  have hindex : t.index = s.index := hstep ▸ rfl
  obtain ⟨new, hnew, hlaunches⟩ : ∃ new : Flight, t.calls = [new] ∧
      new.Launches s.parts.length := by
    refine ⟨⟨id, .watch s.parts.length 0, .launching l⟩, ?_, l, 0, rfl, rfl⟩
    rw [← hstep]
    exact congrArg (· ++ _) hcalls
  -- What was made before does not run and is ended, so only the new watch and intake are left.
  have hold {number : Nat} (hlt : number < t.parts.length) :
      number < s.parts.length ∨ number = s.parts.length := by
    rw [hlength] at hlt
    exact Nat.lt_succ_iff_lt_or_eq.mp hlt
  have hruns {number : Nat} (hnow : Runs t.parts number) : number = s.parts.length := by
    refine (hold (lt_of_runs hnow)).resolve_left fun hlt => ?_
    exact hidle number (hlater.runs number hlt (hmade ▸ hnow))
  have hopen {number : Nat} (hnow : Open t.parts number) : number = s.parts.length := by
    refine (hold (lt_of_open hnow)).resolve_left fun hlt => ?_
    exact hclosed number (hlater.opened number hlt (hmade ▸ hnow))
  have hunknown (number : Nat) (hnumber : s.keeper.intake = some number) :
      ¬Open t.parts number :=
    fun hnow => (h.owned.placed number hnumber).ne (hopen hnow)
  refine ⟨hmade ▸ hparts, hstep ▸ h.numbered.waits ht rfl rfl rfl rfl, ⟨?_, ?_, ?_, ?_, ?_⟩, ?_, ?_,
    ?_, ?_⟩
  · intro number hnumber
    rw [hlength]
    exact (h.owned.placed number (hkeeper ▸ hnumber)).trans (Nat.lt_succ_self _)
  · intro c hc
    rw [← hstep] at hc ⊢
    rcases List.mem_append.mp hc with hc | hc
    · cases hcalls ▸ hc
    · rw [List.mem_singleton.mp hc]
      exact .start (List.length_append.symm ▸ Nat.lt_succ_self _)
  · intro c hc _
    rw [hnew] at hc ⊢
    rw [hkeeper]
    refine ⟨hwatch, hsilent, hunknown, fun c' hc' hne => absurd ?_ hne⟩
    rw [List.mem_singleton.mp hc', List.mem_singleton.mp hc]
  · intro number hnow
    rw [hnew, hruns hnow]
    exact .inr ⟨new, List.mem_singleton_self _, hlaunches⟩
  · intro number hnow
    rw [hnew, hopen hnow]
    exact .inr ⟨new, List.mem_singleton_self _, .inl hlaunches⟩
  · rw [hindex, hkeeper]
    exact h.registered
  · rw [hindex]
    exact h.single
  · intro number hnumber hnow
    exact absurd hnow (hunknown number (hkeeper ▸ hnumber))
  · intro l hl
    rw [hkeeper] at hl
    cases hsilent.symm.trans hl

/-- A stop halts the watch. -/
theorem sound_halts (h : s.Sound listeners) (ht : s.Taken calls nextId id none) {watch : Nat}
    (hwatch : s.keeper.watch = some watch) (after : AfterStop) :
    Sound listeners ((s.taking calls nextId).advance id
      (.ask s.keeper [] (.stopWatching watch) (.stoppingWatch after))) := by
  obtain ⟨hlater, hparts⟩ := later_asked h.parts (.stopWatching watch)
  have hsome : s.keeper.watch ≠ none := by
    rw [hwatch]
    exact Option.some_ne_none watch
  have haside : Aside s ((s.taking calls nextId).advance id
      (.ask s.keeper [] (.stopWatching watch) (.stoppingWatch after))) := by
    refine ⟨⟨hlater, length_asked _ (by rintro _ ⟨⟩), .inl rfl, rfl, .inl rfl⟩, fun c hc _ => ?_,
      fun c hc => ?_⟩
    · exact List.mem_append_left _ ((ht.others c hc).resolve_right (by rintro ⟨⟩))
    · rcases List.mem_append.mp hc with hc | hc
      · exact .inl (ht.fewer.subset hc)
      · rw [List.mem_singleton.mp hc]
        refine .inr ⟨rfl, .halt (not_runs_stopped _ _) fun number hnumber => ?_, .inr hsome⟩
        exact Option.some.inj (hnumber.symm.trans hwatch)
  exact ⟨hparts, h.numbered.waits ht rfl rfl rfl rfl, haside.owned h.owned, h.registered, h.single,
    fun _ _ _ => .inl hsome, fun _ _ => .inl hsome⟩

/-- A stop that is done with the watch ends the intake. -/
theorem sound_closes (h : s.Sound listeners) {k : Keeper} {intake : Nat}
    (ht : s.Taken calls nextId id f) (hwatch : k.watch = none)
    (hidle : ∀ number, s.keeper.watch = some number → ¬Runs s.parts number)
    (hintake : k.intake = s.keeper.intake) (hlistener : k.listener = s.keeper.listener)
    (hf : ∀ c ∈ f, c.Halts) (hknown : s.keeper.intake = some intake) (after : AfterStop) :
    Sound listeners ((s.taking calls nextId).advance id
      (.ask k [] (.stopIntake intake) (.stoppingIntake after))) := by
  obtain ⟨hlater, hparts⟩ := later_asked h.parts (.stopIntake intake)
  generalize hstep : (s.taking calls nextId).advance id
    (.ask k [] (.stopIntake intake) (.stoppingIntake after)) = t
  have hmade : t.parts = (asked s.parts (.stopIntake intake)).1 := hstep ▸ rfl
  have hkeeper : t.keeper = k := hstep ▸ rfl
  have hindex : t.index = s.index := hstep ▸ rfl
  -- From now on the keeper's intake and its listener are left to the new call.
  obtain ⟨new, hnew, hcloses, hwaits⟩ : ∃ new : Flight, t.calls = calls ++ [new] ∧
      new.Closes intake ∧ t.Awaits new := by
    refine ⟨_, (congrArg Session.calls hstep).symm, ⟨after, _, rfl, rfl⟩, .close ?_⟩
    rw [hmade]
    exact ending_asked h.parts (h.owned.placed intake hknown)
  have hmem : new ∈ t.calls := by
    rw [hnew]
    exact List.mem_append_right _ (List.mem_singleton_self _)
  have haside : Aside s t := by
    refine ⟨⟨hmade ▸ hlater, hmade ▸ length_asked _ (by rintro _ ⟨⟩),
      .inr ⟨hkeeper ▸ hwatch, hidle⟩, hkeeper ▸ hintake, .inl (hkeeper ▸ hlistener)⟩,
      fun c hc hstart => ?_, fun c hc => ?_⟩
    · rw [hnew]
      refine List.mem_append_left _ ((ht.others c hc).resolve_right fun hgoes => ?_)
      cases hstart.symm.trans (hf c hgoes).not_start
    · rw [hnew] at hc
      rcases List.mem_append.mp hc with hc | hc
      · exact .inl (ht.fewer.subset hc)
      · rw [List.mem_singleton.mp hc]
        exact .inr ⟨Flight.not_start_of_late hcloses.isLate, hwaits, .inl hcloses.isLate⟩
  refine ⟨hmade ▸ hparts, hstep ▸ h.numbered.waits ht rfl rfl rfl rfl, haside.owned h.owned, ?_, ?_,
    ?_, ?_⟩
  · rw [hindex, hkeeper, hlistener]
    exact h.registered
  · rw [hindex]
    exact h.single
  · intro number hnumber _
    rw [hkeeper, hintake, hknown] at hnumber
    exact .inr ⟨new, hmem, Option.some.inj hnumber ▸ hcloses⟩
  · exact fun _ _ => .inr ⟨new, hmem, intake, hcloses⟩

/-- Without the keeper's listener only those from before are left. -/
theorem Sound.unlistened (h : s.Sound listeners) {index : Index}
    (hindex : index = (s.keeper.listener.toList.map Effect.unlisten).foldl Effect.onIndex s.index) :
    (∀ l ∈ index.listeners, l ∈ listeners) ∧
      ∀ l, l ∉ listeners → index.listeners.count l ≤ 1 := by
  cases hlistener : s.keeper.listener with
  | none =>
    rw [hlistener] at hindex
    subst hindex
    refine ⟨fun l hl => (h.registered l hl).resolve_right fun hsome => ?_, h.single⟩
    cases hlistener.symm.trans hsome
  | some own =>
    rw [hlistener] at hindex
    have herased : index.listeners = s.index.listeners.erase own := hindex ▸ rfl
    rw [herased]
    refine ⟨fun l hl => ?_, fun l hl => (List.erase_sublist.count_le l).trans (h.single l hl)⟩
    by_contra hnew
    have hown := (h.registered l (List.mem_of_mem_erase hl)).resolve_left hnew
    obtain rfl : own = l := Option.some.inj (hlistener.symm.trans hown)
    -- The listener is registered once, so it is gone when it is taken out.
    have hleft := List.count_pos_iff.mpr hl
    rw [List.count_erase_self] at hleft
    have honce := h.single own hnew
    omega

/-- A stop that is done with the watch and the intake takes the listener out. -/
theorem sound_stops (h : s.Sound listeners) {k : Keeper} (ht : s.Taken calls nextId id f)
    (hwatch : k.watch = s.keeper.watch ∨
      k.watch = none ∧ ∀ number, s.keeper.watch = some number → ¬Runs s.parts number)
    (hintake : k.intake = s.keeper.intake) (hlistener : k.listener = s.keeper.listener)
    (hf : ∀ c ∈ f, c.isStart = false)
    (hclosed : ∀ number, s.keeper.intake = some number → Open s.parts number →
      k.watch ≠ none ∨ ∃ c ∈ calls, c.Closes number) (after : AfterStop) :
    Sound listeners ((s.taking calls nextId).advance id (k.watchingOver after)) := by
  generalize hstep : (s.taking calls nextId).advance id (k.watchingOver after) = t
  have hparts : t.parts = s.parts := by cases after <;> exact hstep ▸ rfl
  have hkeeper : t.keeper = { k with listener := none } := by cases after <;> exact hstep ▸ rfl
  have hindex : t.index =
      (s.keeper.listener.toList.map Effect.unlisten).foldl Effect.onIndex s.index := by
    rw [← hlistener]
    cases after <;> exact hstep ▸ rfl
  obtain ⟨hregistered, hsingle⟩ := h.unlistened hindex
  obtain ⟨hnumbered, hcalls, hnew⟩ : t.Numbered ∧ calls ⊆ t.calls ∧
      ∀ c ∈ t.calls, c ∈ calls ∨ c = ⟨id, .index, .stoppingIndex⟩ := by
    cases after with
    | answer =>
      have hsame : t.calls = calls := hstep ▸ rfl
      rw [hsame]
      exact ⟨hstep ▸ h.numbered.answers ht rfl rfl rfl, List.Subset.refl _, fun _ => .inl⟩
    | destroy =>
      have hmore : t.calls = calls ++ [⟨id, .index, .stoppingIndex⟩] := hstep ▸ rfl
      rw [hmore]
      refine ⟨hstep ▸ h.numbered.waits ht rfl rfl rfl rfl, List.subset_append_left .., ?_⟩
      exact fun c hc => (List.mem_append.mp hc).imp_right List.mem_singleton.mp
  have haside : Aside s t := by
    refine ⟨⟨hparts ▸ later_refl _, congrArg _ hparts, hkeeper ▸ hwatch, hkeeper ▸ hintake,
      .inr (hkeeper ▸ rfl)⟩, fun c hc hstart => ?_, fun c hc => ?_⟩
    · refine hcalls ((ht.others c hc).resolve_right fun hgoes => ?_)
      cases hstart.symm.trans (hf c hgoes)
    · rcases hnew c hc with hc | rfl
      · exact .inl (ht.fewer.subset hc)
      · exact .inr ⟨rfl, .index, .inl rfl⟩
  refine ⟨hparts ▸ h.parts, hnumbered, haside.owned h.owned, fun l hl => .inl (hregistered l hl),
    hsingle, ?_, ?_⟩
  · intro number hnumber hopen
    rw [hkeeper] at hnumber ⊢
    refine (hclosed number (hintake.symm.trans hnumber) (haside.opened hopen)).imp_right ?_
    exact fun ⟨c, hc, hcloses⟩ => ⟨c, hcalls hc, hcloses⟩
  · intro l hl
    rw [hkeeper] at hl
    cases hl

/-- While a start goes on, nothing is at work that only the keeper knows of. -/
structure Starting (s : Session) (calls : List Flight) (c : Flight) : Prop where
  watch : s.keeper.watch = none
  listener : s.keeper.listener = none
  closed : ∀ number, s.keeper.intake = some number → ¬Open s.parts number
  late : ∀ c' ∈ calls, c'.isLate = true
  running : ∀ number, Runs s.parts number → c.Launches number
  opened : ∀ number, Open s.parts number → c.Launches number ∨ c.Discards number

theorem Owned.starting (h : s.Owned) {c : Flight} (ht : s.Taken calls nextId id (some c))
    (hstart : c.isStart = true) : s.Starting calls c := by
  obtain ⟨hmem, hid⟩ := ht.taken c rfl
  obtain ⟨hwatch, hlistener, hclosed, hothers⟩ := h.alone c hmem hstart
  have hlate (c' : Flight) (hc' : c' ∈ calls) : c'.isLate = true :=
    hothers c' (ht.fewer.subset hc') (hid ▸ ht.apart c' hc')
  have honly {c' : Flight} (hc' : c' ∈ s.calls) (hstarts : c'.isStart = true) : c = c' := by
    rcases ht.others c' hc' with hc' | hc'
    · cases (Flight.not_start_of_late (hlate c' hc')).symm.trans hstarts
    · exact Option.some.inj hc'
  refine ⟨hwatch, hlistener, hclosed, hlate, fun number hruns => ?_, fun number hopen => ?_⟩
  · rcases h.running number hruns with hsome | ⟨c', hc', hlaunches⟩
    · cases hwatch.symm.trans hsome
    · exact honly hc' hlaunches.isStart ▸ hlaunches
  · rcases h.opened number hopen with hsome | ⟨c', hc', hmakes⟩
    · exact absurd hopen (hclosed number hsome)
    · exact honly hc' (hmakes.elim Flight.Launches.isStart Flight.Discards.isStart) ▸ hmakes

theorem Owned.lt_of_launches (h : s.Owned) {c : Flight} (hc : c ∈ s.calls) {number : Nat}
    (hlaunches : c.Launches number) : number < s.parts.length := by
  obtain ⟨l, id, hwaiting, hawaited⟩ := hlaunches
  cases h.awaits c hc with
  | start hlt =>
    cases hawaited
    exact hlt
  | _ => cases hwaiting

/-- A start that is over hands what it has made to the keeper. -/
theorem sound_keeps (h : s.Sound listeners) {number : Nat} {c : Flight}
    (ht : s.Taken calls nextId id (some c)) (hc : c.Launches number) (l : Option Listener) :
    Sound listeners ((s.taking calls nextId).advance id
      (s.keeper.launched l (.ok (number, number, true)))) := by
  have hstarting := h.owned.starting ht hc.isStart
  generalize hstep : (s.taking calls nextId).advance id
    (s.keeper.launched l (.ok (number, number, true))) = t
  have hparts : t.parts = s.parts := by cases l <;> exact hstep ▸ rfl
  have hcalls : t.calls = calls := by cases l <;> exact hstep ▸ rfl
  have hwatch : t.keeper.watch = some number := by cases l <;> exact hstep ▸ rfl
  have hintake : t.keeper.intake = some number := by cases l <;> exact hstep ▸ rfl
  have hnumbered : t.Numbered := by
    cases l <;> exact hstep ▸ h.numbered.answers ht rfl rfl rfl
  have hsome : t.keeper.watch ≠ none := by
    rw [hwatch]
    exact Option.some_ne_none number
  have hplaced := h.owned.lt_of_launches (ht.taken c rfl).1 hc
  obtain ⟨hregistered, hsingle⟩ : (∀ l ∈ t.index.listeners, l ∈ listeners ∨
      t.keeper.listener = some l) ∧ ∀ l, l ∉ listeners → t.index.listeners.count l ≤ 1 := by
    have hbefore (l' : Listener) (hl' : l' ∈ s.index.listeners) : l' ∈ listeners := by
      refine (h.registered l' hl').resolve_right fun hown => ?_
      cases hstarting.listener.symm.trans hown
    cases l with
    | none =>
      have hsame : t.index = s.index := hstep ▸ rfl
      rw [hsame]
      exact ⟨fun l' hl' => .inl (hbefore l' hl'), h.single⟩
    | some own =>
      have hindex : t.index = s.index.listen own := hstep ▸ rfl
      have hown : t.keeper.listener = some own := hstep ▸ rfl
      rw [hindex, hown, Index.listen]
      split
      · exact ⟨fun l' hl' => .inl (hbefore l' hl'), h.single⟩
      · next hnew =>
        refine ⟨fun l' hl' => ?_, fun l' hl' => ?_⟩
        · rcases List.mem_append.mp hl' with hl' | hl'
          · exact .inl (hbefore l' hl')
          · exact .inr (congrArg some (List.mem_singleton.mp hl').symm)
        · rw [List.count_append, List.count_eq_zero.mpr fun hold => hl' (hbefore l' hold),
            Nat.zero_add]
          exact List.count_le_length
  refine ⟨hparts ▸ h.parts, hnumbered, ⟨?_, ?_, ?_, ?_, ?_⟩, hregistered, hsingle,
    fun _ _ _ => .inl hsome, fun _ _ => .inl hsome⟩
  · intro n hn
    rw [hintake] at hn
    rw [hparts, ← Option.some.inj hn]
    exact hplaced
  -- The watch of the keeper is a new one. No other call halts a watch any more, as it would not be
  -- this one.
  · intro c' hc'
    rw [hcalls] at hc'
    have hlate := hstarting.late c' hc'
    cases h.owned.awaits c' (ht.fewer.subset hc') with
    | start hlt => cases hlate
    | halt hidle hknown => cases hlate
    | discard hends => cases hlate
    | close hends => exact .close (hparts ▸ hends)
    | index => exact .index
  · intro c' hc' hstart
    rw [hcalls] at hc'
    cases (Flight.not_start_of_late (hstarting.late c' hc')).symm.trans hstart
  · intro n hruns
    rw [hwatch, hc.unique (hstarting.running n (hparts ▸ hruns))]
    exact .inl rfl
  · intro n hopen
    have hlaunches := (hstarting.opened n (hparts ▸ hopen)).resolve_right hc.not_discards
    rw [hintake, hc.unique hlaunches]
    exact .inl rfl

/-- A start whose watch was halted ends the intake that it has made. -/
theorem sound_discards (h : s.Sound listeners) {number : Nat} {c : Flight}
    (ht : s.Taken calls nextId id (some c)) (hc : c.Launches number)
    (hidle : ¬Runs s.parts number) :
    Sound listeners ((s.taking calls nextId).advance id
      (.ask s.keeper [] (.stopIntake number) .discarding)) := by
  have hstarting := h.owned.starting ht hc.isStart
  obtain ⟨hlater, hparts⟩ := later_asked h.parts (.stopIntake number)
  generalize hstep : (s.taking calls nextId).advance id
    (.ask s.keeper [] (.stopIntake number) .discarding) = t
  have hmade : t.parts = (asked s.parts (.stopIntake number)).1 := hstep ▸ rfl
  have hkeeper : t.keeper = s.keeper := hstep ▸ rfl
  have hindex : t.index = s.index := hstep ▸ rfl
  have hrests : Rests s t :=
    ⟨hmade ▸ hlater, hmade ▸ length_asked _ (by rintro _ ⟨⟩), .inl (hkeeper ▸ rfl), hkeeper ▸ rfl,
      .inl (hkeeper ▸ rfl)⟩
  -- The start goes on under its number, and the intake passes from its one wait to the next.
  obtain ⟨new, hnew, hid, hdiscards, hwaits⟩ : ∃ new : Flight, t.calls = calls ++ [new] ∧
      new.id = id ∧ new.Discards number ∧ t.Awaits new := by
    refine ⟨_, (congrArg Session.calls hstep).symm, rfl, ⟨rfl, _, rfl⟩, .discard ?_⟩
    rw [hmade]
    exact ending_asked h.parts (h.owned.lt_of_launches (ht.taken c rfl).1 hc)
  have hmem {c' : Flight} (hc' : c' ∈ t.calls) : c' ∈ calls ∨ c' = new := by
    rw [hnew] at hc'
    exact (List.mem_append.mp hc').imp_right List.mem_singleton.mp
  refine ⟨hmade ▸ hparts, hstep ▸ h.numbered.waits ht rfl rfl rfl rfl, ⟨?_, ?_, ?_, ?_, ?_⟩, ?_, ?_,
    ?_, ?_⟩
  · rw [hkeeper, hrests.length]
    exact h.owned.placed
  · intro c' hc'
    rcases hmem hc' with hc' | rfl
    · exact hrests.awaits (h.owned.awaits c' (ht.fewer.subset hc'))
    · exact hwaits
  · intro c' hc' hstart
    rcases hmem hc' with hc' | rfl
    · cases (Flight.not_start_of_late (hstarting.late c' hc')).symm.trans hstart
    · rw [hkeeper]
      refine ⟨hstarting.watch, hstarting.listener, fun n hn hopen => ?_, fun c'' hc'' hne => ?_⟩
      · exact hstarting.closed n hn (hrests.opened hopen)
      · exact hstarting.late c'' ((hmem hc'').resolve_right fun hsame => hne (hsame ▸ rfl))
  · intro n hruns
    have hbefore := hrests.runs hruns
    exact absurd (hc.unique (hstarting.running n hbefore) ▸ hbefore) hidle
  · intro n hopen
    have hlaunches := (hstarting.opened n (hrests.opened hopen)).resolve_right hc.not_discards
    rw [hnew, ← hc.unique hlaunches]
    exact .inr ⟨new, List.mem_append_right _ (List.mem_singleton_self _), .inr hdiscards⟩
  · rw [hindex, hkeeper]
    exact h.registered
  · rw [hindex]
    exact h.single
  · intro n hn hopen
    rw [hkeeper] at hn
    exact absurd (hrests.opened hopen) (hstarting.closed n hn)
  · intro l hl
    rw [hkeeper] at hl
    cases hstarting.listener.symm.trans hl

/-- A start is over that has ended the intake that it has made. -/
theorem sound_discarded (h : s.Sound listeners) {number : Nat} {c : Flight}
    (ht : s.Taken calls nextId id (some c)) (hc : c.Discards number)
    (hclosed : ¬Open s.parts number) :
    Sound listeners ((s.taking calls nextId).advance id (.done s.keeper [] (.flag false))) := by
  have hstarting := h.owned.starting ht hc.isStart
  have hold {c' : Flight} (hc' : c' ∈ calls) : c'.isStart = false :=
    Flight.not_start_of_late (hstarting.late c' hc')
  refine ⟨h.parts, h.numbered.answers ht rfl rfl rfl, ⟨h.owned.placed, ?_, ?_, ?_, ?_⟩,
    h.registered, h.single, ?_, ?_⟩
  · have hrests : Rests s ((s.taking calls nextId).advance id (.done s.keeper [] (.flag false))) :=
      ⟨later_refl _, rfl, .inl rfl, rfl, .inl rfl⟩
    exact fun c' hc' => hrests.awaits (h.owned.awaits c' (ht.fewer.subset hc'))
  · intro c' hc' hstart
    cases (hold hc').symm.trans hstart
  · intro n hruns
    exact absurd hc (hstarting.running n hruns).not_discards
  · intro n hopen
    rcases hstarting.opened n hopen with hlaunches | hdiscards
    · exact absurd hc hlaunches.not_discards
    · exact absurd (hc.unique hdiscards ▸ hopen) hclosed
  · exact fun n hn hopen => absurd hopen (hstarting.closed n hn)
  · intro l hl
    cases hstarting.listener.symm.trans hl

theorem Sound.stepped (h : s.Sound listeners) (hstep : Stepped s t) : t.Sound listeners := by
  cases hstep with
  | same => exact h
  | parts hg => exact sound_parts h hg
  | drops => exact sound_drops h
  | answers ht hwatch hintake hlistener hf => exact sound_answers h ht hwatch hintake hlistener hf
  | launches ht hcalls hwatch settings l => exact sound_launches h ht hcalls hwatch settings l
  | halts ht hwatch after => exact sound_halts h ht hwatch after
  | closes ht hwatch hidle hintake hlistener hf hknown after =>
    exact sound_closes h ht hwatch hidle hintake hlistener hf hknown after
  | stops ht hwatch hintake hlistener hf _ hclosed after =>
    exact sound_stops h ht hwatch hintake hlistener hf hclosed after
  | keeps ht hc l => exact sound_keeps h ht hc l
  | discards ht hc hidle => exact sound_discards h ht hc hidle
  | discarded ht hc hclosed => exact sound_discarded h ht hc hclosed

end Session

end LiveIndex.Keeper
