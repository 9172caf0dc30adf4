import LiveIndex.Proofs.Intake.Session
import LiveIndex.Proofs.Store.OrderedMap
import Mathlib.Data.List.Nodup

/-! The order in which changes are handed over. What holds of the queue, of the batch that is being
applied and of the trace is kept by every move that an intake can make: a change arrives, is queued
or is forgotten, a batch is taken from the queue, handed over call by call, and put back in part. -/

namespace LiveIndex.Intake

theorem lt_of_getElem? {T : List Event} {i : Nat} {x : Event} (h : T[i]? = some x) :
    i < T.length :=
  (List.getElem?_eq_some_iff.mp h).1

theorem getElem?_concat_cases {T : List Event} {e x : Event} {i : Nat}
    (h : (T ++ [e])[i]? = some x) : (i < T.length ∧ T[i]? = some x) ∨ (i = T.length ∧ e = x) := by
  have hi := lt_of_getElem? h
  rw [List.length_append, List.length_singleton] at hi
  rcases Nat.lt_or_eq_of_le (Nat.le_of_lt_succ hi) with hlt | rfl
  · rw [List.getElem?_append_left hlt] at h
    exact .inl ⟨hlt, h⟩
  · rw [List.getElem?_concat_length] at h
    exact .inr ⟨rfl, Option.some.inj h⟩

theorem getElem?_concat_of_some {T : List Event} {x : Event} {i : Nat} (h : T[i]? = some x)
    (e : Event) : (T ++ [e])[i]? = some x := by
  rw [List.getElem?_append_left (lt_of_getElem? h)]
  exact h

/-- A change whose handing failed between two points of a trace. -/
def FailedBetween (T : List Event) (i b : Nat) (c : Change) : Prop :=
  ∃ k calls, i < k ∧ k < b ∧ T[k]? = some (.failed calls) ∧ c ∈ calls

/-- A path of which nothing is queued between two points of a trace. -/
def QuietBetween (T : List Event) (i b : Nat) (path : String) : Prop :=
  ∀ k q, i < k → k < b → T[k]? = some (.queued q) → q.path ≠ path

/-- A path of which nothing is handed over between two points of a trace. -/
def UnhandedBetween (T : List Event) (i b : Nat) (path : String) : Prop :=
  ∀ k calls h, i < k → k < b → T[k]? = some (.handed calls) → h ∈ calls → h.path ≠ path

/-- A change that arrived after all of its path that were handed over before a point, unless it is
one of them itself, has failed, and nothing newer was queued up to that point. -/
def MayFollow (T : List Event) (b : Nat) (c : Change) : Prop :=
  ∀ i calls h, i < b → T[i]? = some (.handed calls) → h ∈ calls → h.path = c.path →
    h.arrival < c.arrival ∨
      (h.arrival = c.arrival ∧ FailedBetween T i b h ∧ QuietBetween T i b c.path)

/-- The last batch before a point begins at another. -/
def BeginsAt (T : List Event) (b j : Nat) : Prop :=
  b < j ∧ T[b]? = some .begun ∧ ∀ k, b < k → k < j → T[k]? ≠ some .begun

/-- A change that was queued before a point, though it may have been tried since. -/
def QueuedBefore (T : List Event) (b : Nat) (c : Change) : Prop :=
  ∃ i q, i < b ∧ T[i]? = some (.queued q) ∧ q.path = c.path ∧ q.arrival = c.arrival ∧
    q.kind = c.kind

/-- What holds of a call that hands changes over. -/
def HandedRight (T : List Event) (j : Nat) (calls : List Change) : Prop :=
  (calls.map Change.path).Nodup ∧ ∃ b, BeginsAt T b j ∧ ∀ c ∈ calls,
    MayFollow T b c ∧ QueuedBefore T j c ∧ UnhandedBetween T b j c.path

section Prefixes

variable {T T' : List Event} {b j : Nat} {c : Change}

theorem MayFollow.of_same (h : MayFollow T b c) (hsame : ∀ i < b, T'[i]? = T[i]?) :
    MayFollow T' b c := by
  intro i calls x hi hcalls hx hpath
  rw [hsame i hi] at hcalls
  rcases h i calls x hi hcalls hx hpath with hlt | ⟨heq, ⟨k, fs, hik, hkb, hfs, hxfs⟩, hquiet⟩
  · exact .inl hlt
  · refine .inr ⟨heq, ⟨k, fs, hik, hkb, (hsame k hkb).trans hfs, hxfs⟩, ?_⟩
    intro k q hik hkb hq
    exact hquiet k q hik hkb ((hsame k hkb).symm.trans hq)

theorem BeginsAt.of_same (h : BeginsAt T b j) (hsame : ∀ i < j, T'[i]? = T[i]?) :
    BeginsAt T' b j := by
  obtain ⟨hbj, hb, hlast⟩ := h
  refine ⟨hbj, (hsame b hbj).trans hb, ?_⟩
  intro k hbk hkj
  rw [hsame k hkj]
  exact hlast k hbk hkj

theorem HandedRight.of_same {calls : List Change} (h : HandedRight T j calls)
    (hsame : ∀ i < j, T'[i]? = T[i]?) : HandedRight T' j calls := by
  obtain ⟨hnodup, b, hbegins, hcalls⟩ := h
  refine ⟨hnodup, b, hbegins.of_same hsame, ?_⟩
  intro c hc
  -- All that is said of a call lies before it in the trace.
  obtain ⟨hfollow, ⟨i, q, hij, hq, hsameq⟩, hunhanded⟩ := hcalls c hc
  have hbj := hbegins.1
  refine ⟨hfollow.of_same fun i hi => hsame i (by omega),
    ⟨i, q, hij, (hsame i hij).trans hq, hsameq⟩, ?_⟩
  intro k calls x hbk hkj hk
  exact hunhanded k calls x hbk hkj ((hsame k hkj).symm.trans hk)

theorem concat_same (T : List Event) (e : Event) : ∀ i < T.length, (T ++ [e])[i]? = T[i]? :=
  fun _ hi => List.getElem?_append_left hi

theorem FailedBetween.concat {i : Nat} (h : FailedBetween T i T.length c) (e : Event) :
    FailedBetween (T ++ [e]) i (T ++ [e]).length c := by
  obtain ⟨k, fs, hik, hkb, hfs, hc⟩ := h
  refine ⟨k, fs, hik, ?_, getElem?_concat_of_some hfs e, hc⟩
  rw [List.length_append]
  omega

/-- A change may still follow after an event that neither queues another of its path nor hands over
one that is as new. -/
theorem MayFollow.concat (h : MayFollow T T.length c) {e : Event}
    (hhanded : ∀ calls, e = .handed calls → ∀ x ∈ calls, x.path = c.path → x.arrival < c.arrival)
    (hqueued : ∀ q, e = .queued q → q.path ≠ c.path) :
    MayFollow (T ++ [e]) (T ++ [e]).length c := by
  intro i calls x _ hcalls hx hpath
  rcases getElem?_concat_cases hcalls with ⟨hi, hcalls⟩ | ⟨-, he⟩
  · rcases h i calls x hi hcalls hx hpath with hlt | ⟨heq, hfailed, hquiet⟩
    · exact .inl hlt
    · refine .inr ⟨heq, hfailed.concat e, ?_⟩
      intro k q hik _ hq
      rcases getElem?_concat_cases hq with ⟨hk, hq⟩ | ⟨-, he⟩
      · exact hquiet k q hik hk hq
      · exact hqueued q he
  · exact .inl (hhanded calls he x hx hpath)

theorem QueuedBefore.concat (h : QueuedBefore T T.length c) (e : Event) :
    QueuedBefore (T ++ [e]) (T ++ [e]).length c := by
  obtain ⟨i, q, hi, hq, hsame⟩ := h
  refine ⟨i, q, ?_, getElem?_concat_of_some hq e, hsame⟩
  rw [List.length_append]
  omega

theorem BeginsAt.concat (h : BeginsAt T b T.length) {e : Event} (he : e ≠ .begun) :
    BeginsAt (T ++ [e]) b (T ++ [e]).length := by
  obtain ⟨hbj, hb, hlast⟩ := h
  refine ⟨?_, getElem?_concat_of_some hb e, ?_⟩
  · rw [List.length_append]
    omega
  · intro k hbk _ hk
    rcases getElem?_concat_cases hk with ⟨hlt, hk⟩ | ⟨-, h⟩
    · exact hlast k hbk hlt hk
    · exact he h

end Prefixes

/-- What a batch has of its changes: those it has still to hand over, those of the call that is
under way, and those that failed. -/
structure Stage where
  waiting : List Change
  current : List Change
  failed : List Change

def Stage.all (g : Stage) : List Change :=
  g.waiting ++ g.current ++ g.failed

/-- Arrivals are numbered as they come, and what is looked up is newer than what was queued. -/
structure Arrivals (ix : Intake) (T : List Event) : Prop where
  below : ∀ (i : Nat) n kind path, T[i]? = some (.arrived n kind path) → n < ix.ticket
  rising : ∀ (i j : Nat) m n k l p r, i < j → T[i]? = some (.arrived m k p) →
    T[j]? = some (.arrived n l r) → m < n
  known : ∀ (j : Nat) q, T[j]? = some (.queued q) →
    ∃ i < j, T[i]? = some (.arrived q.arrival q.kind q.path)
  latest : ∀ path n, ix.latest.get? path = some n →
    ∀ (j : Nat) q, T[j]? = some (.queued q) → q.path = path → q.arrival < n

/-- What is queued stands under its path and may be handed over. -/
def Waits (queue : OrderedMap String Change) (T : List Event) : Prop :=
  ∀ path c, queue.get? path = some c →
    c.path = path ∧ QueuedBefore T T.length c ∧ MayFollow T T.length c

/-- The batch that is being applied began at a point of the trace. It hands over each path once, and
what was queued since then is in the queue. -/
structure Applying (queue : OrderedMap String Change) (T : List Event) (g : Stage) (b : Nat) :
    Prop where
  begins : BeginsAt T b T.length
  apart : (g.all.map Change.path).Nodup
  follow : ∀ c ∈ g.all, MayFollow T b c
  queued : ∀ c ∈ g.all, QueuedBefore T T.length c
  unhanded : ∀ c ∈ g.waiting, UnhandedBetween T b T.length c.path
  once : ∀ c ∈ g.current ++ g.failed, ∀ i calls h, b < i → T[i]? = some (.handed calls) →
    h ∈ calls → h.path = c.path → h = c
  returned : ∀ c ∈ g.failed, ∀ i calls, b < i → T[i]? = some (.handed calls) → c ∈ calls →
    FailedBetween T i T.length c
  newer : ∀ c ∈ g.waiting, ∀ d, queue.get? c.path = some d → c.arrival < d.arrival
  since : ∀ i q, b < i → T[i]? = some (.queued q) → queue.contains q.path = true

/-- An intake that keeps the order, with the batch that it is applying and the trace so far. -/
structure InOrder (ix : Intake) (stage : Option Stage) (T : List Event) : Prop where
  live : ix.destroyed = false
  busy : ix.processing = stage.isSome
  arrivals : Arrivals ix T
  waits : Waits ix.queue T
  handed : ∀ (j : Nat) calls, T[j]? = some (.handed calls) → HandedRight T j calls
  applying : ∀ g ∈ stage, ∃ b, Applying ix.queue T g b

section Moves

variable {ix ix' : Intake} {T : List Event} {g : Stage} {b : Nat}

theorem Arrivals.concat (h : Arrivals ix T) {e : Event} (harrived : ∀ n k p, e ≠ .arrived n k p)
    (hqueued : ∀ q, e ≠ .queued q) : Arrivals ix (T ++ [e]) := by
  refine ⟨?_, ?_, ?_, ?_⟩
  · intro i n kind path hi
    rcases getElem?_concat_cases hi with ⟨-, hi⟩ | ⟨-, he⟩
    · exact h.below i n kind path hi
    · exact absurd he (harrived _ _ _)
  · intro i j m n k l p r hij hi hj
    rcases getElem?_concat_cases hi with ⟨-, hi⟩ | ⟨-, he⟩
    · rcases getElem?_concat_cases hj with ⟨-, hj⟩ | ⟨-, he⟩
      · exact h.rising i j m n k l p r hij hi hj
      · exact absurd he (harrived _ _ _)
    · exact absurd he (harrived _ _ _)
  · intro j q hj
    rcases getElem?_concat_cases hj with ⟨-, hj⟩ | ⟨-, he⟩
    · obtain ⟨i, hij, hi⟩ := h.known j q hj
      exact ⟨i, hij, getElem?_concat_of_some hi e⟩
    · exact absurd he (hqueued q)
  · intro path n hn j q hj hq
    rcases getElem?_concat_cases hj with ⟨-, hj⟩ | ⟨-, he⟩
    · exact h.latest path n hn j q hj hq
    · exact absurd he (hqueued q)

theorem Waits.concat {queue : OrderedMap String Change} (h : Waits queue T) {e : Event}
    (hhanded : ∀ calls, e = .handed calls → ∀ x ∈ calls, ∀ c, queue.get? x.path = some c →
      x.arrival < c.arrival)
    (hqueued : ∀ q, e ≠ .queued q) : Waits queue (T ++ [e]) := by
  intro path c hc
  obtain ⟨hpath, hbefore, hfollow⟩ := h path c hc
  refine ⟨hpath, hbefore.concat e, hfollow.concat ?_ fun q hq => absurd hq (hqueued q)⟩
  intro calls he x hx hxpath
  exact hhanded calls he x hx c (by rw [hxpath, hpath, hc])

theorem handed_concat (h : ∀ (j : Nat) calls, T[j]? = some (.handed calls) → HandedRight T j calls)
    {e : Event} (hright : ∀ calls, e = .handed calls → HandedRight T T.length calls) :
    ∀ (j : Nat) calls, (T ++ [e])[j]? = some (.handed calls) → HandedRight (T ++ [e]) j calls := by
  intro j calls hj
  rcases getElem?_concat_cases hj with ⟨hlt, hj⟩ | ⟨rfl, he⟩
  · exact (h j calls hj).of_same fun i hi => concat_same T e i (by omega)
  · exact (hright calls he).of_same (concat_same T e)

/-- A batch goes on after an event that hands over nothing of its paths. -/
theorem Applying.concat {queue : OrderedMap String Change} (h : Applying queue T g b) {e : Event}
    (hbegun : e ≠ .begun)
    (hhanded : ∀ calls, e = .handed calls → ∀ x ∈ calls, ∀ c ∈ g.all, x.path ≠ c.path)
    (hqueued : ∀ q, e = .queued q → queue.contains q.path = true) :
    Applying queue (T ++ [e]) g b := by
  have hb := h.begins.1
  refine ⟨h.begins.concat hbegun, h.apart, ?_, ?_, ?_, ?_, ?_, h.newer, ?_⟩
  · intro c hc
    exact (h.follow c hc).of_same fun i hi => concat_same T e i (by omega)
  · intro c hc
    exact (h.queued c hc).concat e
  · intro c hc k calls x hbk _ hk hx
    rcases getElem?_concat_cases hk with ⟨hlt, hk⟩ | ⟨-, he⟩
    · exact h.unhanded c hc k calls x hbk hlt hk hx
    · exact hhanded calls he x hx c (List.mem_append_left _ (List.mem_append_left _ hc))
  · intro c hc i calls x hbi hi hx hpath
    rcases getElem?_concat_cases hi with ⟨-, hi⟩ | ⟨-, he⟩
    · exact h.once c hc i calls x hbi hi hx hpath
    · refine absurd hpath (hhanded calls he x hx c ?_)
      rw [Stage.all, List.append_assoc]
      exact List.mem_append_right _ hc
  · intro c hc i calls hbi hi hmem
    rcases getElem?_concat_cases hi with ⟨-, hi⟩ | ⟨-, he⟩
    · exact (h.returned c hc i calls hbi hi hmem).concat e
    · exact absurd rfl (hhanded calls he c hmem c (List.mem_append_right _ hc))
  · intro i q hbi hi
    rcases getElem?_concat_cases hi with ⟨-, hi⟩ | ⟨-, he⟩
    · exact h.since i q hbi hi
    · exact hqueued q he

/-- Nothing depends on timers, on the number of the next ticket or on what is forgotten. -/
theorem InOrder.rest {stage : Option Stage} (h : InOrder ix stage T)
    (hticket : ix.ticket ≤ ix'.ticket)
    (hlatest : ∀ path n, ix'.latest.get? path = some n → ix.latest.get? path = some n)
    (hqueue : ix'.queue = ix.queue) (hprocessing : ix'.processing = ix.processing)
    (hdestroyed : ix'.destroyed = ix.destroyed) : InOrder ix' stage T := by
  obtain ⟨below, rising, known, latest⟩ := h.arrivals
  refine ⟨hdestroyed.trans h.live, hprocessing.trans h.busy, ⟨?_, rising, known, ?_⟩, ?_, h.handed,
    ?_⟩
  · intro i n kind path hi
    exact Nat.lt_of_lt_of_le (below i n kind path hi) hticket
  · intro path n hn
    exact latest path n (hlatest path n hn)
  · rw [hqueue]
    exact h.waits
  · rw [hqueue]
    exact h.applying

theorem Arrivals.queued_below (h : Arrivals ix T) {j : Nat} {q : Change}
    (hj : T[j]? = some (.queued q)) : q.arrival < ix.ticket := by
  obtain ⟨i, -, hi⟩ := h.known j q hj
  exact h.below i _ _ _ hi

theorem Arrivals.arrive (h : Arrivals ix T) (kind : WatchKind) (path : String) :
    Arrivals { ix with ticket := ix.ticket + 1, latest := ix.latest.insert path ix.ticket }
      (T ++ [.arrived ix.ticket kind path]) := by
  refine ⟨?_, ?_, ?_, ?_⟩
  · intro i n kind' path' hi
    rcases getElem?_concat_cases hi with ⟨-, hi⟩ | ⟨-, he⟩
    · exact Nat.lt_succ_of_lt (h.below i n kind' path' hi)
    · cases he
      exact Nat.lt_succ_self _
  · -- The new number is the ticket, and all numbers before were smaller than that.
    intro i j m n k l p r hij hi hj
    rcases getElem?_concat_cases hj with ⟨hlt, hj⟩ | ⟨rfl, he⟩
    · rcases getElem?_concat_cases hi with ⟨-, hi⟩ | ⟨rfl, -⟩
      · exact h.rising i j m n k l p r hij hi hj
      · omega
    · cases he
      rcases getElem?_concat_cases hi with ⟨-, hi⟩ | ⟨rfl, -⟩
      · exact h.below i m k p hi
      · omega
  · intro j q hj
    rcases getElem?_concat_cases hj with ⟨-, hj⟩ | ⟨-, he⟩
    · obtain ⟨i, hij, hi⟩ := h.known j q hj
      exact ⟨i, hij, getElem?_concat_of_some hi _⟩
    · cases he
  · intro path' n hn j q hj hq
    rcases getElem?_concat_cases hj with ⟨-, hj⟩ | ⟨-, he⟩
    · rw [OrderedMap.get?_insert] at hn
      split at hn
      · cases hn
        exact h.queued_below hj
      · exact h.latest path' n hn j q hj hq
    · cases he

/-- A change arrives under a number that is greater than all before. -/
theorem InOrder.arrive {stage : Option Stage} (h : InOrder ix stage T) (kind : WatchKind)
    (path : String) :
    InOrder { ix with ticket := ix.ticket + 1, latest := ix.latest.insert path ix.ticket } stage
      (T ++ [.arrived ix.ticket kind path]) := by
  refine ⟨h.live, h.busy, h.arrivals.arrive kind path,
    h.waits.concat (fun _ => nofun) fun _ => nofun, handed_concat h.handed fun _ => nofun, ?_⟩
  intro g hg
  obtain ⟨b, hb⟩ := h.applying g hg
  exact ⟨b, hb.concat nofun (fun _ => nofun) fun _ => nofun⟩

theorem Arrivals.enqueue (h : Arrivals ix T) {c : Change}
    (harrived : ∃ i : Nat, T[i]? = some (.arrived c.arrival c.kind c.path)) :
    Arrivals { ix with latest := ix.latest.erase c.path, queue := ix.queue.insert c.path c }
      (T ++ [.queued c]) := by
  refine ⟨?_, ?_, ?_, ?_⟩
  · intro i n kind path hi
    rcases getElem?_concat_cases hi with ⟨-, hi⟩ | ⟨-, he⟩
    · exact h.below i n kind path hi
    · cases he
  · intro i j m n k l p r hij hi hj
    rcases getElem?_concat_cases hi with ⟨-, hi⟩ | ⟨-, he⟩
    · rcases getElem?_concat_cases hj with ⟨-, hj⟩ | ⟨-, he⟩
      · exact h.rising i j m n k l p r hij hi hj
      · cases he
    · cases he
  · intro j q hj
    rcases getElem?_concat_cases hj with ⟨-, hj⟩ | ⟨rfl, he⟩
    · obtain ⟨i, hij, hi⟩ := h.known j q hj
      exact ⟨i, hij, getElem?_concat_of_some hi _⟩
    · cases he
      obtain ⟨i, hi⟩ := harrived
      exact ⟨i, lt_of_getElem? hi, getElem?_concat_of_some hi _⟩
  · -- Of the path that was queued nothing is looked up any more.
    intro path n hn j q hj hq
    rw [OrderedMap.get?_erase] at hn
    split at hn
    · cases hn
    · next hne =>
      rcases getElem?_concat_cases hj with ⟨-, hj⟩ | ⟨-, he⟩
      · exact h.latest path n hn j q hj hq
      · cases he
        exact absurd hq hne

/-- The latest arrival of a path is newer than all of that path that was queued. -/
theorem Arrivals.newer (h : Arrivals ix T) {c : Change}
    (hlatest : ix.latest.get? c.path = some c.arrival) {b : Nat} {x : Change}
    (hx : QueuedBefore T b x) (hpath : x.path = c.path) : x.arrival < c.arrival := by
  obtain ⟨i, q, -, hi, hqpath, hqarrival, -⟩ := hx
  rw [← hqarrival]
  exact h.latest c.path c.arrival hlatest i q hi (hqpath.trans hpath)

theorem Waits.enqueue {queue : OrderedMap String Change} (h : Waits queue T) {c : Change}
    (hhanded : ∀ (i : Nat) calls x, T[i]? = some (.handed calls) → x ∈ calls → x.path = c.path →
      x.arrival < c.arrival) :
    Waits (queue.insert c.path c) (T ++ [.queued c]) := by
  intro path d hd
  rw [OrderedMap.get?_insert] at hd
  split at hd
  · next hpath =>
    cases hd
    refine ⟨hpath, ⟨T.length, c, ?_, List.getElem?_concat_length .., rfl, rfl, rfl⟩, ?_⟩
    · rw [List.length_append]
      exact Nat.lt_succ_self _
    · intro i calls x _ hcalls hx hxpath
      rcases getElem?_concat_cases hcalls with ⟨-, hcalls⟩ | ⟨-, he⟩
      · exact .inl (hhanded i calls x hcalls hx hxpath)
      · cases he
  · next hne =>
    obtain ⟨hpath, hbefore, hfollow⟩ := h path d hd
    refine ⟨hpath, hbefore.concat _, hfollow.concat (fun _ he => by cases he) ?_⟩
    rintro q he
    cases he
    rw [hpath]
    exact hne

theorem Applying.enqueue {queue : OrderedMap String Change} (h : Applying queue T g b) {c : Change}
    (hnewer : ∀ x ∈ g.all, x.path = c.path → x.arrival < c.arrival) :
    Applying (queue.insert c.path c) (T ++ [.queued c]) g b := by
  -- First the queue grows, then the trace.
  have hkept : Applying (queue.insert c.path c) T g b := by
    refine { h with newer := ?_, since := ?_ }
    · intro x hx d hd
      rw [OrderedMap.get?_insert] at hd
      split at hd
      · next hpath =>
        cases hd
        exact hnewer x (List.mem_append_left _ (List.mem_append_left _ hx)) hpath.symm
      · exact h.newer x hx d hd
    · intro i q hbi hi
      rw [OrderedMap.contains_insert, h.since i q hbi hi, Bool.or_true]
  refine hkept.concat (fun he => by cases he) (fun _ he => by cases he) ?_
  rintro q he
  cases he
  rw [OrderedMap.contains_insert, decide_eq_true rfl, Bool.true_or]

/-- A change is queued in place of those of its path that were queued before. -/
theorem InOrder.enqueue {stage : Option Stage} (h : InOrder ix stage T) {c : Change}
    (hlatest : ix.latest.get? c.path = some c.arrival)
    (harrived : ∃ i : Nat, T[i]? = some (.arrived c.arrival c.kind c.path)) :
    InOrder { ix with latest := ix.latest.erase c.path, queue := ix.queue.insert c.path c } stage
      (T ++ [.queued c]) := by
  refine ⟨h.live, h.busy, h.arrivals.enqueue harrived, h.waits.enqueue ?_,
    handed_concat h.handed fun _ => nofun, ?_⟩
  · -- All that was handed over was queued before, so it arrived before this change.
    intro i calls x hcalls hx hpath
    obtain ⟨-, b, -, hright⟩ := h.handed i calls hcalls
    exact h.arrivals.newer hlatest (hright x hx).2.1 hpath
  · intro g hg
    obtain ⟨b, hb⟩ := h.applying g hg
    exact ⟨b, hb.enqueue fun x hx hpath => h.arrivals.newer hlatest (hb.queued x hx) hpath⟩

theorem InOrder.take (h : InOrder ix none T) {waiting : List Change}
    (hall : waiting.Perm ix.queue.values) :
    InOrder { ix with processing := true, queue := .empty } (some ⟨waiting, [], []⟩)
      (T ++ [.begun]) := by
  have hwaits : ∀ c ∈ waiting, QueuedBefore T T.length c ∧ MayFollow T T.length c := by
    intro c hc
    obtain ⟨path, hpath⟩ := OrderedMap.mem_values_iff.mp (hall.mem_iff.mp hc)
    exact (h.waits path c hpath).2
  have hmem : ∀ c ∈ Stage.all ⟨waiting, [], []⟩, c ∈ waiting := by
    intro c hc
    simpa only [Stage.all, List.append_nil] using hc
  -- The batch begins with the last event, so there is nothing after it to speak of.
  have hafter : ∀ i x, T.length < i → (T ++ [.begun])[i]? ≠ some x := by
    intro i x hi hx
    have hlt := lt_of_getElem? hx
    rw [List.length_append, List.length_singleton] at hlt
    omega
  refine ⟨h.live, rfl, ?_, ?_, handed_concat h.handed fun _ => nofun, ?_⟩
  · have harrivals := h.arrivals.concat (e := .begun) (fun _ _ _ => nofun) fun _ => nofun
    exact ⟨harrivals.below, harrivals.rising, harrivals.known, harrivals.latest⟩
  · intro path c hc
    cases hc
  · intro g hg
    cases hg
    refine ⟨T.length, ⟨?_, List.getElem?_concat_length .., ?_⟩, ?_, ?_, ?_, ?_, ?_, ?_, ?_, ?_⟩
    · rw [List.length_append]
      exact Nat.lt_succ_self _
    · intro k hk _
      exact hafter k _ hk
    · rw [Stage.all, List.append_nil, List.append_nil, (hall.map Change.path).nodup_iff]
      exact OrderedMap.nodup_map_values fun path c hc => (h.waits path c hc).1
    · intro c hc
      exact (hwaits c (hmem c hc)).2.of_same (concat_same T _)
    · intro c hc
      exact (hwaits c (hmem c hc)).1.concat _
    · intro c _ k calls x hk _ hcalls
      exact absurd hcalls (hafter k _ hk)
    · intro c _ i calls x hi hcalls
      exact absurd hcalls (hafter i _ hi)
    · intro c _ i calls hi hcalls
      exact absurd hcalls (hafter i _ hi)
    · intro c _ d hd
      cases hd
    · intro i q hi hq
      exact absurd hq (hafter i _ hi)

theorem path_ne_of_apart {l r : List Change} (h : ((l ++ r).map Change.path).Nodup) {c d : Change}
    (hc : c ∈ l) (hd : d ∈ r) : c.path ≠ d.path := by
  rw [List.map_append] at h
  exact (List.nodup_append.mp h).2.2 _ (List.mem_map_of_mem hc) _ (List.mem_map_of_mem hd)

/-- What is handed over has not been handed over since the batch began, and is apart from what the
batch still has. -/
theorem Applying.hand {queue : OrderedMap String Change} (h : Applying queue T g b)
    {calls rest : List Change} (hcalls : ∀ c ∈ calls, c ∈ g.waiting)
    (hrest : ∀ c ∈ rest, c ∈ g.waiting)
    (hapart : ((calls ++ (rest ++ g.failed)).map Change.path).Nodup) :
    Applying queue (T ++ [.handed calls]) ⟨rest, calls, g.failed⟩ b := by
  have hbegins := h.begins.1
  -- One path never stands in two parts of a batch.
  have hne : ∀ x ∈ calls, ∀ c ∈ rest ++ g.failed, x.path ≠ c.path := fun x hx c hc =>
    path_ne_of_apart hapart hx hc
  have hmem : ∀ c ∈ Stage.all ⟨rest, calls, g.failed⟩, c ∈ g.all := by
    intro c hc
    simp only [Stage.all, List.mem_append] at hc ⊢
    rcases hc with (hc | hc) | hc
    · exact .inl (.inl (hrest c hc))
    · exact .inl (.inl (hcalls c hc))
    · exact .inr hc
  refine ⟨h.begins.concat nofun, ?_, ?_, ?_, ?_, ?_, ?_, ?_, ?_⟩
  · have hperm : (Stage.all ⟨rest, calls, g.failed⟩).Perm (calls ++ (rest ++ g.failed)) := by
      rw [Stage.all, ← List.append_assoc]
      exact List.perm_append_comm.append_right _
    exact (hperm.map Change.path).nodup_iff.mpr hapart
  · intro c hc
    exact (h.follow c (hmem c hc)).of_same fun i hi => concat_same T _ i (by omega)
  · intro c hc
    exact (h.queued c (hmem c hc)).concat _
  · intro c hc k cs x hbk _ hk hx
    rcases getElem?_concat_cases hk with ⟨hlt, hk⟩ | ⟨-, he⟩
    · exact h.unhanded c (hrest c hc) k cs x hbk hlt hk hx
    · cases he
      exact hne x hx c (List.mem_append_left _ hc)
  · intro c hc i cs x hbi hi hx hpath
    rcases getElem?_concat_cases hi with ⟨hlt, hi⟩ | ⟨-, he⟩
    · rcases List.mem_append.mp hc with hc | hc
      · exact absurd hpath (h.unhanded c (hcalls c hc) i cs x hbi hlt hi hx)
      · exact h.once c (List.mem_append_right _ hc) i cs x hbi hi hx hpath
    · cases he
      rcases List.mem_append.mp hc with hc | hc
      · rw [List.map_append] at hapart
        exact List.inj_on_of_nodup_map (List.nodup_append.mp hapart).1 hx hc hpath
      · exact absurd hpath (hne x hx c (List.mem_append_right _ hc))
  · intro c hc i cs hbi hi hcs
    rcases getElem?_concat_cases hi with ⟨-, hi⟩ | ⟨-, he⟩
    · exact (h.returned c hc i cs hbi hi hcs).concat _
    · cases he
      exact absurd rfl (hne c hcs c (List.mem_append_right _ hc))
  · intro c hc
    exact h.newer c (hrest c hc)
  · intro i q hbi hi
    rcases getElem?_concat_cases hi with ⟨-, hi⟩ | ⟨-, he⟩
    · exact h.since i q hbi hi
    · cases he

theorem InOrder.hand (h : InOrder ix (some g) T) (hidle : g.current = []) (calls rest : List Change)
    (hsplit : g.waiting.Perm (calls ++ rest)) :
    InOrder ix (some ⟨rest, calls, g.failed⟩) (T ++ [.handed calls]) := by
  obtain ⟨b, hb⟩ := h.applying g rfl
  have hcalls : ∀ c ∈ calls, c ∈ g.waiting := fun c hc =>
    hsplit.mem_iff.mpr (List.mem_append_left _ hc)
  have hrest : ∀ c ∈ rest, c ∈ g.waiting := fun c hc =>
    hsplit.mem_iff.mpr (List.mem_append_right _ hc)
  have hapart : ((calls ++ (rest ++ g.failed)).map Change.path).Nodup := by
    have hall : g.all.Perm (calls ++ (rest ++ g.failed)) := by
      rw [Stage.all, hidle, List.append_nil, ← List.append_assoc]
      exact hsplit.append_right _
    exact (hall.map Change.path).nodup_iff.mp hb.apart
  refine ⟨h.live, h.busy, h.arrivals.concat (fun _ _ _ => nofun) fun _ => nofun,
    h.waits.concat ?_ fun _ => nofun, handed_concat h.handed ?_, ?_⟩
  · -- What was queued in the meantime is newer than what is handed over now.
    rintro cs he x hx d hd
    cases he
    exact hb.newer x (hcalls x hx) d hd
  · rintro cs he
    cases he
    refine ⟨?_, b, hb.begins, fun c hc => ⟨?_, ?_, hb.unhanded c (hcalls c hc)⟩⟩
    · rw [List.map_append] at hapart
      exact (List.nodup_append.mp hapart).1
    · exact hb.follow c (List.mem_append_left _ (List.mem_append_left _ (hcalls c hc)))
    · exact hb.queued c (List.mem_append_left _ (List.mem_append_left _ (hcalls c hc)))
  · intro g' hg'
    cases hg'
    exact ⟨b, hb.hand hcalls hrest hapart⟩

theorem InOrder.applied (h : InOrder ix (some g) T) :
    InOrder ix (some ⟨g.waiting, [], g.failed⟩) (T ++ [.applied g.current]) := by
  obtain ⟨b, hb⟩ := h.applying g rfl
  have hmem : ∀ c ∈ Stage.all ⟨g.waiting, [], g.failed⟩, c ∈ g.all := by
    intro c hc
    simp only [Stage.all, List.append_nil, List.mem_append] at hc ⊢
    rcases hc with hc | hc
    · exact .inl (.inl hc)
    · exact .inr hc
  refine ⟨h.live, h.busy, h.arrivals.concat (fun _ _ _ => nofun) fun _ => nofun,
    h.waits.concat (fun _ => nofun) fun _ => nofun, handed_concat h.handed fun _ => nofun, ?_⟩
  intro g' hg'
  cases hg'
  have hnext := hb.concat (e := .applied g.current) nofun (fun _ => nofun) fun _ => nofun
  refine ⟨b, { hnext with apart := ?_, follow := ?_, queued := ?_, once := ?_ }⟩
  · refine List.Nodup.sublist (List.Sublist.map _ ?_) hb.apart
    rw [Stage.all, Stage.all, List.append_nil]
    exact (List.sublist_append_left ..).append_right _
  · exact fun c hc => hnext.follow c (hmem c hc)
  · exact fun c hc => hnext.queued c (hmem c hc)
  · exact fun c hc => hnext.once c (List.mem_append_right _ hc)

theorem InOrder.fail (h : InOrder ix (some g) T) :
    InOrder ix (some ⟨g.waiting, [], g.failed ++ g.current⟩) (T ++ [.failed g.current]) := by
  obtain ⟨b, hb⟩ := h.applying g rfl
  have hperm : (Stage.all ⟨g.waiting, [], g.failed ++ g.current⟩).Perm g.all := by
    rw [Stage.all, Stage.all, List.append_nil, List.append_assoc]
    exact List.perm_append_comm.append_left _
  refine ⟨h.live, h.busy, h.arrivals.concat (fun _ _ _ => nofun) fun _ => nofun,
    h.waits.concat (fun _ => nofun) fun _ => nofun, handed_concat h.handed fun _ => nofun, ?_⟩
  intro g' hg'
  cases hg'
  have hnext := hb.concat (e := .failed g.current) nofun (fun _ => nofun) fun _ => nofun
  refine ⟨b, { hnext with apart := ?_, follow := ?_, queued := ?_, once := ?_, returned := ?_ }⟩
  · exact (hperm.map Change.path).nodup_iff.mpr hb.apart
  · exact fun c hc => hnext.follow c (hperm.mem_iff.mp hc)
  · exact fun c hc => hnext.queued c (hperm.mem_iff.mp hc)
  · intro c hc
    apply hnext.once c
    rw [List.nil_append] at hc
    exact (List.perm_append_comm.mem_iff).mp hc
  · intro c hc i calls hbi hi hmem
    rcases List.mem_append.mp hc with hc | hc
    · exact hnext.returned c hc i calls hbi hi hmem
    · -- What is under way has just failed, after it was handed over.
      rcases getElem?_concat_cases hi with ⟨hlt, -⟩ | ⟨-, he⟩
      · refine ⟨T.length, g.current, hlt, ?_, List.getElem?_concat_length .., hc⟩
        rw [List.length_append]
        exact Nat.lt_succ_self _
      · cases he

/-- A change that failed may be handed over again if nothing of its path is queued. -/
theorem Applying.follow_failed {queue : OrderedMap String Change} (h : Applying queue T g b)
    {c : Change} (hc : c ∈ g.failed) (habsent : ¬queue.contains c.path = true) :
    MayFollow T T.length c := by
  -- Nothing of the path was queued since the batch began, or it would be there still.
  have hsince : ∀ k q, b < k → T[k]? = some (.queued q) → q.path ≠ c.path := by
    intro k q hbk hq hpath
    apply habsent
    rw [← hpath]
    exact h.since k q hbk hq
  intro i calls x hi hcalls hx hpath
  -- It was handed over before the batch, where it was right already, or by the batch itself.
  rcases Nat.lt_trichotomy i b with hlt | rfl | hgt
  · rcases h.follow c (List.mem_append_right _ hc) i calls x hlt hcalls hx hpath with
      hless | ⟨heq, ⟨k, fs, hik, hkb, hfs, hxfs⟩, hquiet⟩
    · exact .inl hless
    · refine .inr ⟨heq, ⟨k, fs, hik, lt_of_getElem? hfs, hfs, hxfs⟩, ?_⟩
      intro k q hik _ hq
      rcases Nat.lt_trichotomy k b with hlt | rfl | hgt
      · exact hquiet k q hik hlt hq
      · rw [h.begins.2.1] at hq
        cases hq
      · exact hsince k q hgt hq
  · rw [h.begins.2.1] at hcalls
    cases hcalls
  · have hsame : x = c := h.once c (List.mem_append_right _ hc) i calls x hgt hcalls hx hpath
    rw [hsame] at hx ⊢
    refine .inr ⟨rfl, h.returned c hc i calls hgt hcalls hx, ?_⟩
    intro k q hik _ hq
    exact hsince k q (by omega) hq

theorem Applying.drop {queue : OrderedMap String Change} {c : Change} {rest : List Change}
    (h : Applying queue T ⟨[], [], c :: rest⟩ b) : Applying queue T ⟨[], [], rest⟩ b := by
  refine { h with apart := ?_, follow := ?_, queued := ?_, once := ?_, returned := ?_ }
  · exact List.Nodup.sublist (List.Sublist.map _ (List.sublist_cons_self ..)) h.apart
  · exact fun d hd => h.follow d (List.mem_cons_of_mem c hd)
  · exact fun d hd => h.queued d (List.mem_cons_of_mem c hd)
  · exact fun d hd => h.once d (List.mem_cons_of_mem c hd)
  · exact fun d hd => h.returned d (List.mem_cons_of_mem c hd)

/-- A failed change goes back into the queue, unless a newer one is there or it is given up. -/
theorem InOrder.retry {c : Change} {rest : List Change}
    (h : InOrder ix (some ⟨[], [], c :: rest⟩) T) :
    InOrder (ix.retry c).1 (some ⟨[], [], rest⟩) T := by
  obtain ⟨b, hb⟩ := h.applying _ rfl
  have hgone : InOrder ix (some ⟨[], [], rest⟩) T := by
    refine { h with applying := ?_ }
    intro g' hg'
    cases hg'
    exact ⟨b, hb.drop⟩
  unfold Intake.retry
  split
  · -- A newer change of the path is queued already.
    exact hgone
  · next habsent =>
    split
    · -- It has been tried often enough.
      exact hgone.rest (Nat.le_refl _) (fun _ _ hn => hn) rfl rfl rfl
    · refine ⟨h.live, h.busy, ⟨h.arrivals.below, h.arrivals.rising, h.arrivals.known,
        h.arrivals.latest⟩, ?_, h.handed, ?_⟩
      · intro path d hd
        rw [OrderedMap.get?_insert] at hd
        split at hd
        · next hpath =>
          cases hd
          have hfollow : MayFollow T T.length c := hb.follow_failed List.mem_cons_self habsent
          exact ⟨hpath, hb.queued c List.mem_cons_self, hfollow⟩
        · exact h.waits path d hd
      · intro g' hg'
        cases hg'
        refine ⟨b, { hb.drop with newer := ?_, since := ?_ }⟩
        · intro d hd
          cases hd
        · intro i q hbi hi
          rw [OrderedMap.contains_insert, hb.since i q hbi hi, Bool.or_true]

theorem InOrder.retryAll {failed : List Change} (h : InOrder ix (some ⟨[], [], failed⟩) T) :
    InOrder (ix.retryAll failed).1 (some ⟨[], [], []⟩) T := by
  induction failed generalizing ix with
  | nil => exact h
  | cons c rest ih => exact ih h.retry

theorem InOrder.close (h : InOrder ix (some g) T) :
    InOrder { ix with processing := false } none T := by
  refine ⟨h.live, rfl, ⟨h.arrivals.below, h.arrivals.rising, h.arrivals.known, h.arrivals.latest⟩,
    h.waits, h.handed, ?_⟩
  intro g' hg'
  cases hg'

end Moves

end LiveIndex.Intake
