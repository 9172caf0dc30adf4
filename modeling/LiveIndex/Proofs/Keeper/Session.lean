import LiveIndex.Index.Calls
import LiveIndex.Keeper.Calls
import LiveIndex.Proofs.Intake.Closing
import LiveIndex.Proofs.Watch.Answers

/-! A keeper with all the watches and intakes that it has made, under any schedule. Its calls wait
for calls of a watch or of an intake and go on at any time after those have answered. What a watch
tells its intake is left open: any change may come to an intake at any time. -/

namespace LiveIndex.Keeper

/-- A watch and its intake, made together, and what calls of the watch have answered. -/
structure Part where
  watch : Watch.Session
  intake : Intake.Session
  answers : List (Nat × Except Failure (Option Bool))

namespace Part

def onWatch (p : Part) (a : Watch.Action) : Part :=
  { p with watch := p.watch.step a, answers := p.answers ++ (p.watch.answered? a).toList }

def onIntake (p : Part) (a : Intake.Action) : Part :=
  { p with intake := p.intake.step a }

/-- A new watch and its intake, which is told of events; the watch is being started. -/
def launched (l : Launch) (number : Nat) : Part :=
  let options := { Feed.Options.default with forcePolling := l.forcePolling }
  let watch := Watch.Session.fresh (Path.tidy l.root) l.filter l.watchDebounce true options
  let part : Part :=
    ⟨watch.step (.on .event (.intake number)), .fresh (Path.tidy l.root) l.intake, []⟩
  part.onWatch .start

/-- An intake that is to end is no longer told of events. -/
def ending (p : Part) (number : Nat) : Part :=
  (p.onWatch (.off .event (.intake number))).onIntake (.begin .destroy)

end Part

/-- What a call of a keeper waits for: a call of a watch or of an intake, or the end of the
index. -/
inductive Awaited
  | watch (number id : Nat)
  | intake (number id : Nat)
  | index

structure Flight where
  id : Nat
  awaited : Awaited
  waiting : Waiting

/-- What a request does to the parts of a keeper, and what answers it. A start is the first call of
its watch. -/
def asked (parts : List Part) : Request → List Part × Awaited
  | .launch settings =>
    (parts ++ [.launched settings parts.length], .watch parts.length 0)
  | .stopWatching watch =>
    (parts.modify watch (·.onWatch .stop),
      .watch watch (parts[watch]?.elim 0 fun p => p.watch.nextId))
  | .stopIntake intake =>
    (parts.modify intake (·.ending intake),
      .intake intake (parts[intake]?.elim 0 fun p => p.intake.nextId))
  | _ => (parts, .index)

/-- What is done to the index by the way. -/
def Effect.onIndex (index : Index) : Effect → Index
  | .listen l => index.listen l
  | .unlisten l => index.unlisten l
  | _ => index

/-- A keeper with its index, with what it has made, and with the calls that wait. -/
structure Session where
  keeper : Keeper
  index : Index
  parts : List Part
  calls : List Flight
  nextId : Nat
  answers : List (Nat × Except Failure Answer)

/-- What can happen next. What cannot happen at the time leaves everything as it is. An index that
is waited for ends in any way, and forgets its listeners at any time. -/
inductive Action
  | start (env : Environment) (listener : Option Listener)
  | stop (after : AfterStop)
  | watch (number : Nat) (a : Watch.Action)
  | intake (number : Nat) (a : Intake.Action)
  | dropIndex
  | goOn (id : Nat) (ended : Except Failure Unit)

namespace Session

def fresh (keeper : Keeper) (index : Index) : Session where
  keeper
  index
  parts := []
  calls := []
  nextId := 0
  answers := []

def isWatching (s : Session) : Bool :=
  match s.keeper.watch with
  | some number => s.parts[number]?.any (·.watch.watch.running)
  | none => false

/-- Does a stretch of a call's work. -/
def advance (s : Session) (id : Nat) (work : Work) : Session :=
  let t := { s with keeper := work.state, index := work.effects.foldl Effect.onIndex s.index }
  match work.turn with
  | .done result => { t with answers := s.answers ++ [(id, result)] }
  | .ask request waiting =>
    { t with
      parts := (asked s.parts request).1
      calls := s.calls ++ [⟨id, (asked s.parts request).2, waiting⟩] }

def launch (s : Session) (work : Work) : Session :=
  { s with nextId := s.nextId + 1 }.advance s.nextId work

def without (s : Session) (f : Flight) : Session :=
  { s with calls := s.calls.eraseP (·.id = f.id) }

def watchAnswer? (s : Session) (number id : Nat) : Option (Except Failure (Option Bool)) :=
  s.parts[number]?.bind fun p => (p.answers.find? (·.1 = id)).map Prod.snd

def intakeAnswer? (s : Session) (number id : Nat) : Option (Except Failure Unit) :=
  s.parts[number]?.bind fun p => (p.intake.answers.find? (·.1 = id)).map Prod.snd

/-- The work that a call goes on with, if what it waits for has answered. -/
def workOf (s : Session) (f : Flight) (ended : Except Failure Unit) : Option Work :=
  match f.awaited, f.waiting with
  | .watch number id, .launching l =>
    (s.watchAnswer? number id).map fun result =>
      s.keeper.launched l (result.map fun started => (number, number, started = some true))
  | .watch number id, .stoppingWatch after =>
    (s.watchAnswer? number id).map fun result =>
      s.keeper.watchStopped after (result.map fun _ => ())
  | .intake number id, .discarding => (s.intakeAnswer? number id).map s.keeper.discarded
  | .intake number id, .stoppingIntake after =>
    (s.intakeAnswer? number id).map (s.keeper.intakeStopped after)
  | .index, .stoppingIndex => some (s.keeper.indexStopped ended)
  | _, _ => none

def step (s : Session) : Action → Session
  | .start env l => s.launch (s.keeper.beginWatching env s.isWatching l)
  | .stop after => s.launch (s.keeper.beginStop after)
  -- Only the keeper starts and stops its watches and ends its intakes, and nobody flushes one.
  | .watch _ .start | .watch _ .stop => s
  | .intake _ (.begin .flush) | .intake _ (.begin .destroy) => s
  | .watch number a => { s with parts := s.parts.modify number (·.onWatch a) }
  | .intake number a => { s with parts := s.parts.modify number (·.onIntake a) }
  | .dropIndex => { s with index := s.index.dropState }
  | .goOn id ended =>
    match s.calls.find? (·.id = id) with
    | some f =>
      match s.workOf f ended with
      | some work => (s.without f).advance f.id work
      | none => s
    | none => s

/-- Lets things happen one after another. -/
def run (s : Session) (actions : List Action) : Session :=
  actions.foldl step s

end Session

end LiveIndex.Keeper
