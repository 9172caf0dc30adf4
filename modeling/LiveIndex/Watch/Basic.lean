import LiveIndex.Intake.Basic
import LiveIndex.Settings
import LiveIndex.Watch.Sighting

/-! From sightings to events. Each path has a timer of its own, which starts anew with each
change, and only the latest event of a path is told. -/

namespace LiveIndex

namespace Watch

/-- A change of one path, after things have been quiet there. The time is in milliseconds. -/
structure Event where
  kind : WatchKind
  path : String
  relativePath : String
  isDirectory : Bool
  extension : String
  time : Int
  deriving DecidableEq, Repr

/-- What handlers can be registered for: one kind of change, any change, or a signal. -/
inductive Topic
  | kind (k : WatchKind)
  | event
  | ready
  | error
  | warning
  | stopped
  deriving DecidableEq, Repr

namespace Topic

def word : Topic → String
  | kind k => k.word
  | event => "event"
  | ready => "ready"
  | error => "error"
  | warning => "warning"
  | stopped => "stopped"

def ofWord? : String → Option Topic
  | "add" => some (kind .add)
  | "change" => some (kind .change)
  | "remove" => some (kind .remove)
  | "add-directory" => some (kind .addDirectory)
  | "remove-directory" => some (kind .removeDirectory)
  | "event" => some event
  | "ready" => some ready
  | "error" => some error
  | "warning" => some warning
  | "stopped" => some stopped
  | _ => none

end Topic

/-- What a handler is given. -/
inductive Payload
  | event (e : Event)
  | failure (f : Failure)
  | message (text : String)
  | nothing
  deriving DecidableEq, Repr

/-- How a recorder works: at once, or after a delay in milliseconds. -/
inductive Style
  | prompt
  | delayed (delay : Int)
  deriving DecidableEq, Repr

/-- Who is told of events: one that notes them under a label, and may fail after that, or an
intake. -/
inductive Handler
  | recorder (label : String) (style : Style) (fails : Bool)
  | intake (id : Nat)
  deriving DecidableEq, Repr

/-- What a recorder fails with. -/
def recorderFailure : Failure :=
  .crash "boom"

/-- What runs beside a watch: a handler that takes its time, or the expansion of a new
directory. -/
inductive Job
  | handle (handler : Handler) (payload : Payload)
  | expand (path : String)
  deriving DecidableEq, Repr

/-- What a watch has done elsewhere. Timers and jobs go by tickets. -/
inductive Effect
  | log (level : Level) (text : String)
  | note (label : String) (payload : Payload)
  | arm (ticket : Nat) (path : String) (delay : Int)
  | disarm (ticket : Nat)
  | start (ticket : Nat) (job : Job)
  | watch (path : String)
  | unwatch (path : String)

end Watch

/-- A watch of a content root. Each pending event waits for its timer; known directories tell
what a path was that is gone. -/
structure Watch where
  root : String
  filter : Filter
  debounce : Int
  ignoreInitial : Bool
  handlers : OrderedMap String (List Watch.Handler)
  pending : OrderedMap String (Watch.Event × Nat)
  knownDirs : List String
  extraPaths : List String
  jobs : List Nat
  running : Bool
  ready : Bool
  ticket : Nat

namespace Watch

/-- A new watch. The directory of the stored index is always left out. -/
def create (root : String) (filter : Filter) (debounce : Int) (ignoreInitial : Bool) :
    Watch where
  root
  filter := { filter with excluded := cacheDir :: filter.excluded }
  debounce
  ignoreInitial
  handlers := .empty
  pending := .empty
  knownDirs := []
  extraPaths := []
  jobs := []
  running := false
  ready := false
  ticket := 0

def handlersOf (w : Watch) (t : Topic) : List Handler :=
  (w.handlers.get? t.word).getD []

/-- Registers a handler, once. -/
def on (w : Watch) (t : Topic) (h : Handler) : Watch :=
  let hs := w.handlersOf t
  { w with handlers := w.handlers.insert t.word (if h ∈ hs then hs else hs ++ [h]) }

def off (w : Watch) (t : Topic) (h : Handler) : Watch :=
  { w with handlers := w.handlers.insert t.word ((w.handlersOf t).erase h) }

def startJob (w : Watch) (job : Job) : Watch × List Effect :=
  ({ w with jobs := w.jobs ++ [w.ticket], ticket := w.ticket + 1 }, [.start w.ticket job])

/-- Tells one handler. One that works at once may fail, which is said in a warning. -/
def tell (w : Watch) (t : Topic) (p : Payload) (h : Handler) : Watch × List Effect :=
  match h with
  | .recorder label .prompt fails =>
    (w, .note label p ::
      if fails then
        [ .log .warning ("Error in watcher " ++ t.word ++ " handler: " ++
            recorderFailure.message) ]
      else [])
  | h => w.startJob (.handle h p)

def tellAll (w : Watch) (t : Topic) (p : Payload) : List Handler → Watch × List Effect
  | [] => (w, [])
  | h :: rest =>
    let (w, effects) := w.tell t p h
    let (w, more) := w.tellAll t p rest
    (w, effects ++ more)

/-- Tells all handlers of a topic. -/
def emit (w : Watch) (t : Topic) (p : Payload) : Watch × List Effect :=
  w.tellAll t p (w.handlersOf t)

def jobOver (w : Watch) (ticket : Nat) (result : Except Failure Unit) : Watch × List Effect :=
  ({ w with jobs := w.jobs.erase ticket },
    match result with
    | .ok () => []
    | .error f => [.log .warning ("Error in watcher task: " ++ f.message)])

def eventOf (w : Watch) (now : Int) (kind : WatchKind) (path : String) (isDirectory : Bool) :
    Except Failure Event :=
  (relativeTo path w.root).map fun relativePath =>
    { kind, path, relativePath, isDirectory
      extension := if isDirectory then "" else Path.extension path
      time := now }

/-- Queues an event in place of an earlier one of its path, and starts its quiet time anew. -/
def queue (w : Watch) (e : Event) : Watch × List Effect :=
  let disarmed := (w.pending.get? e.path).toList.map fun old => Effect.disarm old.2
  ({ w with pending := w.pending.moveToEnd e.path (e, w.ticket), ticket := w.ticket + 1 },
    disarmed ++ [.arm w.ticket e.path w.debounce])

/-- The quiet time of a path is over: its event is told, if the watch still runs. -/
def fire (w : Watch) (path : String) : Watch × List Effect :=
  match w.pending.get? path with
  | none => (w, [])
  | some (e, _) =>
    let w := { w with pending := w.pending.erase path }
    -- Nothing is told after the end, not even what was due.
    if !w.running then (w, [])
    else
      let (w, effects) := w.emit (.kind e.kind) (.event e)
      let (w, more) := w.emit .event (.event e)
      (w, effects ++ more)

/-- Stops, and forgets all pending events. -/
def halt (w : Watch) : Watch × List Effect :=
  ({ w with running := false, ready := false, pending := .empty },
    w.pending.values.map fun v => .disarm v.2)

def fatal (w : Watch) (f : Failure) : Watch × List Effect :=
  let wasRunning := w.running
  let (w, effects) := w.halt
  let (w, told) := w.emit .error (.failure f)
  let (w, stopped) := if wasRunning then w.emit .stopped .nothing else (w, [])
  (w,
    .log .error ("File watcher failed for " ++ w.root ++ ": " ++ f.message) ::
      (effects ++ told ++ stopped))

def watchedPaths (w : Watch) : List String :=
  w.root :: w.extraPaths

def addPath (w : Watch) (path : String) : Watch × List Effect :=
  if path ∈ w.extraPaths then (w, [])
  else
    ({ w with extraPaths := w.extraPaths ++ [path] }, if w.running then [.watch path] else [])

/-- Stops watching a path that was added, and forgets the pending events at and below it. -/
def unwatchPath (w : Watch) (path : String) : Watch × List Effect :=
  if path ∉ w.extraPaths then (w, [])
  else
    let touched (p : String) : Bool := p = path || Path.isBeneath path p
    ({ w with
        extraPaths := w.extraPaths.erase path
        pending := w.pending.filter fun p _ => !touched p },
      (if w.running then [Effect.unwatch path] else []) ++
        (w.pending.filter fun p _ => touched p).values.map fun v => .disarm v.2)

def addKnown (known : List String) (path : String) : List String :=
  if path ∈ known then known else known ++ [path]

/-- The event of a path that is gone. -/
def interpretGone (w : Watch) (now : Int) (path : String) :
    Watch × Except Failure (Option Event) :=
  -- The path is gone, so only memory tells whether it was a directory.
  if path ∈ w.knownDirs then
    ({ w with knownDirs := w.knownDirs.filter fun d => d ≠ path && !Path.isBeneath path d },
      (w.eventOf now .removeDirectory path true).map some)
  else if w.filter.wantsExtension path then
    (w, (w.eventOf now .remove path false).map some)
  else (w, .ok none)

/-- The event of a path that is there. Changes of directories are of no interest. -/
def interpretPresent (w : Watch) (d : Disk) (now : Int) (added : Bool) (path : String) :
    Watch × Except Failure (Option Event) :=
  if d.isDir path && !d.isLink path then
    if added then
      ({ w with knownDirs := addKnown w.knownDirs path },
        (w.eventOf now .addDirectory path true).map some)
    else (w, .ok none)
  else if w.filter.wantsExtension path then
    (w, (w.eventOf now (if added then .add else .change) path false).map some)
  else (w, .ok none)

/-- Turns a sighting into an event, or into none if it is left out. -/
def interpret (w : Watch) (d : Disk) (now : Int) (kind : SightingKind) (path : String) :
    Watch × Except Failure (Option Event) :=
  match relativeTo path w.root with
  | .error f => (w, .error f)
  | .ok relativePath =>
    if w.filter.excludes relativePath then (w, .ok none)
    else
      match kind with
      | .deleted => w.interpretGone now path
      | .added => w.interpretPresent d now true path
      | .modified => w.interpretPresent d now false path
      | .other word => (w, .error (.unknownChange (Text.quoted word)))

/-- Takes in one sighting. What a new directory holds is looked for. -/
def takeChange (w : Watch) (d : Disk) (now : Int) (c : Sighting) : Watch × List Effect :=
  match w.interpret d now c.kind c.path with
  | (w, .error f) =>
    let (w, told) := w.emit .error (.failure f)
    (w,
      .log .warning ("Cannot classify " ++ c.kind.word ++ " " ++ c.path ++ ": " ++ f.message) ::
        told)
  | (w, .ok none) => (w, [])
  | (w, .ok (some e)) =>
    let (w, effects) := w.queue e
    if e.kind = .addDirectory then
      let (w, more) := w.startJob (.expand e.path)
      (w, effects ++ more)
    else (w, effects)

def takeEach (w : Watch) (d : Disk) (now : Int) : List Sighting → Watch × List Effect
  | [] => (w, [])
  | c :: rest =>
    let (w, effects) := w.takeChange d now c
    let (w, more) := w.takeEach d now rest
    (w, effects ++ more)

/-- Takes in sightings while the watch runs. -/
def takeChanges (w : Watch) (d : Disk) (now : Int) (cs : List Sighting) :
    Watch × List Effect :=
  if w.running then w.takeEach d now cs else (w, [])

/-- The event of an entry that was found by a walk. -/
def foundEvent (w : Watch) (now : Int) (e : Entry) : Except Failure Event :=
  w.eventOf now (if e.isDirectory then .addDirectory else .add) e.path e.isDirectory

/-- Queues what was found by a walk. -/
def queueFound (w : Watch) (now : Int) : List Entry → Watch × List Effect
  | [] => (w, [])
  | e :: rest =>
    let (w, effects) :=
      match w.foundEvent now e with
      | .ok event => w.queue event
      | .error _ => (w, [])
    let (w, more) := w.queueFound now rest
    (w, effects ++ more)

/-- Queues what a new directory holds. An event that is pending is not older than the walk. -/
def queueNew (w : Watch) (now : Int) : List Entry → Watch × List Effect
  | [] => (w, [])
  | e :: rest =>
    let w := if e.isDirectory then { w with knownDirs := addKnown w.knownDirs e.path } else w
    let (w, effects) :=
      if w.pending.contains e.path then (w, [])
      else
        match w.foundEvent now e with
        | .ok event => w.queue event
        | .error _ => (w, [])
    let (w, more) := w.queueNew now rest
    (w, effects ++ more)

end Watch

end LiveIndex
