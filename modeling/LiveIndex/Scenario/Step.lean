import LiveIndex.Feed
import LiveIndex.Index.Calls
import LiveIndex.Intake.Calls
import LiveIndex.Keeper.Calls
import LiveIndex.Tools
import LiveIndex.Watch.Calls

/-! Scenarios: steps that set up a disk and components, let them work, and look at them. -/

namespace LiveIndex.Scenario

/-- Something that is put on the disk. -/
structure Node where
  path : String
  tree : Tree
  mark : Mark

/-- Which operation of an index is made to fail. -/
inductive Weak
  | batch
  | remove
  | write
  deriving DecidableEq, Repr

/-- What a new watch reports from: a scripted source, which may fail to start, or a feed. -/
inductive Source
  | scripted (failure : Option String)
  | feed (options : Feed.Options)
  deriving DecidableEq, Repr

/-- One step of a scenario. Steps about an index, an intake and so on concern the current one. A
step that is not well formed fails as it says. -/
inductive Step
  | invalid (f : Failure)
  | put (nodes : List Node)
  | rm (path : String)
  | read (path : String)
  | list (path : String)
  | advance (ms : Int)
  | all (steps : List Step)
  | seq (steps : List Step)
  | background (name : String) (step : Step)
  | join (name : String)
  | fail (weak : Weak) (times : Nat) (meanwhile : List (String × String))
  | hold
  | release
  | failBackend (message : String)
  | scan (root : String) (filter : Filter) (directories : Bool)
  | inventory (root : String) (filter : Filter)
  | stat (path root : String)
  | findRoot (path : String)
  | condense (changes : List Sighting)
  | loadSnapshot (path : String)
  | storeSnapshot (path : String) (snapshot : Snapshot)
  | newIndex (options : Index.Options) (root path : Option String)
  | index (call : Index.Call)
  | add (e : Entry) (timed : Bool)
  | clear
  | search (text : String) (exact : Bool) (limit : Option Int)
  | query (text : String) (limit : Option Int)
  | get (path : String)
  | entries
  | verify
  | drift (by_ : Int)
  | listen (label : String) (fails : Bool)
  | unlisten (label : String)
  | reconcile (root : String) (filter : Filter) (sink : Sink)
  | newIntake (root : String) (options : Intake.Options)
  | intake (call : Intake.Call)
  | attach
  | detach
  | newWatch (root : String) (filter : Filter) (debounce : Int) (ignoreInitial : Bool)
      (source : Source)
  | on (topic label : String) (style : Watch.Style) (fails : Bool)
  | off (topic label : String)
  | watch (call : Watch.Call)
  | sightings (changes : List Sighting)
  | fatal (message : String)
  | addPath (path : String)
  | unwatchPath (path : String)
  | watchStatus
  | push (item : Feed.Item)
  | newFeed (options : Feed.Options)
  | startFeed (paths : List String)
  | stopFeed
  | addFeedPath (path : String)
  | unwatchFeedPath (path : String)
  | feedRunning
  | newKeeper (options : Keeper.Options)
  | sharedKeeper
  | keeper (call : Keeper.Call)
  | startWatching (label : Option String)
  | keeperSearch (text : String) (exact : Bool) (limit : Option Int)
  | keeperQuery (text : String) (limit : Option Int)
  | keeperStats
  | keeperStatus
  | tools (call : Tools.Call)

end LiveIndex.Scenario
