import LiveIndex.Index.Basic
import LiveIndex.Intake.Basic
import LiveIndex.Settings

namespace LiveIndex

/-- One index of a content root with all that keeps it current. Indexes, intakes and watches go
by numbers. -/
structure Keeper where
  root : String
  indexPath : String
  extensions : List String
  excluded : List String
  index : Nat
  intake : Option Nat
  watch : Option Nat
  listener : Option Listener
  initialized : Bool
  lock : Lock

namespace Keeper

/-- What a keeper is made for; what is left out comes from the settings. -/
structure Options where
  root : Option String
  indexPath : Option String
  extensions : Option (List String)
  excluded : Option (List String)

def Options.none : Options :=
  ⟨.none, .none, .none, .none⟩

/-- Makes a keeper, and says how many results its index finds at most. -/
def create (env : Environment) (d : Disk) (o : Options) (index : Nat) :
    Except Failure (Keeper × Int) := do
  let root ← (o.root.map fun p => .ok (Path.tidy p)).getD (env.root d)
  let indexPath ← (o.indexPath.map fun p => .ok (Path.tidy p)).getD (env.indexPath root)
  let limit ← env.searchLimit
  return (
    { root, indexPath
      extensions := (o.extensions.map Text.sortedSet).getD env.extensions
      excluded := Text.sortedSet (cacheDir :: o.excluded.getD env.excluded)
      index
      intake := none
      watch := none
      listener := none
      initialized := false
      lock := .free },
    limit)

def filter (k : Keeper) : Filter :=
  ⟨some k.extensions, k.excluded⟩

/-- The settings of a watch and its intake. -/
structure Launch where
  root : String
  filter : Filter
  watchDebounce : Int
  forcePolling : Bool
  intake : Intake.Options

def launch (k : Keeper) (env : Environment) : Except Failure Launch := do
  let watchDebounce ← env.watchDebounce
  let debounce ← env.debounce
  let window ← env.batchWindow
  let maxRetries ← env.maxRetries
  return ⟨k.root, k.filter, watchDebounce, env.forcePolling, ⟨debounce, window, maxRetries⟩⟩

end Keeper

end LiveIndex
