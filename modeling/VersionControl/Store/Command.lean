import VersionControl.Store.Basic

/-!
# Store commands

The calls of a store as data, what each answers, and what a run of them leaves of a store.
-/

namespace VersionControl

inductive StoreCommand
  | write (key data : String)
  | remove (key : String)
  | read (key : String)
  | has (key : String)
  | list (start : String)
  deriving DecidableEq, Repr

inductive StoreAnswer
  | done (outcome : Except Error Unit)
  | content (outcome : Except Error String)
  | stored (answer : Bool)
  | keys (outcome : Except Error (List String))

namespace StoreCommand

variable {σ : Type} [ObjectStore σ]

/-- The key that a command names, or the start of the keys that it lists. -/
def key : StoreCommand → String
  | write key _ => key
  | remove key => key
  | read key => key
  | has key => key
  | list start => start

/-- The key of the object that a command is about; a listing is about none. -/
def object? : StoreCommand → Option String
  | write key _ => some key
  | remove key => some key
  | read key => some key
  | has key => some key
  | list _ => none

def perform : StoreCommand → σ → StoreAnswer × σ
  | write key data, store =>
    let (outcome, after) := ObjectStore.write key data store
    (.done outcome, after)
  | remove key, store =>
    let (outcome, after) := ObjectStore.remove key store
    (.done outcome, after)
  | read key, store => (.content (ObjectStore.read store key), store)
  | has key, store => (.stored (ObjectStore.has store key), store)
  | list start, store => (.keys (ObjectStore.keys store start), store)

/-- The store after the commands; one that fails leaves behind what it changed until then. -/
def run (commands : List StoreCommand) (store : σ) : σ :=
  commands.foldl (fun store command => (command.perform store).2) store

/-- What the commands are answered when they run one after the other. -/
def answers : List StoreCommand → σ → List StoreAnswer
  | [], _ => []
  | command :: commands, store => (command.perform store).1 :: answers commands (command.perform store).2

@[simp] theorem run_cons (command : StoreCommand) (commands : List StoreCommand) (store : σ) :
    run (command :: commands) store = run commands (command.perform store).2 := rfl

end StoreCommand

end VersionControl
