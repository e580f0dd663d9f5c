import VersionControl.Branch.Basic
import VersionControl.EventBus.Components

/-!
# Sessions

A store with the bus that hears of its branches. What an operation publishes is emitted on the bus, in order,
once the operation has ended, whether it succeeded or not; without a bus nothing is published.
-/

namespace VersionControl

structure Session (σ : Type) where
  store : σ
  bus : Option WatchedBus := none

namespace Session

variable {σ α : Type}

def perform (operation : Branch.Operation σ α) (session : Session σ) :
    Except Error α × List BranchEvent × Session σ :=
  let (answer, repo) := operation { store := session.store }
  match session.bus with
  | none => (answer, [], { session with store := repo.store })
  | some bus =>
    let bus := repo.published.foldl (fun bus event => (bus.emit event).2) bus
    (answer, repo.published, { store := repo.store, bus := some bus })

end Session

end VersionControl
