/-!
# Errors

Why an operation is refused, and the wording of each cause. A cause carries what its wording needs and
nothing else.
-/

namespace VersionControl

/-- What the operating system answers to a call on a path. -/
inductive SystemFault
  | notDirectory
  | directoryNotEmpty
  | nameTooLong
  | invalidArgument
  deriving DecidableEq, Repr

def SystemFault.message : SystemFault → String
  | .notDirectory => "Not a directory"
  | .directoryNotEmpty => "Directory not empty"
  | .nameTooLong => "File name too long"
  | .invalidArgument => "Invalid argument"

inductive StoreCall
  | read
  | write
  | remove
  | list
  deriving DecidableEq, Repr

def StoreCall.name : StoreCall → String
  | .read => "read"
  | .write => "write"
  | .remove => "remove"
  | .list => "list"

inductive StorageFault
  | keyNotFound (key : String)
  | emptyKey
  | invalidKey (key : String)
  | cannotCreateDirectory (path : String)
  | cannotOpen (path : String)
  | cannotWrite (key : String)
  | cannotMove (key : String)
  | cannotRemove (key : String) (reason : SystemFault)
  | cannotList (start : String) (reason : SystemFault)
  | injected (call : StoreCall) (key : String)
  | reported (text : String)
  deriving DecidableEq, Repr

def StorageFault.message : StorageFault → String
  | .keyNotFound key => "Key not found: " ++ key
  | .emptyKey => "Empty storage key"
  | .invalidKey key => "Invalid storage key: " ++ key
  | .cannotCreateDirectory path => "Failed to create directory: " ++ path
  | .cannotOpen path => "Failed to open " ++ path
  | .cannotWrite key => "Failed to write " ++ key
  | .cannotMove key => "Failed to move staged object into " ++ key
  | .cannotRemove key reason => "Failed to remove " ++ key ++ ": " ++ reason.message
  | .cannotList start reason => "Failed to list " ++ start ++ ": " ++ reason.message
  | .injected call key => "injected " ++ call.name ++ " " ++ key
  | .reported text => text

inductive Error
  | invalidBranchName
  | branchAlreadyExists
  | branchNotFound
  | cannotDeleteCurrentBranch
  | refNotFound (name : String)
  | commitNotFound (hash : String)
  | unknownStrategy (token : String)
  | storage (fault : StorageFault)
  | corruptObject (key detail : String)
  | mergeInProgress (source target : String)
  deriving DecidableEq, Repr

namespace Error

def message : Error → String
  | .invalidBranchName => "Invalid branch name"
  | .branchAlreadyExists => "Branch already exists"
  | .branchNotFound => "Branch not found"
  | .cannotDeleteCurrentBranch => "Cannot delete current branch"
  | .refNotFound name => "Ref not found: " ++ name
  | .commitNotFound hash => "Commit not found: " ++ hash
  | .unknownStrategy token => "Unknown resolution strategy: " ++ token
  | .storage fault => fault.message
  | .corruptObject key detail => "Corrupt object " ++ key ++ ": " ++ detail
  | .mergeInProgress source target =>
    "Merge already in progress: " ++ source ++ " into " ++ target

/-- The kinds of refusal, in their fixed order. -/
inductive Kind
  | invalidBranchName
  | branchAlreadyExists
  | branchNotFound
  | cannotDeleteCurrentBranch
  | refNotFound
  | commitNotFound
  | unknownStrategy
  | storage
  | corruptObject
  | mergeInProgress
  deriving DecidableEq, Repr

def kind : Error → Kind
  | .invalidBranchName => .invalidBranchName
  | .branchAlreadyExists => .branchAlreadyExists
  | .branchNotFound => .branchNotFound
  | .cannotDeleteCurrentBranch => .cannotDeleteCurrentBranch
  | .refNotFound _ => .refNotFound
  | .commitNotFound _ => .commitNotFound
  | .unknownStrategy _ => .unknownStrategy
  | .storage _ => .storage
  | .corruptObject _ _ => .corruptObject
  | .mergeInProgress _ _ => .mergeInProgress

def Kind.all : List Kind :=
  [.invalidBranchName, .branchAlreadyExists, .branchNotFound, .cannotDeleteCurrentBranch,
    .refNotFound, .commitNotFound, .unknownStrategy, .storage, .corruptObject, .mergeInProgress]

end Error

end VersionControl
