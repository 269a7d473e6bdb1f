/-! The states of a tracked entity, the moves between them, and what happens when data
arrives for a key that is cached already. -/
namespace EntityCache

inductive EntityState where
  | detached
  | added
  | unchanged
  | modified
  | deleted
  deriving DecidableEq, Repr

namespace EntityState

def name : EntityState → String
  | detached => "Detached"
  | added => "Added"
  | unchanged => "Unchanged"
  | modified => "Modified"
  | deleted => "Deleted"

/-- Every state may stay as it is and every state may drop to Detached. -/
def canBecome (a b : EntityState) : Bool :=
  a == b || b == detached ||
    match a, b with
    | detached, added => true
    | detached, unchanged => true
    | added, unchanged => true
    | unchanged, modified => true
    | unchanged, deleted => true
    | modified, unchanged => true
    | modified, deleted => true
    | deleted, unchanged => true
    | _, _ => false

def isPending : EntityState → Bool
  | added | modified | deleted => true
  | _ => false

end EntityState

/-- Disallowed fails on a cached key; OverwriteChanges always copies the incoming values;
PreserveChanges copies them only onto an Unchanged entity; SkipMerge keeps the cached
values. -/
inductive MergeStrategy where
  | disallowed
  | overwriteChanges
  | preserveChanges
  | skipMerge
  deriving DecidableEq, Repr

namespace MergeStrategy

def name : MergeStrategy → String
  | disallowed => "Disallowed"
  | overwriteChanges => "OverwriteChanges"
  | preserveChanges => "PreserveChanges"
  | skipMerge => "SkipMerge"

def standard : MergeStrategy := preserveChanges

def overwrites : MergeStrategy → EntityState → Bool
  | overwriteChanges, _ => true
  | preserveChanges, s => s == .unchanged
  | disallowed, _ => false
  | skipMerge, _ => false

end MergeStrategy

end EntityCache
