import InodeBridge.Dispatcher.Entries
import InodeBridge.Dispatcher.Files
import InodeBridge.Dispatcher.Listing

/-! # Serving requests

A dispatcher answers a request with one outcome.  Forgetting and shutting down are the requests that
get no answer.  Here each request is served to its end, a read too; how reads are left to a worker while
further requests are served is in `Dispatcher.Worker`.
-/
namespace InodeBridge.Dispatcher

open Handler

/-- What a handler answers: its outcome, or the number of its failure. -/
def answer (handler : Handler Outcome) : Action (Option Outcome) := do
  match ← handler.run with
  | .ok outcome => return some outcome
  | .error e => return some (.error e.errno)

def forgetAll : List (Inode × UInt64) → InodeTable → InodeTable
  | [], t => t
  | (inode, lookups) :: nodes, t => forgetAll nodes (t.forget inode lookups.toNat).2

def forget (nodes : List (Inode × UInt64)) : Action (Option Outcome) := do
  modify fun d => { d with inodes := forgetAll nodes d.inodes }
  return none

/-- Serves a request; none is the answer to requests that get none. -/
def serve : Request → Action (Option Outcome)
  | .init => answer (pure .ok)
  | .lookup parent name => answer (lookup parent name)
  | .forget inode lookups => forget [(inode, lookups)]
  | .batchForget nodes => forget nodes
  | .getattr inode => answer (getattr inode)
  | .setattr inode changes => answer (setattr inode changes)
  | .readlink inode => answer (readlink inode)
  | .mknod .. => answer (pure (.unsupported .mknod))
  | .mkdir parent name mode => answer (mkdir parent name mode)
  | .create parent name mode _ => answer (create parent name mode)
  | .unlink parent name => answer (unlink parent name)
  | .rmdir parent name => answer (rmdir parent name)
  | .symlink parent name content => answer (symlink parent name content)
  | .rename parent name newParent newName => answer (rename parent name newParent newName)
  | .link inode newParent newName => answer (link inode newParent newName)
  | .open inode _ => answer (openInode inode)
  | .read _ handle offset size => answer (read handle offset size)
  | .write _ handle offset data => answer (write handle offset data)
  | .flush _ handle _ => answer (checkHandle handle)
  | .release _ handle => answer (release handle)
  | .fsync _ handle _ => answer (checkHandle handle)
  | .opendir inode _ => answer do
    let _ ← resolve inode
    return .opened ⟨0, 0⟩
  | .readdir inode _ offset budget => answer (readdir inode offset budget)
  | .releasedir .. => answer (pure .ok)
  | .fsyncdir .. => answer (pure .ok)
  | .statfs _ => answer statfs
  | .access .. => answer (pure .ok)
  | .setxattr .. => answer (pure (.unsupported .setXattr))
  | .getxattr .. => answer (pure (.unsupported .getXattr))
  | .listxattr .. => answer (pure (.unsupported .listXattr))
  | .removexattr .. => answer (pure (.unsupported .removeXattr))
  | .getlk .. => answer (pure (.unsupported .getLock))
  | .setlk .. => answer (pure (.unsupported .setLock))
  | .bmap .. => answer (pure (.block 0))
  | .destroy => do
    let _ ← destroy.run
    return none

end InodeBridge.Dispatcher
