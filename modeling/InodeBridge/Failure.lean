import InodeBridge.Errno
import InodeBridge.Text.Quoted
import InodeBridge.Text.Utf8
import InodeBridge.Path

/-! # Failures

A storage call fails with an error number of the host, or with a kind of failure that has no number
and perhaps a text of its own.  A request fails because of a storage call or of a bad operand; its
answer is an error number.
-/
namespace InodeBridge

inductive FailureKind where
  | addressInUse | addressNotAvailable | alreadyExists | argumentListTooLong | brokenPipe
  | connectionAborted | connectionRefused | connectionReset | crossesDevices | deadlock
  | directoryNotEmpty | executableBusy | fileTooLarge | linkLoop | hostUnreachable | inProgress
  | interrupted | invalidData | invalidFilename | invalidInput | isADirectory | networkDown
  | networkUnreachable | notADirectory | notConnected | notFound | notSeekable | other | outOfMemory
  | permissionDenied | quotaExceeded | readOnlyFilesystem | resourceBusy | staleNetworkHandle
  | storageFull | timedOut | tooManyLinks | uncategorized | unexpectedEnd | unsupported | wouldBlock
  | writeZero
  deriving DecidableEq, Repr

def FailureKind.all : List FailureKind :=
  [.addressInUse, .addressNotAvailable, .alreadyExists, .argumentListTooLong, .brokenPipe,
   .connectionAborted, .connectionRefused, .connectionReset, .crossesDevices, .deadlock,
   .directoryNotEmpty, .executableBusy, .fileTooLarge, .linkLoop, .hostUnreachable, .inProgress,
   .interrupted, .invalidData, .invalidFilename, .invalidInput, .isADirectory, .networkDown,
   .networkUnreachable, .notADirectory, .notConnected, .notFound, .notSeekable, .other,
   .outOfMemory, .permissionDenied, .quotaExceeded, .readOnlyFilesystem, .resourceBusy,
   .staleNetworkHandle, .storageFull, .timedOut, .tooManyLinks, .uncategorized, .unexpectedEnd,
   .unsupported, .wouldBlock, .writeZero]

theorem FailureKind.mem_all (k : FailureKind) : k ∈ all := by cases k <;> decide

def FailureKind.message : FailureKind → String
  | .addressInUse => "address in use"
  | .addressNotAvailable => "address not available"
  | .alreadyExists => "entity already exists"
  | .argumentListTooLong => "argument list too long"
  | .brokenPipe => "broken pipe"
  | .connectionAborted => "connection aborted"
  | .connectionRefused => "connection refused"
  | .connectionReset => "connection reset"
  | .crossesDevices => "cross-device link or rename"
  | .deadlock => "deadlock"
  | .directoryNotEmpty => "directory not empty"
  | .executableBusy => "executable file busy"
  | .fileTooLarge => "file too large"
  | .linkLoop => "filesystem loop or indirection limit (e.g. symlink loop)"
  | .hostUnreachable => "host unreachable"
  | .inProgress => "in progress"
  | .interrupted => "operation interrupted"
  | .invalidData => "invalid data"
  | .invalidFilename => "invalid filename"
  | .invalidInput => "invalid input parameter"
  | .isADirectory => "is a directory"
  | .networkDown => "network down"
  | .networkUnreachable => "network unreachable"
  | .notADirectory => "not a directory"
  | .notConnected => "not connected"
  | .notFound => "entity not found"
  | .notSeekable => "seek on unseekable file"
  | .other => "other error"
  | .outOfMemory => "out of memory"
  | .permissionDenied => "permission denied"
  | .quotaExceeded => "quota exceeded"
  | .readOnlyFilesystem => "read-only filesystem or storage medium"
  | .resourceBusy => "resource busy"
  | .staleNetworkHandle => "stale network file handle"
  | .storageFull => "no storage space"
  | .timedOut => "timed out"
  | .tooManyLinks => "too many links"
  | .uncategorized => "uncategorized error"
  | .unexpectedEnd => "unexpected end of file"
  | .unsupported => "unsupported"
  | .wouldBlock => "operation would block"
  | .writeZero => "write zero"

inductive StorageError where
  | host (errno : Errno)
  | ofKind (kind : FailureKind)
  | described (kind : FailureKind) (text : String)
  deriving DecidableEq, Repr

namespace StorageError

/-- The error number for a failed call: the host's own, or that of a missing entry or of failed
input and output. -/
def errno : StorageError → Errno
  | .host errno => errno
  | .ofKind .notFound | .described .notFound _ => Errno.noEntry
  | .ofKind _ | .described _ _ => Errno.inputOutput

def message : StorageError → String
  | .host errno => errno.message ++ " (os error " ++ toString errno ++ ")"
  | .ofKind kind => kind.message
  | .described _ text => text

end StorageError

inductive RequestError where
  | unknownInode (inode : UInt64)
  | storage (cause : StorageError)
  /-- A change of attributes was rejected. -/
  | attributeChange (cause : StorageError)
  /-- A file could not be opened in either mode. -/
  | openFailed (cause : StorageError)
  | unknownHandle (handle : UInt64)
  | readOnlyHandle (handle : UInt64)
  /-- A name that is not a single component. -/
  | badName (name : Name)
  | badOffset (offset : Int64)
  deriving DecidableEq, Repr

namespace RequestError

def errno : RequestError → Errno
  | .unknownInode _ => Errno.noEntry
  | .storage cause => cause.errno
  | .attributeChange _ | .openFailed _ | .unknownHandle _ => Errno.inputOutput
  | .readOnlyHandle _ => Errno.badDescriptor
  | .badName _ | .badOffset _ => Errno.invalid

def message : RequestError → String
  | .unknownInode inode => "No such inode: " ++ toString inode
  | .storage cause => "Storage operation failed: " ++ cause.message
  | .attributeChange cause => "Attribute change failed: " ++ cause.message
  | .openFailed cause => "Open failed: " ++ cause.message
  | .unknownHandle handle => "Invalid file handle: " ++ toString handle
  | .readOnlyHandle handle => "File handle " ++ toString handle ++ " is not writable"
  | .badName name => "Invalid name: " ++ Text.quote (Text.ofUtf8Lossy name)
  | .badOffset offset => "Invalid offset: " ++ toString offset

end RequestError
end InodeBridge
