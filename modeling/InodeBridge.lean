import InodeBridge.Dispatcher
import InodeBridge.Host.Preparation
import InodeBridge.HostStorage
import InodeBridge.Kernel.Session
import InodeBridge.Main
import InodeBridge.Reply
import InodeBridge.Storage.Variants
import InodeBridge.Proofs.Dispatcher.AttributeReach
import InodeBridge.Proofs.Dispatcher.Confinement
import InodeBridge.Proofs.Dispatcher.Creation
import InodeBridge.Proofs.Dispatcher.Descriptors
import InodeBridge.Proofs.Dispatcher.Enumeration
import InodeBridge.Proofs.Dispatcher.HandleGate
import InodeBridge.Proofs.Dispatcher.InodeNumbers
import InodeBridge.Proofs.Dispatcher.Lives
import InodeBridge.Proofs.Dispatcher.ObjectStability
import InodeBridge.Proofs.Dispatcher.OpenFiles
import InodeBridge.Proofs.Dispatcher.Operands
import InodeBridge.Proofs.Dispatcher.Rebinding
import InodeBridge.Proofs.Dispatcher.ReferenceSafety
import InodeBridge.Proofs.Dispatcher.Replies
import InodeBridge.Proofs.Dispatcher.Scanning
import InodeBridge.Proofs.HandleTable.Issuing
import InodeBridge.Proofs.Host.PositionalIo
import InodeBridge.Proofs.Host.Stamps
import InodeBridge.Proofs.InodeTable.Calls
import InodeBridge.Proofs.InodeTable.RootEntry
import InodeBridge.Proofs.InodeTable.Subtree
import InodeBridge.Proofs.Kernel.Lifetimes
