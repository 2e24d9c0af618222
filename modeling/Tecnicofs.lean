import Tecnicofs.Lib.Bytes
import Tecnicofs.Lib.Runs
import Tecnicofs.Storage.Blocks
import Tecnicofs.Storage.Directory
import Tecnicofs.Storage.OpenFiles
import Tecnicofs.Spec.ByteFs
import Tecnicofs.Spec.Represents
import Tecnicofs.Ex2.State
import Tecnicofs.Ex2.Operations
import Tecnicofs.Ex2.Invariant
import Tecnicofs.Ex2.Refinement
import Tecnicofs.Ex2.Isolation
import Tecnicofs.Ex2.Shutdown
import Tecnicofs.Ex2.Protocol
import Tecnicofs.Ex2.ClientServer
import Tecnicofs.Ex2.Sessions
import Tecnicofs.Ex2.Requests
import Tecnicofs.Lib.Pool
import Tecnicofs.Ex1.Operations
import Tecnicofs.Lib.LockOrder
import Tecnicofs.Ex1.LockOrder
import Tecnicofs.Ex1.Deadlock
import Tecnicofs.Ex1.Slots
import Tecnicofs.Ex1.Consistent
import Tecnicofs.Ex1.Alone
import Tecnicofs.Ex1.Ownership
import Tecnicofs.Lib.Regions
import Tecnicofs.Ex1.Regions
import Tecnicofs.Ex2.Handles
import Tecnicofs.Ex2.Allocation
import Tecnicofs.Ex2.Validation
import Tecnicofs.Ex2.Mounts
import Tecnicofs.Ex2.ShutdownRequest
import Tecnicofs.Lib.Balance
import Tecnicofs.Ex1.LockBalance
import Tecnicofs.Ex1.DirectoryMap
import Tecnicofs.Ex1.View
import Tecnicofs.Ex1.Transfer
import Tecnicofs.Ex1.Settled
import Tecnicofs.Ex1.FreeBlocks
import Tecnicofs.Ex1.AllOrNothing
import Tecnicofs.Ex1.Opening
import Tecnicofs.Ex1.Sequential
import Tecnicofs.Ex1.MaximumSize
import Tecnicofs.Lib.Phases
import Tecnicofs.Ex1.OpenPhases
import Tecnicofs.Ex1.Creation
import Tecnicofs.Ex2.Transfers
import Tecnicofs.Ex2.FailedOpen
import Tecnicofs.Ex2.Reads
import Tecnicofs.Ex2.Reassembly
import Tecnicofs.Ex1.Truncation
import Tecnicofs.Ex1.Growth
import Tecnicofs.Ex1.Deletion
import Tecnicofs.Lib.Guards
import Tecnicofs.Ex1.HandleTable
import Tecnicofs.Ex1.HandleOwners
import Tecnicofs.Ex1.HandleGrants
import Tecnicofs.Lib.Keeps
import Tecnicofs.Ex1.Ranged
import Tecnicofs.Ex1.ReadOnly
import Tecnicofs.Ex1.ExternalCopy
import Tecnicofs.Ex1.ExactCopy
import Tecnicofs.Ex1.Refinement
import Tecnicofs.Ex2.DrainSignal
import Tecnicofs.Ex1.Serial
import Tecnicofs.Ex1.Truncating
import Tecnicofs.Ex1.Accounting
import Tecnicofs.Ex1.OpenOutcomes
import Tecnicofs.Lib.Histories
import Tecnicofs.Ex2.Linearizable
import Tecnicofs.Ex2.SharedStore
import Tecnicofs.Ex2.Progress
import Tecnicofs.Ex2.LifeCycle
import Tecnicofs.Ex1.Capacity
import Tecnicofs.Agreement
import Tecnicofs.Ex1.Registration
import Tecnicofs.Ex1.FileIsolation
import Tecnicofs.Ex1.Returning
import Tecnicofs.Ex2.ResourceUse
