import Dserve.Lib.Machine
import Dserve.Lib.Chain
import Dserve.List
import Dserve.Transaction
import Dserve.Download
import Dserve.Index
import Dserve.Queue
import Dserve.Stop
import Dserve.Controller
import Dserve.View
import Dserve.Limit
import Dserve.Sound
import Dserve.Threads
import Dserve.Status
import Dserve.Cancelled
import Dserve.Slots
import Dserve.Retention
import Dserve.Save
import Dserve.Responses
import Dserve.Handler
import Dserve.Replies
import Dserve.Server
import Dserve.Uninterrupted
import Dserve.Client
import Dserve.Links
import Dserve.Records
import Dserve.Isolation
import Dserve.Defined
import Dserve.Answers
import Dserve.Connection
import Dserve.Lib.Disk
import Dserve.Files
import Dserve.Lib.Object
import Dserve.Layout
import Dserve.Lib.Settings
import Dserve.Options
import Dserve.Lib.Pieces
import Dserve.Lookup
import Dserve.NewOptions
import Dserve.Interference
import Dserve.Stores
import Dserve.Interrupt
import Dserve.Termination
import Dserve.Operations
import Dserve.Retries
import Dserve.Admission
import Dserve.Allocation
import Dserve.Reports
import Dserve.Lib.Words
import Dserve.Loading
import Dserve.Polling
import Dserve.Encoders
import Dserve.Accounting
import Dserve.Scheduling
import Dserve.Paths
import Dserve.Lib.Folder
import Dserve.Rotation
import Dserve.Lib.Creation
import Dserve.Directories
import Dserve.Lib.Memory
import Dserve.Trim
import Dserve.Traversals
import Dserve.Lib.BlockCipher
import Dserve.Encrypt
import Dserve.Lib.Simulation
import Dserve.Turns
import Dserve.Catalogue
import Dserve.Names
import Dserve.Lib.Variant
import Dserve.Progress
import Dserve.Service
import Dserve.Lib.Descriptors
import Dserve.Listener
import Dserve.Logs
import Dserve.Lives
import Dserve.Session
import Dserve.Listing
import Dserve.Exclusive
import Dserve.Setup
