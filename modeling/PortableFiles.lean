import PortableFiles.FinMap
import PortableFiles.Bytes
import PortableFiles.Text.Split
import PortableFiles.Text.Numeral
import PortableFiles.Text.Blank
import PortableFiles.Text.FlagSet
import PortableFiles.Text.Utf8
import PortableFiles.Path.Basic
import PortableFiles.Time.Timestamp
import PortableFiles.Time.Duration
import PortableFiles.Time.ClockTime
import PortableFiles.Time.FileTime
import PortableFiles.Mode
import PortableFiles.Failure.IoKind
import PortableFiles.Failure.Errno
import PortableFiles.Failure.IoError
import PortableFiles.Failure.Error
import PortableFiles.Capability
import PortableFiles.Options
import PortableFiles.Lazy
import PortableFiles.FileInfo
import PortableFiles.Kernel.Tree
import PortableFiles.Kernel.Walk
import PortableFiles.Kernel.Program
import PortableFiles.Kernel.Machine
import PortableFiles.Kernel.Files
import PortableFiles.Kernel.Entries
import PortableFiles.Kernel.Run
import PortableFiles.Umask
import PortableFiles.Platform.Basic
import PortableFiles.Platform.Posix
import PortableFiles.Platform.Wasi
import PortableFiles.Platform.Absent
import PortableFiles.Writing.Reader
import PortableFiles.Writing.Atomic
import PortableFiles.Writing.InPlace
import PortableFiles.Operations
import PortableFiles.Security.Sid.Basic
import PortableFiles.Security.Sid.Text
import PortableFiles.Security.Sid.Binary
import PortableFiles.Security.PosixId
import PortableFiles.Security.AccessMask
import PortableFiles.Security.Acl.Basic
import PortableFiles.Security.Acl.Binary
import PortableFiles.Path.Extended
import PortableFiles.Session.Deed
import PortableFiles.Session.Listing
import PortableFiles.Session.Action
import PortableFiles.Session.Run
import PortableFiles.Session.Start
import PortableFiles.Session.RawFile
import PortableFiles.Proofs.Bytes
import PortableFiles.Proofs.Lazy
import PortableFiles.Proofs.FileInfo
import PortableFiles.Proofs.Failure.Kinds
import PortableFiles.Proofs.Failure.Origins
import PortableFiles.Proofs.Failure.Sessions
import PortableFiles.Proofs.Time.Instants
import PortableFiles.Proofs.Time.Clock
import PortableFiles.Proofs.Time.FileTimes
import PortableFiles.Proofs.Security.AclMode
import PortableFiles.Proofs.Security.AclUnion
import PortableFiles.Proofs.Security.PosixIds
import PortableFiles.Proofs.Text.Splitting
import PortableFiles.Proofs.Text.Numerals
import PortableFiles.Proofs.Text.Masks
import PortableFiles.Proofs.Security.SidText
import PortableFiles.Proofs.Security.SidBinary
import PortableFiles.Proofs.Security.AclBinary
import PortableFiles.Proofs.Security.AclCursor
import PortableFiles.Proofs.Security.AclLayout
import PortableFiles.Proofs.Path.Resolution
import PortableFiles.Proofs.Path.Roots
import PortableFiles.Proofs.Path.Promotion
import PortableFiles.Proofs.Kernel.Tree
import PortableFiles.Proofs.Kernel.Walk
import PortableFiles.Proofs.Kernel.NewEntry
import PortableFiles.Proofs.Kernel.Overlay
import PortableFiles.Proofs.Kernel.Errors
import PortableFiles.Proofs.Kernel.Runs
import PortableFiles.Proofs.Kernel.Calls
import PortableFiles.Proofs.Kernel.Opening
import PortableFiles.Proofs.Kernel.Protocol
import PortableFiles.Proofs.Kernel.Crowd
import PortableFiles.Proofs.Kernel.Stage
import PortableFiles.Proofs.Writing.Copy
import PortableFiles.Proofs.Writing.Making
import PortableFiles.Proofs.Writing.Filling
import PortableFiles.Proofs.Kernel.Status
import PortableFiles.Proofs.Writing.Permissions
import PortableFiles.Proofs.Writing.Course
import PortableFiles.Proofs.Path.Names
import PortableFiles.Proofs.Kernel.WellFormed
import PortableFiles.Proofs.Kernel.Changes
import PortableFiles.Proofs.Kernel.Upkeep
import PortableFiles.Proofs.Text.Encoding
import PortableFiles.Proofs.Path.Sibling
import PortableFiles.Proofs.Path.LastName
import PortableFiles.Proofs.Path.Cutting
import PortableFiles.Proofs.Writing.Request
import PortableFiles.Proofs.Writing.Beside
import PortableFiles.Proofs.Writing.Failure
import PortableFiles.Proofs.Writing.Result
import PortableFiles.Proofs.Writing.Publication
import PortableFiles.Proofs.Writing.OwnName
import PortableFiles.Proofs.Writing.Draft
import PortableFiles.Proofs.Writing.Discipline
import PortableFiles.Proofs.Writing.DraftCalls
import PortableFiles.Proofs.Writing.DraftSteps
import PortableFiles.Proofs.Writing.Contest
import PortableFiles.Proofs.Writing.Concurrent
import PortableFiles.Proofs.Path.Joining
import PortableFiles.Proofs.Path.Devices
import PortableFiles.Proofs.Path.Spelling
import PortableFiles.Proofs.Writing.Exposure
import PortableFiles.Proofs.Kernel.Triples
import PortableFiles.Proofs.Writing.Success
import PortableFiles.Proofs.Writing.FreshPath
import PortableFiles.Proofs.Kernel.Renaming
import PortableFiles.Proofs.Kernel.AlikeMachines
import PortableFiles.Proofs.Kernel.Pairing
import PortableFiles.Proofs.Kernel.InStep
import PortableFiles.Proofs.Writing.Tandem
import PortableFiles.Proofs.Writing.AtomicTandem
import PortableFiles.Proofs.Writing.Agreement
import PortableFiles.Proofs.Umask
import PortableFiles.Proofs.Kernel.Ways
import PortableFiles.Proofs.Writing.Site
import PortableFiles.Proofs.Writing.InPlaceCourse
import PortableFiles.Proofs.Writing.InPlaceResult
import PortableFiles.Proofs.Writing.DeleteOnClose
import PortableFiles.Proofs.Kernel.Overwriting
import PortableFiles.Proofs.Writing.Idempotence
import PortableFiles.Proofs.Writing.Placement
import PortableFiles.Proofs.Kernel.Disturbances
import PortableFiles.Proofs.Writing.WholeCopies
import PortableFiles.Proofs.Writing.NameSearch
