import MbKeeper.Programs
import MbKeeper.Retrying
import MbKeeper.Raising
import MbKeeper.FileTree
import MbKeeper.Newest
import MbKeeper.Refinement
import MbKeeper.Text
import MbKeeper.Calendar
import MbKeeper.Paths
import MbKeeper.Environment
import MbKeeper.Files
import MbKeeper.Manifest
import MbKeeper.Retention
import MbKeeper.Config
import MbKeeper.Local
import MbKeeper.LocalEffects
import MbKeeper.Processes
import MbKeeper.Pipeline
import MbKeeper.Runner
import MbKeeper.Orchestrator
import MbKeeper.Ssh
import MbKeeper.Destinations
import MbKeeper.PurgeEffects
import MbKeeper.LocalHistory
import MbKeeper.PurgeFrame
import MbKeeper.Locking
import MbKeeper.LockProgress
import MbKeeper.LocalStore
import MbKeeper.SshEffects
import MbKeeper.SshStore
import MbKeeper.Copies
import MbKeeper.Listings
import MbKeeper.SshHistory
import MbKeeper.RunTrace
import MbKeeper.PostRun
import MbKeeper.PurgeLoop
import MbKeeper.PurgeLaws
import MbKeeper.ConfigErrors
import MbKeeper.ConfigReports
import MbKeeper.ConfigFields
import MbKeeper.RemoteShell
import MbKeeper.ListGrammar
import MbKeeper.ListRoundTrip
import MbKeeper.StoredListing
import MbKeeper.Markers
import MbKeeper.SshRetention
import MbKeeper.PurgeRetries
import MbKeeper.SshRetries
import MbKeeper.WorkDir
import MbKeeper.Hooks
import MbKeeper.ReplicationGate
import MbKeeper.Cli
import MbKeeper.ManifestReading
import MbKeeper.JsonText
import MbKeeper.JsonRoundTrip
import MbKeeper.JsonRecords
import MbKeeper.LongOptions
import MbKeeper.ReservedArgs
import MbKeeper.ShellWords
import MbKeeper.RemoteWords
import MbKeeper.TreeHistory
import MbKeeper.GraceHistory
import MbKeeper.Isolation
import MbKeeper.RunHistory
import MbKeeper.Invocations
import MbKeeper.Footprint
import MbKeeper.Backends
import MbKeeper.Delivery
import MbKeeper.Endings
import MbKeeper.ExitCodes
import MbKeeper.Trimming
