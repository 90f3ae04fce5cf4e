import Thcdb.Interleaving.System
import Thcdb.Interleaving.Linear
import Thcdb.Interleaving.Trace
import Thcdb.Interleaving.Replay
import Thcdb.Interleaving.Potential
import Thcdb.Interleaving.History
import Thcdb.Interleaving.Projection
import Thcdb.Interleaving.Issued
import Thcdb.Broadcast.Channel
import Thcdb.Redis.Keyspace
import Thcdb.Text.Decimal
import Thcdb.Json.Value
import Thcdb.Json.Printer
import Thcdb.Relational.Children
import Thcdb.Relational.Nested
import Thcdb.Relational.Ordered
import Thcdb.Relational.Join
import Thcdb.Relational.Lookup
import Thcdb.Relational.Reconcile
import Thcdb.Relational.Sessions
import Thcdb.Relational.Journal
import Thcdb.Relational.Keyed
import Thcdb.Paging.Slices
import Thcdb.Paging.Cursors
import Thcdb.Paging.Offsets
import Thcdb.Paging.Seek
import Thcdb.Paging.Ties
import Thcdb.Paging.LastSeen
import Thcdb.Paging.Live
import Thcdb.Calendar.Gregorian
import Thcdb.Fallible.Except
import Thcdb.Objects.Heap
import Thcdb.Objects.Paths
import Thcdb.Objects.Copy
import Thcdb.Files.Volume
import Thcdb.Auth.Users
import Thcdb.PasswordReset.State
import Thcdb.PasswordReset.Service
import Thcdb.PasswordReset.Ledger
import Thcdb.PasswordReset.LedgerInvariants
import Thcdb.PasswordReset.Refinement
import Thcdb.PasswordReset.GuessBudget
import Thcdb.PasswordReset.SingleUse
import Thcdb.PasswordReset.Index
import Thcdb.PasswordReset.Expiry
import Thcdb.PasswordReset.Undo
import Thcdb.PasswordReset.Cooldown
import Thcdb.PasswordReset.VerifyLoop
import Thcdb.PasswordReset.Provenance
import Thcdb.PasswordReset.EmailJobs
import Thcdb.PasswordReset.EmailDelivery
import Thcdb.SignUp.Service
import Thcdb.SignUp.VerifiedRows
import Thcdb.SignUp.Accounts
import Thcdb.SignUp.Vouching
import Thcdb.SignUp.VerifyBudget
import Thcdb.Users.Tables
import Thcdb.Users.ImageUpload
import Thcdb.Users.LostChanges
import Thcdb.Authz.Permissions
import Thcdb.Authz.PermissionDefs
import Thcdb.Authz.RolePermissions
import Thcdb.Authz.Sync
import Thcdb.Authz.Privileges
import Thcdb.ImageQueue.Agreement
import Thcdb.Images.Parser
import Thcdb.Images.Store
import Thcdb.Images.Durability
import Thcdb.Images.Overlap
import Thcdb.Corrections.Service
import Thcdb.Corrections.StatusMachine
import Thcdb.Corrections.Transactions
import Thcdb.Corrections.Submission
import Thcdb.Corrections.Revising
import Thcdb.Corrections.Publication
import Thcdb.Corrections.DiffBase
import Thcdb.Corrections.Content
import Thcdb.Corrections.AuditTrail
import Thcdb.Corrections.LiveData
import Thcdb.Corrections.SnapshotDiff
import Thcdb.Corrections.DiffLocations
import Thcdb.Catalog.Database
import Thcdb.Catalog.SongLyrics
import Thcdb.Catalog.Song
import Thcdb.Catalog.SongRelations
import Thcdb.Catalog.Label
import Thcdb.Catalog.Tag
import Thcdb.Catalog.Event
import Thcdb.Catalog.CreditRole
import Thcdb.Catalog.Release
import Thcdb.Catalog.Artist
import Thcdb.Catalog.Approval
import Thcdb.Catalog.Snapshot
import Thcdb.Catalog.DiffCoverage
import Thcdb.Catalog.HiddenChanges
import Thcdb.Catalog.InventedChanges
import Thcdb.Catalog.ArtistPage
import Thcdb.Catalog.ArtistRuns
import Thcdb.Catalog.ArtistNoop
import Thcdb.Catalog.Tenures
import Thcdb.Catalog.ReleaseLoader
import Thcdb.Catalog.TrackArtists
import Thcdb.Catalog.ReleaseRoundTrip
import Thcdb.Catalog.ArtistReleases
import Thcdb.Loaders.MaybeLoader
import Thcdb.Paging.PageQuery
import Thcdb.Paging.AdminUsers
import Thcdb.Paging.CursorListings
import Thcdb.Explore.SortedIds
import Thcdb.Explore.Listings
import Thcdb.Explore.Kinds
import Thcdb.Search.Query
import Thcdb.Search.ShortTerms
import Thcdb.TagVotes.Tags
import Thcdb.TagVotes.Ballots
import Thcdb.TagVotes.Tally
import Thcdb.Paging.LiveListings
import Thcdb.Notifications.Hub
import Thcdb.Notifications.Channels
import Thcdb.Notifications.Delivery
import Thcdb.Notifications.Sweep
import Thcdb.Notifications.Inbox
import Thcdb.Notifications.Reading
import Thcdb.Notifications.FanOut
import Thcdb.Frontend.OutputSize
import Thcdb.Frontend.CropperGeometry
import Thcdb.Frontend.JsDate
import Thcdb.Frontend.DateWithPrecision
import Thcdb.Frontend.PartialDates
import Thcdb.Frontend.DateEdits
import Thcdb.Frontend.DeepMerge
import Thcdb.Frontend.PlainMerge
import Thcdb.Frontend.DeepMergeSites
import Thcdb.Frontend.DeepMergeRuns
import Thcdb.Frontend.DeepMergeFrame
import Thcdb.Frontend.DeepMergeClashes
import Thcdb.Frontend.DeepMergeExact
import Thcdb.Lrc.Lyrics
import Thcdb.Lrc.Tags
import Thcdb.Lrc.Lines
import Thcdb.Lrc.RoundTrip
import Thcdb.Lrc.Checked
import Thcdb.Lrc.Grammar
import Thcdb.Lrc.Scan
import Thcdb.Lrc.LastLine
