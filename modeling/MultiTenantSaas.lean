import MultiTenantSaas.KeyedRows
import MultiTenantSaas.Process
import MultiTenantSaas.Text
import MultiTenantSaas.Models
import MultiTenantSaas.Schemas
import MultiTenantSaas.Hub
import MultiTenantSaas.HubRuns
import MultiTenantSaas.HubListeners
import MultiTenantSaas.HubStreams
import MultiTenantSaas.World
import MultiTenantSaas.Repositories
import MultiTenantSaas.Security
import MultiTenantSaas.Services
import MultiTenantSaas.Endpoints
import MultiTenantSaas.Api
import MultiTenantSaas.Sessions
import MultiTenantSaas.Uniqueness
import MultiTenantSaas.Permissions
import MultiTenantSaas.SessionRules
import MultiTenantSaas.Handlers
import MultiTenantSaas.AloneRuns
import MultiTenantSaas.SocketAdmission
import MultiTenantSaas.Versioned
import MultiTenantSaas.Runs
import MultiTenantSaas.Mediation
import MultiTenantSaas.Invitations
import MultiTenantSaas.Tenancy
import MultiTenantSaas.Objects
import MultiTenantSaas.Broadcasts
import MultiTenantSaas.TaskVersions
import MultiTenantSaas.ProjectVersions
import MultiTenantSaas.Parents
import MultiTenantSaas.References
import MultiTenantSaas.Ownership
import MultiTenantSaas.Keyset
import MultiTenantSaas.OneThread
import MultiTenantSaas.Readers
import MultiTenantSaas.Tombstones
import MultiTenantSaas.Serial
import MultiTenantSaas.AuditTrail
import MultiTenantSaas.Lineage
import MultiTenantSaas.Feeds
import MultiTenantSaas.Atomicity
import MultiTenantSaas.Attribution
import MultiTenantSaas.ProjectDiffs
import MultiTenantSaas.TaskPatches
import MultiTenantSaas.TaskCreation
import MultiTenantSaas.StatusAudit
import MultiTenantSaas.Retention
import MultiTenantSaas.Rotation
import MultiTenantSaas.Revocations
import MultiTenantSaas.Ghost
import MultiTenantSaas.Freshness
import MultiTenantSaas.Deletions
import MultiTenantSaas.RateLimits
import MultiTenantSaas.Paging
import MultiTenantSaas.Listings
import MultiTenantSaas.AuditPages
import MultiTenantSaas.Search
import MultiTenantSaas.Registrations
import MultiTenantSaas.Normalization
import MultiTenantSaas.UniqueValues
import MultiTenantSaas.Conflicts
import MultiTenantSaas.CommentEdits
import MultiTenantSaas.UploadLimits
import MultiTenantSaas.Slugs
import MultiTenantSaas.Collections
import MultiTenantSaas.Answering
import MultiTenantSaas.PostCommit
import MultiTenantSaas.SocketCleanup
import MultiTenantSaas.Digits
import MultiTenantSaas.Base64
import MultiTenantSaas.Calendar
import MultiTenantSaas.IsoFormat
import MultiTenantSaas.JsonText
import MultiTenantSaas.Cursors
import MultiTenantSaas.Mirror
import MultiTenantSaas.Noninterference
import MultiTenantSaas.Protocols
import MultiTenantSaas.Progress
import MultiTenantSaas.AbstractSession
import MultiTenantSaas.SessionSteps
import MultiTenantSaas.SessionHandlers
import MultiTenantSaas.Deadlocks
import MultiTenantSaas.Announcements
import MultiTenantSaas.RowHistories
import MultiTenantSaas.Effects
import MultiTenantSaas.CachedProjects
import MultiTenantSaas.Rosters
import MultiTenantSaas.Refusals
import MultiTenantSaas.Observations
import MultiTenantSaas.Accounts
import MultiTenantSaas.Sweeps
import MultiTenantSaas.Contention
import MultiTenantSaas.Mailings
import MultiTenantSaas.Lifetimes
