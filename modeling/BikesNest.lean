import BikesNest.AccountAdmin
import BikesNest.Accounts
import BikesNest.Activation
import BikesNest.AdminFloor
import BikesNest.AnonymousTokens
import BikesNest.ApprovalForm
import BikesNest.AttributeTally
import BikesNest.Attribution
import BikesNest.AuthOutbox
import BikesNest.Base64Url
import BikesNest.BrowserCookies
import BikesNest.ClientIp
import BikesNest.Clock
import BikesNest.Community
import BikesNest.ConfidenceDecay
import BikesNest.ContentPolicy
import BikesNest.Contribution
import BikesNest.ContributionFailures
import BikesNest.ContributionHistory
import BikesNest.CookieJar
import BikesNest.CpuAdmission
import BikesNest.CredentialLinks
import BikesNest.CredentialOps
import BikesNest.Credentials
import BikesNest.CsrfTokens
import BikesNest.DateTimes
import BikesNest.DelimitedText
import BikesNest.DeliverySafety
import BikesNest.Details
import BikesNest.EditableListings
import BikesNest.Effects
import BikesNest.Erasure
import BikesNest.ErasureFrame
import BikesNest.Exports
import BikesNest.FormEncoding
import BikesNest.Freshness
import BikesNest.GalleryOrder
import BikesNest.GeocodeCache
import BikesNest.GeocodeMetering
import BikesNest.HeaderFields
import BikesNest.HoursForm
import BikesNest.HoursOverlap
import BikesNest.InactiveAccounts
import BikesNest.Interleaving
import BikesNest.JobBudget
import BikesNest.JobLeases
import BikesNest.JobRecurrence
import BikesNest.JobTimes
import BikesNest.Jobs
import BikesNest.Json
import BikesNest.Keyset
import BikesNest.Lifecycle
import BikesNest.LiveSpots
import BikesNest.LockModes
import BikesNest.LoginRace
import BikesNest.MailDelivery
import BikesNest.OpenNow
import BikesNest.Operations
import BikesNest.Outcome
import BikesNest.Parking
import BikesNest.PayloadCodec
import BikesNest.PendingCues
import BikesNest.PercentCodec
import BikesNest.PhotoObjects
import BikesNest.PhotoQueue
import BikesNest.PhotoReconcile
import BikesNest.PhotoUploads
import BikesNest.Photos
import BikesNest.Policies
import BikesNest.PolicyHistory
import BikesNest.PolicyText
import BikesNest.Proposal
import BikesNest.ProposalQueue
import BikesNest.ProviderLinks
import BikesNest.PublicNames
import BikesNest.Publishability
import BikesNest.PublishedChanges
import BikesNest.Publishing
import BikesNest.Radix
import BikesNest.RateLimits
import BikesNest.Ratings
import BikesNest.ReadBack
import BikesNest.ReadCommitted
import BikesNest.RecencyLog
import BikesNest.RecurringRegistration
import BikesNest.ReleaseChain
import BikesNest.ReportLife
import BikesNest.ReportResolution
import BikesNest.Reports
import BikesNest.RequestDeadlines
import BikesNest.RetentionSafety
import BikesNest.ReturnPaths
import BikesNest.ReviewPages
import BikesNest.Reviews
import BikesNest.Rounding
import BikesNest.RowLocks
import BikesNest.RowOrder
import BikesNest.Runs
import BikesNest.Schema
import BikesNest.SearchFilters
import BikesNest.SearchLinks
import BikesNest.SearchPages
import BikesNest.SecurityMiddleware
import BikesNest.Semaphores
import BikesNest.ServiceCalls
import BikesNest.SessionCookies
import BikesNest.Sessions
import BikesNest.SlidingLog
import BikesNest.SnapshotFidelity
import BikesNest.Summary
import BikesNest.Table
import BikesNest.TermsProof
import BikesNest.TextSlices
import BikesNest.TimeLinks
import BikesNest.Timeline
import BikesNest.UrlReference
import BikesNest.Versioned
import BikesNest.VoteMoves
import BikesNest.VotePublication
import BikesNest.VoteStatements
import BikesNest.VoteTally
