import Alt.Ci.Lint
import Alt.Cli.Json
import Alt.Diff.Hunks
import Alt.Export.Refs
import Alt.Export.StripRefstorage
import Alt.GitConfig.LineEnds
import Alt.GitConfig.Wildmatch
import Alt.GitIndex.Laws
import Alt.GitPack.ReadLaw
import Alt.Merge.Law
import Alt.Notes.DeriveRuns
import Alt.Notes.Runs
import Alt.Odb.FailedAppend
import Alt.Odb.StorageView
import Alt.OpLog.History
import Alt.OpLog.SyncRuns
import Alt.Prism.Containers
import Alt.Refs.RetryRuns
import Alt.Repo.Blame
import Alt.Repo.BranchRules
import Alt.Repo.Changes
import Alt.Repo.CheckoutLaw
import Alt.Repo.CommitText
import Alt.Repo.Elsewhere
import Alt.Repo.IndexCommits
import Alt.Repo.IndexPayload
import Alt.Repo.MergeLaw
import Alt.Repo.Replay
import Alt.Repo.StageAll
import Alt.Repo.StatRuns
import Alt.Repo.StateFiles
import Alt.Server.Dispatch
import Alt.Server.GlobPatterns
import Alt.Server.GroupCommit
import Alt.Server.PushGuarantees
import Alt.Store.BlobRoundTrip
import Alt.Store.BulkLaw
import Alt.Store.ChunkGet
import Alt.Web.Query
import Alt.Wire.RoundTrip
