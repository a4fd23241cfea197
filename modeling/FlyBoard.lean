import FlyBoard.Lib.Aes
import FlyBoard.Lib.Base64
import FlyBoard.Lib.BinaryPoly
import FlyBoard.Lib.BoundedQueue
import FlyBoard.Lib.Bytes
import FlyBoard.Lib.Chain
import FlyBoard.Lib.CutList
import FlyBoard.Lib.DisjointSets
import FlyBoard.Lib.EpochLog
import FlyBoard.Lib.FileTree
import FlyBoard.Lib.Gcm
import FlyBoard.Lib.HashChain
import FlyBoard.Lib.Html
import FlyBoard.Lib.Json
import FlyBoard.Lib.Keyed
import FlyBoard.Lib.LastWriter
import FlyBoard.Lib.Like
import FlyBoard.Lib.LineLog
import FlyBoard.Lib.LogTable
import FlyBoard.Lib.Markers
import FlyBoard.Lib.ParentForest
import FlyBoard.Lib.PhraseIndex
import FlyBoard.Lib.Placeholders
import FlyBoard.Lib.ProbeTable
import FlyBoard.Lib.Quorum
import FlyBoard.Lib.Ranking
import FlyBoard.Lib.Reader
import FlyBoard.Lib.Redelivery
import FlyBoard.Lib.Run
import FlyBoard.Lib.Scan
import FlyBoard.Lib.Sha256
import FlyBoard.Lib.SlotTable
import FlyBoard.Lib.Smtp
import FlyBoard.Lib.Stamps
import FlyBoard.Lib.Statements
import FlyBoard.Lib.Totals
import FlyBoard.Lib.Transactions
import FlyBoard.Lib.Buffer
import FlyBoard.Lib.TokenBucket
import FlyBoard.Lib.AhoCorasick
import FlyBoard.Lib.BreadthFirst
import FlyBoard.Db.User
import FlyBoard.Db.Post
import FlyBoard.Db.Search
import FlyBoard.Db.Moderation
import FlyBoard.Db.Series
import FlyBoard.Db.SeriesOrder
import FlyBoard.Db.I18n
import FlyBoard.Db.TranslationGroups
import FlyBoard.Db.Mail
import FlyBoard.Db.FileStore
import FlyBoard.Db.FileCleanup
import FlyBoard.Db.Notification
import FlyBoard.Db.SyncJournal
import FlyBoard.Db.ViewCounters
import FlyBoard.Db.Review
import FlyBoard.Db.ReviewRuns
import FlyBoard.Db.TagNames
import FlyBoard.Db.Tags
import FlyBoard.Db.MatchExpressions
import FlyBoard.Db.PublicPaths
import FlyBoard.Db.Announcements
import FlyBoard.Auth.Session
import FlyBoard.Auth.Totp
import FlyBoard.Auth.TwoFactor
import FlyBoard.Auth.Tokens
import FlyBoard.Auth.TotpRefusals
import FlyBoard.Auth.RecoveryCodes
import FlyBoard.Auth.AdminPassword
import FlyBoard.Auth.Base32
import FlyBoard.Audit.Record
import FlyBoard.Audit.SignedEntries
import FlyBoard.Render.Media
import FlyBoard.Render.ProtectMath
import FlyBoard.Render.FencedCode
import FlyBoard.Render.RestoreMath
import FlyBoard.Render.Span
import FlyBoard.Sync.Journal
import FlyBoard.Sync.MutationLog
import FlyBoard.Sync.Wire
import FlyBoard.Sync.Feed
import FlyBoard.Sync.AntiEntropy
import FlyBoard.Sync.Apply
import FlyBoard.Sync.Snapshot
import FlyBoard.Sync.RestoredReplica
import FlyBoard.Sync.PendingFiles
import FlyBoard.Tasfa.RollingHash
import FlyBoard.Tasfa.Fec
import FlyBoard.Tasfa.Htp
import FlyBoard.Tasfa.Peeling
import FlyBoard.Tasfa.SingleError
import FlyBoard.Tasfa.MediaSlots
import FlyBoard.Tasfa.SessionMeta
import FlyBoard.Tasfa.UploadWindow
import FlyBoard.Tasfa.SessionCache
import FlyBoard.Tasfa.Download
import FlyBoard.Tasfa.DownloadRange
import FlyBoard.Tasfa.StreamCrypto
import FlyBoard.Tasfa.FinalizeCache
import FlyBoard.Tasfa.UploadComplete
import FlyBoard.Wasm.AesGcm
import FlyBoard.Wasm.BlockCrypto
import FlyBoard.Engine.Cluster
import FlyBoard.Engine.Election
import FlyBoard.Engine.Fencing
import FlyBoard.Engine.ReplicatedLog
import FlyBoard.Engine.Handover
import FlyBoard.Engine.BdrVersions
import FlyBoard.Engine.BdrBlob
import FlyBoard.Engine.BdrKey
import FlyBoard.Engine.AsyncRoute
import FlyBoard.Utils.Email
import FlyBoard.Utils.Cache
import FlyBoard.Utils.Reqshare
import FlyBoard.Utils.PinnedCache
import FlyBoard.Utils.CacheReaders
import FlyBoard.Utils.SingleFlight
import FlyBoard.Utils.AhoModeration
import FlyBoard.Utils.ModerationFilter
import FlyBoard.Utils.IpBan
import FlyBoard.Utils.PostSchedule
import FlyBoard.Utils.CacheKeys
import FlyBoard.Utils.PrivacyExport
import FlyBoard.Utils.StrUtil
import FlyBoard.Utils.TagLayout
import FlyBoard.Utils.BanThreshold
import FlyBoard.Utils.FilterSettings
import FlyBoard.Utils.TrafficGuard
import FlyBoard.Utils.AhoTrie
import FlyBoard.Utils.AhoMatches
import FlyBoard.Utils.MediaPreview
import FlyBoard.Utils.SpamGuard
import FlyBoard.Nats.Moderation
import FlyBoard.Realtime.Presence
import FlyBoard.Handlers.PostGet
import FlyBoard.Handlers.Submit
import FlyBoard.Handlers.ReviewedContent
import FlyBoard.Handlers.PendingComment
import FlyBoard.Handlers.CommentDelete
import FlyBoard.Handlers.CommentReplicas
import FlyBoard.Handlers.AccountRemoval
import FlyBoard.Handlers.AccountReplicas
import FlyBoard.Handlers.BoardTree
import FlyBoard.Handlers.NewAccount
import FlyBoard.Handlers.PostAddresses
import FlyBoard.Handlers.PostDelete
import FlyBoard.Handlers.PageFill
import FlyBoard.Handlers.CompressCache
import FlyBoard.Handlers.Autosave
import FlyBoard.Handlers.Redirect
import FlyBoard.Handlers.AutoSlug
import FlyBoard.Handlers.SlugLookup
import FlyBoard.Handlers.RangeReply
import FlyBoard.Handlers.FailedEdit
import FlyBoard.Tools.Archive
import FlyBoard.Tools.MailImport
import FlyBoard.Tools.MailSpool
import FlyBoard.Tools.Restore
import FlyBoard.Tools.RestoreSafety
import FlyBoard.Tools.Backup
import FlyBoard.Tools.BackupChecks
import FlyBoard.Tools.BackupRestore
import FlyBoard.Tools.MailAttachments
