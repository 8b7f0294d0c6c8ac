import CrustSworker.ByteText
import CrustSworker.OrderedMap
import CrustSworker.Runs
import CrustSworker.EUtils
import CrustSworker.Json
import CrustSworker.JsonParse
import CrustSworker.Parameter
import CrustSworker.Workload
import CrustSworker.Report
import CrustSworker.ReportScan
import CrustSworker.ReportHeight
import CrustSworker.ReportSignature
import CrustSworker.Sha256
import CrustSworker.Merkle
import CrustSworker.TextSearch
import CrustSworker.Seal
import CrustSworker.Storage
import CrustSworker.Validator
import CrustSworker.ValidatorSound
import CrustSworker.FileLedger
import CrustSworker.Upgrade
import CrustSworker.UpgradeSignature
import CrustSworker.Metadata
import CrustSworker.Enclave
import CrustSworker.ECalls
import CrustSworker.Admission
import CrustSworker.TaskCount
import CrustSworker.Srd
import CrustSworker.SrdInfo
import CrustSworker.SrdTasks
import CrustSworker.FileStats
import CrustSworker.JsonRead
import CrustSworker.EntryText
import CrustSworker.MetadataRoundTrip
import CrustSworker.UpgradeData
import CrustSworker.UpgradeGenuine
import CrustSworker.UpgradeReport
import CrustSworker.UpgradeAgree
import CrustSworker.Surface
import CrustSworker.SurfaceFlags
import CrustSworker.ValidatedProof
import CrustSworker.Frozen
import CrustSworker.UpgradeExit
import CrustSworker.HeightGates
import CrustSworker.SrdDecrease
import CrustSworker.SrdLimit
import CrustSworker.FileLimit
import CrustSworker.ValidatePass
import CrustSworker.PendingDrain
import CrustSworker.Restart
import CrustSworker.Pieces
import CrustSworker.Persistence
import CrustSworker.Disk
import CrustSworker.SrdCredit
import CrustSworker.PersistLayout
import CrustSworker.PersistFaults
import CrustSworker.MerkleExact
import CrustSworker.SealedTree
import CrustSworker.SealFailure
import CrustSworker.SrdPaths
import CrustSworker.RoundRobin
import CrustSworker.SrdSpread
import CrustSworker.ApiGate
import CrustSworker.UpgradeClient
import CrustSworker.UpgradeBuffer
import CrustSworker.UpgradeTransfer
import CrustSworker.SpecSizes
import CrustSworker.NewPath
import CrustSworker.BufferBudget
import CrustSworker.SrdSampling
import CrustSworker.HexCodec
import CrustSworker.JsonDump
import CrustSworker.HashToken
import CrustSworker.JsonLoaders
import CrustSworker.JsonBounds
import CrustSworker.SrdProof
import CrustSworker.SrdPass
import CrustSworker.SrdHonest
import CrustSworker.JsonLayout
import CrustSworker.UnsealRound
import CrustSworker.Attestation
import CrustSworker.SrdReserve
import CrustSworker.ReportLoop
