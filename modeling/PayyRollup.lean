import PayyRollup.ConstraintProgram
import PayyRollup.ScalarField
import PayyRollup.SparseTree
import PayyRollup.Chips
import PayyRollup.Gadgets
import PayyRollup.ElementHash
import PayyRollup.Notes
import PayyRollup.UtxoCircuit
import PayyRollup.BatchSoundness
import PayyRollup.BridgeCircuits
import PayyRollup.ValueConservation
import PayyRollup.Aggregation
import PayyRollup.SnarkStatement
import PayyRollup.Recursion
import PayyRollup.Transactions
import PayyRollup.RollupCalls
import PayyRollup.RollupEffects
import PayyRollup.RollupProof
import PayyRollup.PlainProofs
import PayyRollup.SparseOverlay
import PayyRollup.SmirkNode
import PayyRollup.SmirkTree
import PayyRollup.NodeBlocks
import PayyRollup.BlockValidation
import PayyRollup.BlockCommit
import PayyRollup.NodeRecovery
import PayyRollup.NodeAdmission
import PayyRollup.BlockCaches
import PayyRollup.NodeRuns
import PayyRollup.HashChain
import PayyRollup.WeightedQuorums
import PayyRollup.Approvals
import PayyRollup.ApprovalStakes
import PayyRollup.ApprovalQuorums
import PayyRollup.SignatureQuorums
import PayyRollup.ValidatorSets
import PayyRollup.ApprovalDigests
import PayyRollup.CallBacks
import PayyRollup.PaymentLog
import PayyRollup.PaymentEffects
import PayyRollup.RecordedRoots
import PayyRollup.RootHistory
import PayyRollup.BurnLife
import PayyRollup.TokenLedger
import PayyRollup.PayoutSafety
import PayyRollup.RollupV5
import PayyRollup.UpgradePayouts
import PayyRollup.CommittedRuns
import PayyRollup.RollupReverts
import PayyRollup.RecentRoots
import PayyRollup.EndorsementRuns
import PayyRollup.KeyValueStore
import PayyRollup.SmirkValues
import PayyRollup.SmirkCanonicity
import PayyRollup.SparsePairs
import PayyRollup.PrefixRuns
import PayyRollup.SmirkChanges
import PayyRollup.SmirkStorage
import PayyRollup.StorageRoundTrip
import PayyRollup.Mempool
import PayyRollup.CacheAgreement
import PayyRollup.BlockStoreDb
import PayyRollup.BlockStoreIndexes
import PayyRollup.BlockStoreMigration
import PayyRollup.FastSync
import PayyRollup.RingBuffers
import PayyRollup.RootRing
import PayyRollup.BlockStoreRanges
import PayyRollup.CursorPages
import PayyRollup.BlockStorePages
import PayyRollup.TxnPages
import PayyRollup.TxnPaging
import PayyRollup.PendingTxns
import PayyRollup.Sessions
import PayyRollup.BurnSubstitutor
import PayyRollup.SubstitutionCounts
import PayyRollup.BurnTicks
import PayyRollup.BurnPages
import PayyRollup.BurnRuns
import PayyRollup.PaymentLinks
import PayyRollup.CommitStream
import PayyRollup.ProverBatch
import PayyRollup.RollupProver
import PayyRollup.ProverWorker
import PayyRollup.ChainHistory
import PayyRollup.ProverRecovery
import PayyRollup.ProverSynchrony
import PayyRollup.SmirkAtomicity
import PayyRollup.SmirkPaths
import PayyRollup.CacheGaps
import PayyRollup.MempoolBatches
import PayyRollup.ProposalErrors
import PayyRollup.BlockPaging
import PayyRollup.UtxoCompleteness
import PayyRollup.NumericCodec
import PayyRollup.PeerConnections
import PayyRollup.ResourcePool
import PayyRollup.BlockReplay
import PayyRollup.ProofInputs
import PayyRollup.ReadinessMoments
import PayyRollup.StaticQuorums
import PayyRollup.SyncWorker
import PayyRollup.AmountBinding
import PayyRollup.DepositBacking
import PayyRollup.SnapshotSenders
import PayyRollup.SpentNotes
import PayyRollup.NoteUrls
import PayyRollup.StoreKeys
import PayyRollup.SmirkBatches
import PayyRollup.HashBytes
import PayyRollup.GateRows
import PayyRollup.HashCaches
import PayyRollup.NetworkHandler
import PayyRollup.SupplyBacking
import PayyRollup.ValidatorMirror
import PayyRollup.SlowSync
import PayyRollup.StoredBytes
import PayyRollup.ProverRecords
import PayyRollup.SmirkBytes
import PayyRollup.AccountCircuits
import PayyRollup.CircuitCompleteness
import PayyRollup.FaucetForks
import PayyRollup.AtomicTurns
