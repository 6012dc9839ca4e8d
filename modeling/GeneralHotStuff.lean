import GeneralHotStuff.ThresholdKeys
import GeneralHotStuff.DefinedCalls
import GeneralHotStuff.VoteCollection
import GeneralHotStuff.Agreement
import GeneralHotStuff.FixedProposer
import GeneralHotStuff.RoundRobin
import GeneralHotStuff.ClientReplies
import GeneralHotStuff.AwaitedBlocks
import GeneralHotStuff.MalformedBlocks
import GeneralHotStuff.ProposalHeights
import GeneralHotStuff.CatchUp
import GeneralHotStuff.VerifiableSharing
import GeneralHotStuff.CertificateChecks
import GeneralHotStuff.SentMessages
import GeneralHotStuff.BlockDag
import GeneralHotStuff.FormulaParser
import GeneralHotStuff.BeatOrder
import GeneralHotStuff.PrunedRuns
import GeneralHotStuff.MspRows
import GeneralHotStuff.LazyReduction
import GeneralHotStuff.RuleChanges
import GeneralHotStuff.DecisionLog
import GeneralHotStuff.ThresholdCoin
import GeneralHotStuff.Progress
import GeneralHotStuff.PromiseLoops
import GeneralHotStuff.PromiseAll
import GeneralHotStuff.ThresholdSharing
import GeneralHotStuff.UncheckedCommitments
import GeneralHotStuff.Deliveries
import GeneralHotStuff.TailHeights
