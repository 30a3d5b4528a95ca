import ToFTDS.Lib.MidpointRule
import ToFTDS.Consensus.Safety
import ToFTDS.Consensus.Commands
import ToFTDS.Consensus.NextIndex
import ToFTDS.Consensus.MatchIndex
import ToFTDS.Consensus.Candidacy
import ToFTDS.Consensus.WellFormed
import ToFTDS.Consensus.Handling
import ToFTDS.Consensus.CommitScan
import ToFTDS.Consensus.Stepdown
import ToFTDS.Consensus.Redirects
import ToFTDS.Consensus.Batches
import ToFTDS.Consensus.Repair
import ToFTDS.Consensus.Availability
import ToFTDS.Worker.Wire
import ToFTDS.Worker.Outsiders
import ToFTDS.Worker.KeyValueStore
import ToFTDS.Worker.Service
import ToFTDS.Worker.Replicated
import ToFTDS.Worker.Acknowledged
import ToFTDS.Integral.Accounting
import ToFTDS.Integral.Descriptors
import ToFTDS.Integral.Stream
import ToFTDS.Integral.Results
import ToFTDS.Integral.Accuracy
import ToFTDS.Integral.Balance
import ToFTDS.Integral.Discovery
