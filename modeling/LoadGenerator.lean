import LoadGenerator.Main
import LoadGenerator.Scalar.Rational
import LoadGenerator.Scenario.Rehearsal
import LoadGenerator.Http.Pool
import LoadGenerator.Proofs.Run.Reach
import LoadGenerator.Proofs.Run.Standing
import LoadGenerator.Proofs.Run.Moves
import LoadGenerator.Proofs.Run.Steps
import LoadGenerator.Proofs.Run.Local
import LoadGenerator.Proofs.Run.Deadline
import LoadGenerator.Proofs.Load.Pacing
import LoadGenerator.Proofs.Run.Schedule
import LoadGenerator.Proofs.Run.Parking
import LoadGenerator.Proofs.Data.SortedMap
import LoadGenerator.Proofs.Metrics.Ledger
import LoadGenerator.Proofs.Run.Works
import LoadGenerator.Proofs.Run.Tally
import LoadGenerator.Proofs.Run.Balance
import LoadGenerator.Proofs.Metrics.Bucket
import LoadGenerator.Proofs.Metrics.Histogram
import LoadGenerator.Proofs.Metrics.Recency
import LoadGenerator.Proofs.Run.Interleaving
import LoadGenerator.Proofs.Run.Waking
import LoadGenerator.Proofs.Run.Chronicle
import LoadGenerator.Proofs.Number.Ordered
import LoadGenerator.Proofs.Guard.Latches
import LoadGenerator.Proofs.Metrics.Untracked
import LoadGenerator.Proofs.Run.Shedding
import LoadGenerator.Proofs.Text.Bytes
import LoadGenerator.Proofs.Text.Numeral
import LoadGenerator.Proofs.Data.Csv
import LoadGenerator.Proofs.Json.Path
import LoadGenerator.Proofs.Http.Url
import LoadGenerator.Proofs.Http.Pool
import LoadGenerator.Proofs.Scenario.Exchange
import LoadGenerator.Proofs.Scenario.Outcome
import LoadGenerator.Proofs.Run.Visits
import LoadGenerator.Proofs.Scenario.Cookies
import LoadGenerator.Proofs.Scenario.Placeholders
import LoadGenerator.Proofs.Plan.Reading
import LoadGenerator.Proofs.Number.Fraction
import LoadGenerator.Proofs.Plan.Runnable
import LoadGenerator.Proofs.Plan.Accepted
import LoadGenerator.Proofs.Plan.Watching
import LoadGenerator.Proofs.Run.Starts
import LoadGenerator.Proofs.Run.Target
import LoadGenerator.Proofs.Run.Evenness
import LoadGenerator.Proofs.Run.Resting
import LoadGenerator.Proofs.Data.Table
import LoadGenerator.Proofs.Plan.Broadcast
import LoadGenerator.Proofs.Plan.Reloading
import LoadGenerator.Proofs.Guard.Readings
import LoadGenerator.Proofs.Metrics.Slots
import LoadGenerator.Proofs.Metrics.Sampling
import LoadGenerator.Proofs.Run.Rounds
import LoadGenerator.Proofs.Run.Steady
import LoadGenerator.Proofs.Run.Shares
import LoadGenerator.Proofs.Data.Lines
import LoadGenerator.Proofs.Number.Nearest
import LoadGenerator.Proofs.Number.Decoding
import LoadGenerator.Proofs.Number.Rounds
import LoadGenerator.Proofs.Number.Literal
import LoadGenerator.Proofs.Number.Comparing
import LoadGenerator.Proofs.Number.Whole
import LoadGenerator.Proofs.Plan.Durations
import LoadGenerator.Proofs.Plan.Conversions
import LoadGenerator.Proofs.Guard.Rearming
import LoadGenerator.Proofs.Data.ByteOrderMark
import LoadGenerator.Proofs.Scenario.Expiry
import LoadGenerator.Proofs.Scenario.Headers
import LoadGenerator.Proofs.Load.Curves
import LoadGenerator.Proofs.Scenario.Selection
import LoadGenerator.Proofs.Data.Dealing
import LoadGenerator.Proofs.Scenario.Agreement
import LoadGenerator.Proofs.Guard.Polling
import LoadGenerator.Proofs.Http.HostCap
import LoadGenerator.Proofs.CommandLine
import LoadGenerator.Proofs.Guard.Detecting
import LoadGenerator.Proofs.Metrics.Decisions
import LoadGenerator.Proofs.Metrics.Partition
