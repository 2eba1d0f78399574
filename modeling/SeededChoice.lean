import SeededChoice.Decimal.Digits
import SeededChoice.Explorer
import SeededChoice.Operation
import SeededChoice.Proofs.Double.Operations
import SeededChoice.Proofs.Explorer.Decision
import SeededChoice.Proofs.Explorer.Replay
import SeededChoice.Proofs.Explorer.Run
import SeededChoice.Proofs.Floor.Join
import SeededChoice.Proofs.Operation.Atomicity
import SeededChoice.Proofs.Sampler.Agreement
import SeededChoice.Proofs.Sampler.Fidelity
import SeededChoice.Proofs.Stream.Period
import SeededChoice.Proofs.Floor.Bounded
import SeededChoice.Proofs.Distribution.Bounded
import SeededChoice.Proofs.Explorer.Failures
import SeededChoice.Proofs.Explorer.Overrides
import SeededChoice.Proofs.Seed.Expansion
import SeededChoice.Proofs.Explorer.SkippedFloor
import SeededChoice.Proofs.Floor.Filling
import SeededChoice.Proofs.Distribution.Softmax
import SeededChoice.Proofs.Distribution.Mirror
import SeededChoice.Proofs.Distribution.Votes
import SeededChoice.Proofs.Sampler.Scaling
import SeededChoice.Proofs.Sampler.Ranges
import SeededChoice.Proofs.Double.Neighbours
import SeededChoice.Proofs.Double.Overflow
import SeededChoice.Proofs.Sampler.Bounds
import SeededChoice.Proofs.Hash.Injective
import SeededChoice.Proofs.Distribution.Counts
import SeededChoice.Proofs.Floor.Overflow
import SeededChoice.Proofs.Settings.Resolution
import SeededChoice.Proofs.Registry.Labels
import SeededChoice.Proofs.DecisionLog.Summary
import SeededChoice.Proofs.Double.Proportion
import SeededChoice.Proofs.Sampler.FirstPast
import SeededChoice.Proofs.Floor.Termination
