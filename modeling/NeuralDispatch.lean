import NeuralDispatch.Driver.Burst
import NeuralDispatch.Driver.Scripted
import NeuralDispatch.Main
import NeuralDispatch.Proofs.Answers
import NeuralDispatch.Proofs.Order
import NeuralDispatch.Proofs.Builder
import NeuralDispatch.Proofs.Growth
import NeuralDispatch.Proofs.Validation
import NeuralDispatch.Proofs.Steps
import NeuralDispatch.Proofs.Finish
import NeuralDispatch.Proofs.DataFlow
import NeuralDispatch.Proofs.Schedule
import NeuralDispatch.Proofs.Assignment
import NeuralDispatch.Proofs.Carving
import NeuralDispatch.Proofs.StepModel
import NeuralDispatch.Proofs.Partition
import NeuralDispatch.Proofs.Refusal
import NeuralDispatch.Proofs.Evaluation
import NeuralDispatch.Proofs.Buffers
import NeuralDispatch.Proofs.Preparation
import NeuralDispatch.Proofs.Compilation
import NeuralDispatch.Proofs.Runs
import NeuralDispatch.Proofs.Portability
import NeuralDispatch.Proofs.Refinement
import NeuralDispatch.Proofs.Calls
import NeuralDispatch.Proofs.Delivery
import NeuralDispatch.Proofs.Padding
import NeuralDispatch.Proofs.Wire
import NeuralDispatch.Proofs.Skeleton
import NeuralDispatch.Proofs.DataCache
import NeuralDispatch.Proofs.Restore
import NeuralDispatch.Proofs.RoundTrip
import NeuralDispatch.Proofs.Seal
import NeuralDispatch.Proofs.Decoded
import NeuralDispatch.Proofs.Reports
import NeuralDispatch.Proofs.Interleaving
import NeuralDispatch.Proofs.Pipeline
import NeuralDispatch.Proofs.Bursts
import NeuralDispatch.Proofs.Relocation
import NeuralDispatch.Proofs.Attempts
import NeuralDispatch.Proofs.SelfContained
import NeuralDispatch.Proofs.Transparency
import NeuralDispatch.Proofs.Revisions
import NeuralDispatch.Proofs.Edits
import NeuralDispatch.Proofs.Payloads
import NeuralDispatch.Proofs.Sources
import NeuralDispatch.Proofs.Representation
import NeuralDispatch.Proofs.Cycles
import NeuralDispatch.Proofs.Writers
import NeuralDispatch.Proofs.Parsing
import NeuralDispatch.Proofs.Records
import NeuralDispatch.Proofs.Canonical
import NeuralDispatch.Proofs.Admission
import NeuralDispatch.Proofs.Confluence
import NeuralDispatch.Proofs.Selection
import NeuralDispatch.Proofs.Cuts
import NeuralDispatch.Proofs.Grouping
import NeuralDispatch.Proofs.Regions
import NeuralDispatch.Proofs.Outputs
import NeuralDispatch.Proofs.Extents
import NeuralDispatch.Proofs.Resubmission
import NeuralDispatch.Proofs.Chain
import NeuralDispatch.Proofs.SelfCheck
