import ScriptTree.Pipeline
import ScriptTree.Session
import ScriptTree.Trace
import ScriptTree.Toml.Document
import ScriptTree.Proofs.Convergence
import ScriptTree.Proofs.Counting
import ScriptTree.Proofs.FoldCongruence
import ScriptTree.Proofs.PathCopying
import ScriptTree.Proofs.Structure
import ScriptTree.Proofs.State
import ScriptTree.Proofs.Substitution
import ScriptTree.Proofs.Replacement
import ScriptTree.Proofs.PassEffect
import ScriptTree.Proofs.Validation
import ScriptTree.Proofs.Survival
import ScriptTree.Proofs.Jumps
import ScriptTree.Proofs.Agreement
import ScriptTree.Proofs.PassConfluence
import ScriptTree.Proofs.Resolution
import ScriptTree.Proofs.RenameCommutes
import ScriptTree.Proofs.Report
import ScriptTree.Proofs.Generators
import ScriptTree.Proofs.TraceLog
import ScriptTree.Proofs.Identifiers
import ScriptTree.Proofs.References
import ScriptTree.Proofs.TemplateRendering
import ScriptTree.Proofs.RenameChains
import ScriptTree.Proofs.Sharing
import ScriptTree.Proofs.Locality
