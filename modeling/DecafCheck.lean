import DecafCheck.Span
import DecafCheck.Syntax.Name
import DecafCheck.Ty
import DecafCheck.Syntax.Node
import DecafCheck.Syntax.Tree
import DecafCheck.Syntax.Build
import DecafCheck.Diagnostic
import DecafCheck.Config
import DecafCheck.Scope
import DecafCheck.Analysis.State
import DecafCheck.Analysis.Scopes
import DecafCheck.Analysis.Hierarchy
import DecafCheck.Analysis.Typing
import DecafCheck.Analysis.Query
import DecafCheck.Scope.Lemmas
import DecafCheck.Proofs.ScopeMerge
import DecafCheck.Proofs.Runs
import DecafCheck.Proofs.OwnScope
import DecafCheck.Proofs.Preparation
import DecafCheck.Proofs.Queries
import DecafCheck.Proofs.Rules
import DecafCheck.Proofs.Typing
import DecafCheck.Proofs.Idempotence
import DecafCheck.Proofs.Acceptance
import DecafCheck.Proofs.Attachment
import DecafCheck.Proofs.Reference
import DecafCheck.Proofs.Resolution
import DecafCheck.Proofs.Sessions
import DecafCheck.Proofs.Coverage
import DecafCheck.Proofs.Stepwise
import DecafCheck.Proofs.Footprint
import DecafCheck.Proofs.Settling
import DecafCheck.Proofs.QueryOrder
import DecafCheck.Proofs.Cycles
import DecafCheck.Proofs.CycleReports
import DecafCheck.Proofs.Termination
import DecafCheck.Proofs.Preserved
import DecafCheck.Proofs.ErrorLimit
import DecafCheck.Proofs.NameBinding
import DecafCheck.Proofs.Forest
import DecafCheck.Proofs.Relaxation
import DecafCheck.Proofs.SpanJoin
import DecafCheck.Proofs.ReportOrder
import DecafCheck.Proofs.Compatibility
import DecafCheck.Proofs.Overrides
import DecafCheck.Proofs.EnclosingClass
import DecafCheck.Proofs.Calls
