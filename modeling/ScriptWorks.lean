import ScriptWorks.Engine.Scripted
import ScriptWorks.Main
import ScriptWorks.Options.Target
import ScriptWorks.Proofs.Checking
import ScriptWorks.Proofs.Compilation.Outcome
import ScriptWorks.Proofs.Manager
import ScriptWorks.Proofs.Config.Accepted
import ScriptWorks.Proofs.Config.Specs
import ScriptWorks.Proofs.Config.Updatable
import ScriptWorks.Proofs.Config.Updates
import ScriptWorks.Proofs.Jsonc.Acceptance
import ScriptWorks.Proofs.Compilation.Placement
import ScriptWorks.Proofs.Resolution
import ScriptWorks.Proofs.Gate.Exclusion
import ScriptWorks.Proofs.Schedule.Freshness
import ScriptWorks.Proofs.Schedule.Stopping
import ScriptWorks.Proofs.Watch.Recompiling
import ScriptWorks.Proofs.Watch.Registry
import ScriptWorks.Proofs.Program.Distinct
import ScriptWorks.Proofs.Program.Inside
import ScriptWorks.Proofs.Compilation.Inputs
import ScriptWorks.Proofs.Checker.Place
import ScriptWorks.Proofs.Checker.Configuration
import ScriptWorks.Proofs.Checker.Readback
import ScriptWorks.Proofs.Diagnostic.Layout
import ScriptWorks.Proofs.Diagnostic.Rendering
import ScriptWorks.Proofs.Config.Selection
import ScriptWorks.Proofs.Path.Resolving
import ScriptWorks.Proofs.Config.Faults
import ScriptWorks.Proofs.Config.Following
import ScriptWorks.Proofs.Config.OptionKeys
import ScriptWorks.Proofs.Program.SourceDir
import ScriptWorks.Proofs.Gate.Forgetting
import ScriptWorks.Proofs.Checker.Inquiry
import ScriptWorks.Proofs.Config.Output
import ScriptWorks.Proofs.Path.Detours
import ScriptWorks.Proofs.Compilation.Pairing
import ScriptWorks.Proofs.Compilation.Again
