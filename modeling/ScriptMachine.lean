import ScriptMachine.Main
import ScriptMachine.Proofs.Verify.Decision
import ScriptMachine.Proofs.Machine.Effect
import ScriptMachine.Proofs.Machine.Frames
import ScriptMachine.Proofs.Machine.Transfer
import ScriptMachine.Proofs.Machine.Progress
import ScriptMachine.Proofs.Machine.Safety
import ScriptMachine.Proofs.Machine.Completion
import ScriptMachine.Proofs.Machine.Change
import ScriptMachine.Proofs.Machine.Activation
import ScriptMachine.Proofs.Machine.Discipline
import ScriptMachine.Proofs.Machine.Places
import ScriptMachine.Proofs.Machine.Delivery
import ScriptMachine.Proofs.Machine.Floor
import ScriptMachine.Proofs.Machine.Choice
import ScriptMachine.Proofs.Machine.Callee
import ScriptMachine.Proofs.Machine.Traces
import ScriptMachine.Proofs.Machine.Blindness
import ScriptMachine.Proofs.Machine.Statistics
import ScriptMachine.Proofs.Machine.StackTable
import ScriptMachine.Proofs.Compile.Assembled
import ScriptMachine.Proofs.Compile.Flow
import ScriptMachine.Proofs.Compile.Typed
import ScriptMachine.Proofs.Compile.Verified
import ScriptMachine.Proofs.Compile.Lines
import ScriptMachine.Proofs.Compile.Occurrence
import ScriptMachine.Proofs.Compile.Returns
import ScriptMachine.Proofs.Compile.Hoisting
import ScriptMachine.Proofs.Compile.Slots
import ScriptMachine.Proofs.Compile.Counters
import ScriptMachine.Proofs.Compile.Pools
import ScriptMachine.Proofs.Image.Compiled
import ScriptMachine.Proofs.Image.Truncated
import ScriptMachine.Proofs.Meaning.Agreement
import ScriptMachine.Proofs.Meaning.Anywhere
import ScriptMachine.Proofs.Value.Equality
import ScriptMachine.Proofs.Value.Display
import ScriptMachine.Proofs.Value.Index
import ScriptMachine.Proofs.Value.Insertion
import ScriptMachine.Proofs.Listing.Sections
import ScriptMachine.Proofs.Host.History
