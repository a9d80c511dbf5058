import Skein.CommandLine
import Skein.Expr.Equality
import Skein.Main
import Skein.Proofs.Ending
import Skein.Proofs.Fuel
import Skein.Proofs.Alike
import Skein.Proofs.AlikeMachine
import Skein.Proofs.Agree
import Skein.Proofs.Agree.Machine
import Skein.Proofs.Agree.Native
import Skein.Proofs.Agree.Trampoline
import Skein.Proofs.Agree.Eval
import Skein.Proofs.Evaluation
import Skein.Proofs.DirectRun
import Skein.Proofs.AlikeEnds
import Skein.Proofs.FreshNames
import Skein.Proofs.Simulation
import Skein.Proofs.Simulation.InOrder
import Skein.Proofs.Simulation.Calls
import Skein.Proofs.Simulation.Bindings
import Skein.Proofs.Simulation.Sequences
import Skein.Proofs.Simulation.Loops
import Skein.Proofs.Simulation.Protect
import Skein.Proofs.Simulation.Await
import Skein.Proofs.Simulation.Body
import Skein.Proofs.Rehearsal
import Skein.Proofs.Observed
import Skein.Proofs.Meaning
import Skein.Proofs.Awake
import Skein.Proofs.Frames
import Skein.Proofs.Regime.Eval
import Skein.Proofs.Regime.Stock
import Skein.Proofs.Regime.Everything
import Skein.Proofs.Starting
import Skein.Proofs.Levels
import Skein.Proofs.Faults
import Skein.Proofs.Escaping
import Skein.Proofs.Calling
import Skein.Proofs.Requests
import Skein.Proofs.Rewriting
import Skein.Proofs.Reading
import Skein.Proofs.Expanding
import Skein.Proofs.Apart
import Skein.Proofs.WorkOrder
import Skein.Proofs.Reentry.Evaluation
import Skein.Proofs.Scoping
import Skein.Proofs.Hygiene
import Skein.Proofs.Copying
import Skein.Proofs.LoopHeads
import Skein.Proofs.Misplaced
import Skein.Proofs.Lexing
import Skein.Proofs.PrintedStrings
import Skein.Proofs.Concatenation
import Skein.Proofs.Delivered
import Skein.Proofs.StepLimit
import Skein.Proofs.ShortCircuit
import Skein.Proofs.CountedLoops
import Skein.Proofs.ExactArithmetic
import Skein.Proofs.SameValues
import Skein.Proofs.EndlessTexts
import Skein.Proofs.NestedFrames
import Skein.Proofs.NumberedNames
import Skein.Proofs.EventLoop
import Skein.Proofs.Courses
