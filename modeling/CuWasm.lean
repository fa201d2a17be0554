import CuWasm.Alike
import CuWasm.Batch
import CuWasm.Bench
import CuWasm.Bodies
import CuWasm.Boundary
import CuWasm.Calls
import CuWasm.Canonical
import CuWasm.CheckedLower
import CuWasm.Computation
import CuWasm.Constructors
import CuWasm.CuOp
import CuWasm.Discipline
import CuWasm.Dispatch
import CuWasm.Duration
import CuWasm.Embed
import CuWasm.EntryStack
import CuWasm.EnvFnId
import CuWasm.Frames
import CuWasm.Fuel
import CuWasm.Garbage
import CuWasm.GpuHost
import CuWasm.Handles
import CuWasm.Host
import CuWasm.HostEffect
import CuWasm.HostObjects
import CuWasm.Immediates
import CuWasm.Imports
import CuWasm.Interp
import CuWasm.Instantiation
import CuWasm.Invocations
import CuWasm.Jumps
import CuWasm.LedgerMap
import CuWasm.Lib.AllFrom
import CuWasm.Lib.BlockMove
import CuWasm.Lib.BoundedMap
import CuWasm.Lib.Counters
import CuWasm.Lib.Exit
import CuWasm.Lib.Guarded
import CuWasm.Lib.Interleave
import CuWasm.Lib.LittleEndian
import CuWasm.Lib.Lockstep
import CuWasm.Lib.Window
import CuWasm.LinearMemory
import CuWasm.Lower
import CuWasm.Meaning
import CuWasm.OperandTypes
import CuWasm.Operands
import CuWasm.Overflow
import CuWasm.PanicFree
import CuWasm.Proofs.AcceptProofs
import CuWasm.Proofs.ActivationProofs
import CuWasm.Proofs.AgreeProofs
import CuWasm.Proofs.AlikeProofs
import CuWasm.Proofs.AluProofs
import CuWasm.Proofs.BatchHostProofs
import CuWasm.Proofs.BatchProofs
import CuWasm.Proofs.BodyFitProofs
import CuWasm.Proofs.BodyProofs
import CuWasm.Proofs.BoundaryProofs
import CuWasm.Proofs.BudgetProofs
import CuWasm.Proofs.BulkProofs
import CuWasm.Proofs.CallProofs
import CuWasm.Proofs.CanonicalProofs
import CuWasm.Proofs.CapProofs
import CuWasm.Proofs.CarryProofs
import CuWasm.Proofs.CheckedLowerProofs
import CuWasm.Proofs.CompiledProofs
import CuWasm.Proofs.ComputationProofs
import CuWasm.Proofs.ConfinedProofs
import CuWasm.Proofs.ConstructorProofs
import CuWasm.Proofs.ControlProofs
import CuWasm.Proofs.DisciplineProofs
import CuWasm.Proofs.DispatchProofs
import CuWasm.Proofs.DriverProofs
import CuWasm.Proofs.DurationProofs
import CuWasm.Proofs.EmitProofs
import CuWasm.Proofs.EnterProofs
import CuWasm.Proofs.FinishProofs
import CuWasm.Proofs.FlowProofs
import CuWasm.Proofs.FrameProofs
import CuWasm.Proofs.FuelProofs
import CuWasm.Proofs.FuncWidthProofs
import CuWasm.Proofs.GarbageProofs
import CuWasm.Proofs.GateProofs
import CuWasm.Proofs.GlobalProofs
import CuWasm.Proofs.GrowProofs
import CuWasm.Proofs.HandleProofs
import CuWasm.Proofs.HeightProofs
import CuWasm.Proofs.HostCallProofs
import CuWasm.Proofs.HostObjectProofs
import CuWasm.Proofs.ImmediateProofs
import CuWasm.Proofs.ImportProofs
import CuWasm.Proofs.IntProofs
import CuWasm.Proofs.IndirectProofs
import CuWasm.Proofs.InstructionProofs
import CuWasm.Proofs.InstantiationProofs
import CuWasm.Proofs.InvocationProofs
import CuWasm.Proofs.JumpProofs
import CuWasm.Proofs.KeyProofs
import CuWasm.Proofs.LayoutProofs
import CuWasm.Proofs.LedgerMapProofs
import CuWasm.Proofs.LedgerProofs
import CuWasm.Proofs.LoadedProofs
import CuWasm.Proofs.LowerProofs
import CuWasm.Proofs.MeaningProofs
import CuWasm.Proofs.MemSizeProofs
import CuWasm.Proofs.MemoryProofs
import CuWasm.Proofs.NumericProofs
import CuWasm.Proofs.OpeningProofs
import CuWasm.Proofs.OperandProofs
import CuWasm.Proofs.OperatorProofs
import CuWasm.Proofs.OutcomeProofs
import CuWasm.Proofs.OverflowProofs
import CuWasm.Proofs.PassProofs
import CuWasm.Proofs.PayloadProofs
import CuWasm.Proofs.PinProofs
import CuWasm.Proofs.PlainProofs
import CuWasm.Proofs.PositionProofs
import CuWasm.Proofs.RecordingProofs
import CuWasm.Proofs.ReferenceProofs
import CuWasm.Proofs.RegionProofs
import CuWasm.Proofs.ReleaseProofs
import CuWasm.Proofs.ReturnProofs
import CuWasm.Proofs.RunProofs
import CuWasm.Proofs.RunnerProofs
import CuWasm.Proofs.SeedProofs
import CuWasm.Proofs.SegmentProofs
import CuWasm.Proofs.SimulationProofs
import CuWasm.Proofs.SoundnessProofs
import CuWasm.Proofs.SpinProofs
import CuWasm.Proofs.StepProofs
import CuWasm.Proofs.StructuredProofs
import CuWasm.Proofs.SuspendProofs
import CuWasm.Proofs.TableProofs
import CuWasm.Proofs.TailCallProofs
import CuWasm.Proofs.TailRunProofs
import CuWasm.Proofs.TargetProofs
import CuWasm.Proofs.TransferProofs
import CuWasm.Proofs.TranslateProofs
import CuWasm.Proofs.TrapProofs
import CuWasm.Proofs.ValSliceProofs
import CuWasm.Proofs.ValueProofs
import CuWasm.Proofs.VerifyProofs
import CuWasm.Proofs.WellFormedProofs
import CuWasm.Proofs.WideProofs
import CuWasm.Proofs.WidthProofs
import CuWasm.Proofs.WithinProofs
import CuWasm.Recording
import CuWasm.Run
import CuWasm.Runner
import CuWasm.Seeds
import CuWasm.Segments
import CuWasm.Structured
import CuWasm.Suspend
import CuWasm.Translate
import CuWasm.Traps
import CuWasm.Verify
import CuWasm.Wasm.Heights
import CuWasm.Wasm.Memory
import CuWasm.Wasm.Module
import CuWasm.Wasm.Numeric
import CuWasm.Wasm.Semantics
import CuWasm.Wasm.Soundness
import CuWasm.Wasm.Syntax
import CuWasm.Wasm.TailCalls
import CuWasm.Wasm.Typing
import CuWasm.WellFormed
