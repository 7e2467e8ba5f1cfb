import ClassAssembly.Bytes
import ClassAssembly.Search
import ClassAssembly.OffsetTable
import ClassAssembly.Text.ModifiedUtf8
import ClassAssembly.Version
import ClassAssembly.AccessFlags
import ClassAssembly.ClassName
import ClassAssembly.Descriptor.Basic
import ClassAssembly.Descriptor.Parser
import ClassAssembly.Opcode.Basic
import ClassAssembly.Opcode.Table
import ClassAssembly.Text.Printable
import ClassAssembly.Text.Quoted
import ClassAssembly.Error
import ClassAssembly.Step
import ClassAssembly.Instruction
import ClassAssembly.Constant.Basic
import ClassAssembly.Constant.Pool
import ClassAssembly.Hierarchy.Basic
import ClassAssembly.Hierarchy.Assignable
import ClassAssembly.Hierarchy.NearestCommon
import ClassAssembly.VerificationType
import ClassAssembly.StackMap.Entry
import ClassAssembly.ClassFile.Attribute
import ClassAssembly.ClassFile.Basic
import ClassAssembly.Frame.Basic
import ClassAssembly.Frame.Execute
import ClassAssembly.Frame.Compact
import ClassAssembly.Block.Graph
import ClassAssembly.Block.Worklist
import ClassAssembly.Block.Inference
import ClassAssembly.StackMap.Table
import ClassAssembly.Code.Draft
import ClassAssembly.Code.Emission
import ClassAssembly.Code.Label
import ClassAssembly.Code.Switch
import ClassAssembly.Method.Body
import ClassAssembly.Method.Builder
import ClassAssembly.Method.Closing
import ClassAssembly.Assembler
import ClassAssembly.Proofs.Search
import ClassAssembly.Proofs.StepLaws
import ClassAssembly.Proofs.PoolGrowth
import ClassAssembly.Proofs.HierarchyOrder
import ClassAssembly.Proofs.ArrayName
import ClassAssembly.Proofs.AssignableOrder
import ClassAssembly.Proofs.NearestCommon
import ClassAssembly.Proofs.TypeOrder
import ClassAssembly.Proofs.FrameOrder
import ClassAssembly.Proofs.FrameForm
import ClassAssembly.Proofs.Replay
import ClassAssembly.Proofs.CodeWalk
import ClassAssembly.Proofs.BlockPartition
import ClassAssembly.Proofs.BlockCuts
import ClassAssembly.Proofs.Propagation
import ClassAssembly.Proofs.Fixpoint
import ClassAssembly.Proofs.Neutralize
import ClassAssembly.Proofs.EntryFrame
import ClassAssembly.Proofs.TwoPasses
import ClassAssembly.Proofs.LibraryScope
import ClassAssembly.Proofs.RegisteredClasses
import ClassAssembly.Proofs.NameSpelling
import ClassAssembly.Proofs.SoundFrames
import ClassAssembly.Proofs.DeadCode
import ClassAssembly.Proofs.StackMapReader
import ClassAssembly.Proofs.ListedFrames
import ClassAssembly.Proofs.LongCode
import ClassAssembly.Proofs.CodeBytes
import ClassAssembly.Proofs.CodeLayout
import ClassAssembly.Proofs.InstructionBounds
import ClassAssembly.Proofs.DraftOperations
import ClassAssembly.Proofs.DraftHistory
import ClassAssembly.Proofs.EmittedCode
import ClassAssembly.Proofs.Interning
import ClassAssembly.Proofs.StepEnds
import ClassAssembly.Proofs.StackWords
import ClassAssembly.Proofs.BlockRule
import ClassAssembly.Proofs.DraftLedger
import ClassAssembly.Proofs.RecordedFacts
import ClassAssembly.Proofs.SingleEntry
import ClassAssembly.Proofs.MergeOrder
import ClassAssembly.Proofs.CommonClass
import ClassAssembly.Proofs.LeastCommonClass
import ClassAssembly.Proofs.Termination
import ClassAssembly.Proofs.DepthTracking
import ClassAssembly.Proofs.LabelDepths
import ClassAssembly.Proofs.BindingOrder
import ClassAssembly.Proofs.StackBound
import ClassAssembly.Proofs.BuilderCalls
import ClassAssembly.Proofs.MaxStack
import ClassAssembly.Proofs.TextReader
import ClassAssembly.Proofs.TextPieces
import ClassAssembly.Proofs.ClassFileReader
import ClassAssembly.Proofs.FailedOperations
import ClassAssembly.Proofs.FailingRuns
import ClassAssembly.Proofs.UnreachableCode
import ClassAssembly.Proofs.BackedTypes
import ClassAssembly.Proofs.FrameAccount
import ClassAssembly.Proofs.SoundAccount
import ClassAssembly.Proofs.ObjectSites
import ClassAssembly.Proofs.DraftLimits
import ClassAssembly.Proofs.WellFormedFrames
import ClassAssembly.Proofs.FreshObjects
import ClassAssembly.Proofs.PlacedInstructions
import ClassAssembly.Proofs.EmissionWords
import ClassAssembly.Proofs.BuilderRuns
import ClassAssembly.Proofs.ReadableCode
import ClassAssembly.Proofs.KeptConstants
import ClassAssembly.Proofs.CodeReferences
import ClassAssembly.Proofs.AssembledClass
import ClassAssembly.Proofs.DescriptorGrammar
import ClassAssembly.Proofs.ShortestEntry
import ClassAssembly.Proofs.EnoughRoom
import ClassAssembly.Proofs.StringLoading
import ClassAssembly.Proofs.FittingStop
import ClassAssembly.Proofs.OffsetLookup
import ClassAssembly.Proofs.SourceLines
