import RvLlvm.Support.Search
import RvLlvm.Support.WordOrder
import RvLlvm.Support.WordDivision
import RvLlvm.IR.ConstantRange
import RvLlvm.IR.ICmpRegion
import RvLlvm.IR.RangeSets
import RvLlvm.IR.RangeDivision
import RvLlvm.IR.SignedDivision
import RvLlvm.IR.RangeArithmetic
import RvLlvm.IR.RangeCasts
import RvLlvm.IR.RangeProducts
import RvLlvm.IR.RoundingDivision
import RvLlvm.IR.NoWrapRegion
import RvLlvm.Elf
import RvLlvm.Lld.Csgorfe
import RvLlvm.Lld.CsgorfePlan
import RvLlvm.Lld.CsgorfeSplit
import RvLlvm.Lld.CsgorfeGroups
import RvLlvm.Lld.CsgorfeOutcome
import RvLlvm.Lld.CsgorfeDenote
import RvLlvm.Lld.CsgorfeCoverage
import RvLlvm.Support.Rv
import RvLlvm.Lld.Link
import RvLlvm.Lld.Relax
import RvLlvm.Lld.RelaxPass
import RvLlvm.Lld.Gp
import RvLlvm.Lld.GpWindow
import RvLlvm.Lld.LinkerScript
import RvLlvm.Lld.Settled
import RvLlvm.Lld.SettledWalk
import RvLlvm.Lld.Writer
import RvLlvm.Lld.GpRange
import RvLlvm.Lld.HiLoGroup
import RvLlvm.Bolt.ProgramHeaders
import RvLlvm.Bolt.HeaderTable
import RvLlvm.JitLink.ElfRiscv
import RvLlvm.Bolt.DataShift
import RvLlvm.Bolt.Relr
import RvLlvm.Bolt.AddressGroups
import RvLlvm.Packer.Loader
import RvLlvm.Packer.LoaderFailure
import RvLlvm.Support.Machine
import RvLlvm.Packer.Lz4Loader
import RvLlvm.Packer.Lz4Decode
import RvLlvm.Packer.Lz4Packer
import RvLlvm.Packer.Lz4Image
import RvLlvm.Bolt.MCInst
import RvLlvm.Bolt.FixBranches
import RvLlvm.Bolt.Exec
import RvLlvm.Bolt.StackMemForward
import RvLlvm.Bolt.ConstLUIReuse
import RvLlvm.Bolt.ConstLUISound
import RvLlvm.Bolt.ConstLUITruth
import RvLlvm.Bolt.IdenticalCodeFolding
import RvLlvm.Bolt.FoldSound
import RvLlvm.Bolt.CallSequenceOutliner
import RvLlvm.Bolt.CallSequenceSound
import RvLlvm.Lld.CsgorfeLabels
import RvLlvm.Lld.CsgorfeHeaders
import RvLlvm.Lld.SymbolAnchors
import RvLlvm.Lld.FinalizeRelax
import RvLlvm.Lld.AndroidPacked
import RvLlvm.Lld.RelrSection
import RvLlvm.Lld.MixedAlign
import RvLlvm.Bolt.TailMerge
import RvLlvm.Bolt.TailMergeSound
import RvLlvm.Bolt.ElimUnusedFuncs
import RvLlvm.CodeGen.DivisionByConstant
import RvLlvm.CodeGen.BuildUDIV
import RvLlvm.CodeGen.SignedDivision
import RvLlvm.CodeGen.BuildSDIV
import RvLlvm.Support.DoWhile
import RvLlvm.Support.MagicDiv
import RvLlvm.Support.OrderedMap
import RvLlvm.Bolt.AddressTranslation
import RvLlvm.Bolt.AddressTranslationBounds
import RvLlvm.Bolt.Fallthroughs
import RvLlvm.Support.SignedWord
import RvLlvm.Support.LowBit
import RvLlvm.CodeGen.MatInt
import RvLlvm.CodeGen.MatIntImpl
import RvLlvm.CodeGen.MatIntSeq
import RvLlvm.CodeGen.MatIntBounds
import RvLlvm.Support.Compact
import RvLlvm.CodeGen.SwitchLowering
import RvLlvm.CodeGen.SwitchClusters
import RvLlvm.CodeGen.SwitchMeaning
import RvLlvm.Support.LongDivision
import RvLlvm.APInt.Divide
import RvLlvm.APInt.KnuthDiv
import RvLlvm.APInt.DivideWords
import RvLlvm.APInt.DivRem
import RvLlvm.APInt.Saturating
import RvLlvm.APInt.Sqrt
import RvLlvm.APInt.NumberTheory
import RvLlvm.APInt.Overflow
import RvLlvm.APInt.Text
import RvLlvm.Packer.Lz4Layout
import RvLlvm.Support.Scatter
import RvLlvm.Support.RvImmediate
import RvLlvm.Mc.AsmBackend
import RvLlvm.Mc.PcrelFixup
import RvLlvm.Lld.ImmediateReloc
import RvLlvm.Bolt.ExtractValue
import RvLlvm.Bolt.StackPushOpt
import RvLlvm.Bolt.CompressJumps
import RvLlvm.Bolt.CompressInst
import RvLlvm.Bolt.ReuseLUIAbsolute
import RvLlvm.Bolt.ReuseLUIRelative
import RvLlvm.Bolt.ReuseLUIAggressive
import RvLlvm.Bolt.GPRelax
import RvLlvm.Bolt.GPRelaxSound
import RvLlvm.Bolt.ReuseLUIAggressiveSound
import RvLlvm.Support.ByteField
import RvLlvm.JitLink.LabelDifference
import RvLlvm.JitLink.RelaxExact
import RvLlvm.JitLink.RelaxTermination
import RvLlvm.Lld.PostLink
import RvLlvm.Lld.PostLinkInstall
import RvLlvm.Support.Splitting
import RvLlvm.Lld.ICF
import RvLlvm.Lld.ICFRound
import RvLlvm.Lld.ICFCongruence
import RvLlvm.Isa.ISAInfo
import RvLlvm.Isa.Closure
import RvLlvm.Isa.ExtString
import RvLlvm.Isa.NormalizedDefined
import RvLlvm.Isa.NormalizedRoundTrip
import RvLlvm.Isa.ArchRoundTrip
import RvLlvm.Isa.Accepted
import RvLlvm.Isa.ArchOrder
import RvLlvm.Isa.ISAStrings
import RvLlvm.Bolt.EntryPoints
import RvLlvm.Bolt.GOTPatch
import RvLlvm.Bolt.DataEmission
import RvLlvm.Bolt.StackAccess
import RvLlvm.Support.Parsing
import RvLlvm.Support.Uleb128
import RvLlvm.Mc.CallFrame
import RvLlvm.Mc.FrameEmitter
import RvLlvm.Mc.FrameSection
import RvLlvm.Mc.LineProgram
import RvLlvm.Mc.LineEmitter
import RvLlvm.Mc.LineTable
import RvLlvm.Mc.StringTableBuilder
import RvLlvm.Support.TailSharing
import RvLlvm.Mc.StringTableLayout
import RvLlvm.KnownBits.Basic
import RvLlvm.KnownBits.AddSub
import RvLlvm.KnownBits.Counts
import RvLlvm.KnownBits.Abs
import RvLlvm.KnownBits.Compare
import RvLlvm.IR.RangeBits
import RvLlvm.Support.LebGroup
import RvLlvm.Codec.Leb128
