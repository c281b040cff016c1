import Mold.Lib.StableSort
import Mold.Lib.BitField
import Mold.Lib.WordMemory
import Mold.Lib.DepthFirst
import Mold.Lib.Memory
import Mold.Lib.Loop
import Mold.Lib.Takeover
import Mold.Lib.Uleb128
import Mold.MachO.RebaseOpcodes
import Mold.MachO.BindOpcodes
import Mold.MachO.LiteralPointers
import Mold.MachO.LiteralInsertion
import Mold.MachO.LiteralAlignment
import Mold.MachO.CompactUnwind
import Mold.MachO.CompactUnwindCorrect
import Mold.MachO.DataInCode
import Mold.MachO.DataInCodeCorrect
import Mold.MachO.Symbol
import Mold.MachO.Resolution
import Mold.MachO.ResolutionAgree
import Mold.MachO.DylibOrder
import Mold.MachO.Extraction
import Mold.MachO.MarkLive
import Mold.MachO.MarkLiveInvariants
import Mold.MachO.LivenessClosure
import Mold.MachO.Dylibs
import Mold.MachO.DylibOrdinals
import Mold.MachO.DeadStrip
import Mold.MachO.SplitSubsections
import Mold.MachO.WeakDefinitions
import Mold.MachO.OutputSections
import Mold.Lib.LittleEndian
import Mold.Common.Leb128
import Mold.MachO.EhFrameRecords
import Mold.MachO.EhFrameRecordsCorrect
import Mold.MachO.ExportTrie
import Mold.MachO.ExportTrieConstruct
import Mold.MachO.ExportTrieLayout
import Mold.MachO.ExportTrieRoundTrip
import Mold.MachO.ChainedFixups
import Mold.MachO.ChainedFixupsWalk
import Mold.Lib.KeyedList
import Mold.MachO.ChainedImports
import Mold.MachO.ChainedImportsDecode
import Mold.MachO.ScanRelocations
import Mold.Lib.Tiling
import Mold.MachO.Symtab
import Mold.MachO.SymtabNumbering
import Mold.MachO.SymtabPartition
import Mold.MachO.IndirectSymtab
import Mold.Lib.Excision
import Mold.MachO.EhFrame
import Mold.MachO.EhFrameOffsets
import Mold.MachO.UnwindInfo
import Mold.MachO.LazyBinding
import Mold.MachO.LazyBindingAgree
import Mold.Lib.InOrder
import Mold.MachO.AutolinkOrder
import Mold.Lib.Layout
import Mold.MachO.Layout
import Mold.MachO.LayoutAgreement
import Mold.MachO.UnwindAddresses
import Mold.Lib.BinarySearch
import Mold.MachO.UnwindEncode
import Mold.MachO.UnwindRecords
import Mold.MachO.UnwindLookup
import Mold.MachO.UnwindLookupCorrect
import Mold.MachO.LoadCommands
import Mold.MachO.LoadCommandsFit
import Mold.MachO.CodeSignature
import Mold.MachO.Rebase
import Mold.Lib.Representatives
import Mold.MachO.Literals
import Mold.MachO.LiteralsMerge
import Mold.Lib.HashTables
import Mold.Elf.Target
import Mold.Elf.Dynsym
import Mold.Elf.DynsymLookup
import Mold.Lib.PackedAddresses
import Mold.Elf.DynamicRelocs
import Mold.Elf.Relr
import Mold.Lib.Interleaving
import Mold.Elf.ResolveSymbols
import Mold.Elf.SectionPieces
import Mold.Elf.SymbolLocations
import Mold.Lib.ParallelMarking
import Mold.Elf.ArchiveExtraction
import Mold.Elf.ExtractionClosure
import Mold.Elf.LinkSymbols
import Mold.Elf.DynrelSlots
import Mold.Elf.DynrelBalance
import Mold.Lib.RelativePointers
import Mold.Elf.SymbolVersions
import Mold.Elf.SymbolVersionsFilled
import Mold.Elf.SymbolVersionsRead
import Mold.Elf.SymbolVersionsProgress
import Mold.Elf.SymbolVersionsAgree
import Mold.Elf.GcSections
import Mold.Elf.GcSectionsMarked
import Mold.Elf.GcSectionsReachable
import Mold.Elf.GcSectionsCorrect
import Mold.Elf.OutputSymtab
import Mold.Elf.SymtabPasses
import Mold.Elf.SymtabPartition
import Mold.Elf.SymtabSlots
import Mold.Elf.SymtabCorrect
import Mold.Elf.RelocSection
import Mold.Elf.RelocSectionCorrect
import Mold.Elf.ProgramHeaders
import Mold.Elf.OutputLayout
import Mold.Elf.LayoutAddresses
import Mold.Elf.LayoutApart
import Mold.Elf.LayoutOffsets
import Mold.Elf.LayoutCorrect
import Mold.MachO.SplitFile
import Mold.MachO.RelocSpans
import Mold.MachO.SplitSection
import Mold.MachO.SplitPieces
import Mold.MachO.SplitSymbols
import Mold.MachO.SplitCorrect
import Mold.MachO.SubsectionLookup
import Mold.MachO.FindSubsection
import Mold.MachO.ReadRelocations
import Mold.MachO.ReadRelocationsCorrect
import Mold.Lib.Displacement
import Mold.Elf.ThunkPlacement
import Mold.Elf.ThunkBranches
import Mold.Elf.ThunksAgree
import Mold.Elf.RelocatableSections
import Mold.Lib.OptionTraverse
import Mold.Elf.RelocatableGroups
import Mold.Lib.A64
import Mold.MachO.Arm64Stubs
import Mold.MachO.Arm64StubsCorrect
import Mold.MachO.ApplyReloc
import Mold.MachO.ApplyRelocCorrect
import Mold.MachO.ObjcImageInfo
import Mold.MachO.DylibExports
import Mold.Common.ConcurrentMap
import Mold.Common.ConcurrentMapCorrect
import Mold.MachO.Tbd
import Mold.Common.GlobLanguage
import Mold.Common.ArchiveFile
import Mold.Common.ArchiveWalk
import Mold.Common.ArchiveIndex
import Mold.Common.ArchiveFormat
import Mold.Common.ArchiveThin
import Mold.Common.ArchiveMembers
import Mold.Lib.BreadthFirst
import Mold.Lib.LongestSuffix
import Mold.Common.MultiGlob
import Mold.Common.MultiGlobLinks
import Mold.Common.MultiGlobPatterns
import Mold.Common.MultiGlobFind
import Mold.Elf.ScriptTokens
import Mold.Elf.VersionScript
import Mold.Elf.VersionPatterns
import Mold.MachO.Yaml
import Mold.MachO.YamlTokens
import Mold.MachO.YamlTotal
import Mold.MachO.YamlPrint
import Mold.MachO.YamlPrintTokens
import Mold.MachO.YamlRoundTrip
import Mold.Lib.DeltaCode
import Mold.MachO.FunctionStarts
import Mold.Lib.Rv64
import Mold.Elf.RiscvImmediates
import Mold.Elf.RiscvArithmetic
import Mold.Elf.RiscvShrink
import Mold.Elf.RiscvSymbols
import Mold.Lib.Bisimulation
import Mold.Elf.IcfPropagate
import Mold.Elf.PieceReferences
import Mold.Common.ConcurrentMapValues
import Mold.Elf.MergedInsert
import Mold.Elf.MergedLayout
import Mold.Elf.MergedDeterminism
import Mold.Elf.SectionOrder
import Mold.Elf.StartStop
import Mold.Lib.StoredBits
import Mold.Elf.Arm32Addends
import Mold.Elf.InPlaceAddends
import Mold.Common.Tar
import Mold.Common.Leb128Codec
import Mold.Elf.SectionSizes
import Mold.Elf.S390xFields
import Mold.Elf.ArmExidx
import Mold.Elf.Sparc64Relocs
import Mold.Elf.Ppc64Calls
import Mold.Elf.Ppc64Opd
import Mold.Lib.Sparc
import Mold.Lib.I386
import Mold.Elf.I386Relocs
import Mold.Elf.I386Scan
import Mold.Elf.I386Relaxations
