import Cctools.Theory.Leb128
import Cctools.Theory.Transducer
import Cctools.Theory.WeakOrder
import Cctools.Theory.OrderedMap
import Cctools.Theory.BitField
import Cctools.Theory.Chains
import Cctools.LinkEdit.ByteStream
import Cctools.LinkEdit.Segments
import Cctools.LinkEdit.Rebase
import Cctools.Machochecker.Rebase
import Cctools.LinkEdit.RebasePasses
import Cctools.LinkEdit.RebaseRoundTrip
import Cctools.LinkEdit.Bind
import Cctools.LinkEdit.BindMachine
import Cctools.LinkEdit.BindPasses
import Cctools.LinkEdit.BindTrace
import Cctools.LinkEdit.SegmentCommands
import Cctools.Otool.Leb128
import Cctools.Otool.DyldBindInfo
import Cctools.LinkEdit.BindStates
import Cctools.LinkEdit.WeakBind
import Cctools.LinkEdit.Threaded
import Cctools.LinkEdit.ThreadedOrdinals
import Cctools.LinkEdit.ThreadedPointers
import Cctools.LinkEdit.ThreadedChains
import Cctools.LinkEdit.LazyBind
import Cctools.MachO.ExportsTrie
import Cctools.MachO.TrieInsert
import Cctools.Theory.Loop
import Cctools.As.Relax
import Cctools.As.RelaxEnds
import Cctools.As.I386
import Cctools.As.LayoutEnds
import Cctools.As.Convert
import Cctools.As.Consistent
import Cctools.OutputFile.InstructionStores
import Cctools.OutputFile.ArmDecode
import Cctools.OutputFile.InstructionTargets
import Cctools.Theory.BitMemory
import Cctools.OutputFile.ChainedFixups
import Cctools.OutputFile.ChainLinks
import Cctools.OutputFile.ChainWalks
import Cctools.OutputFile.ChainedImports
import Cctools.OutputFile.ImportsLossless
import Cctools.OutputFile.FixupPlans
import Cctools.OutputFile.FixupAgreement
import Cctools.Theory.Bytes
import Cctools.Lipo.Fat
import Cctools.Lipo.FatRoundTrip
import Cctools.Resolver.Collision
import Cctools.Resolver.ContentTable
import Cctools.Resolver.SymbolTable
import Cctools.Resolver.Survivors
import Cctools.Theory.Knockout
import Cctools.Resolver.PickOrder
import Cctools.Read.Statements
import Cctools.Read.Conditionals
import Cctools.WriteObject.SymbolTable
import Cctools.PseudoSet.Assignments
import Cctools.PseudoSet.Values
import Cctools.Scrub.NextChar
import Cctools.Scrub.Agreement
import Cctools.Include.Reader
import Cctools.Include.Transparent
import Cctools.Theory.Bisimilarity
import Cctools.Dedup.CodeDedup
import Cctools.Dedup.Comparison
import Cctools.Dedup.Pass
import Cctools.Theory.Reachability
import Cctools.DeadStrip.MarkLive
import Cctools.DeadStrip.LeastLive
import Cctools.Expr.Operand
import Cctools.Theory.Precedence
import Cctools.Expr.Literals
import Cctools.Expr.Precedence
import Cctools.Libstuff.CheckObject
import Cctools.Libstuff.CopySymbolInfo
import Cctools.Archive.Members
import Cctools.Archive.TableOfContents
import Cctools.Archive.Readers
import Cctools.Archive.Writeout
import Cctools.Archive.TocWritten
import Cctools.Archive.LongHeader
import Cctools.Archive.TocCorrect
import Cctools.Archive.MemberNames
import Cctools.Symtab.Entries
import Cctools.Symtab.Lists
import Cctools.Symtab.Indexes
import Cctools.Symtab.Agreement
import Cctools.Lipo.SlicesInside
import Cctools.Scrub.LineCount
import Cctools.As.Hash
import Cctools.Read.DumpLoad
import Cctools.Read.ExpandMacro
import Cctools.Input.NextBuffer
import Cctools.WriteObject.Relocations
import Cctools.Expr.ExactLiterals
import Cctools.As.Fold
import Cctools.As.VariableSizes
import Cctools.As.LineTable
import Cctools.Libstuff.FatWriteout
import Cctools.Libstuff.Overlap
import Cctools.Libstuff.CheckMachO
import Cctools.CodeDirectory.Object
import Cctools.CodeDirectory.Setters
import Cctools.LinkEdit.StringPool
import Cctools.Order.FollowOn
import Cctools.Order.Chains
import Cctools.Order.Clusters
import Cctools.Order.Misplaced
import Cctools.Order.Override
import Cctools.Order.Ending
import Cctools.Order.Comparer
import Cctools.Order.AliasComparer
import Cctools.Order.MoveToData
import Cctools.Order.DoPass
import Cctools.Archive.Loading
import Cctools.Archive.LoadedOnce
import Cctools.Archive.LoadInvariant
import Cctools.Archive.ManyMembers
import Cctools.Theory.Walk
import Cctools.Archive.Walkers
import Cctools.Archive.WalkersAgree
import Cctools.Archive.SpecificMember
import Cctools.Archive.CheckToc
import Cctools.MachO.TrieDuplicates
import Cctools.Theory.Layout
import Cctools.MachO.TrieOffsets
import Cctools.MachO.TrieNodes
import Cctools.Theory.Descent
import Cctools.MachO.ParseTrie
import Cctools.MachO.TrieSafety
import Cctools.Unwind.Pages
import Cctools.Unwind.PageRoom
import Cctools.Unwind.PagesFit
import Cctools.Unwind.OnePage
import Cctools.Theory.Counted
import Cctools.LinkEdit.SplitSegV2
import Cctools.LinkEdit.Deltas
import Cctools.LinkEdit.SplitSegV1
import Cctools.LinkEdit.FunctionStarts
import Cctools.LinkEdit.DataInCode
import Cctools.Theory.Gaps
import Cctools.OutputFile.ContentUUID
import Cctools.Otool.Leb128Loops
import Cctools.Read.CopyString
import Cctools.Theory.StrongComponents
import Cctools.Gprof.Dfn
import Cctools.Gprof.Glom
import Cctools.Gprof.Visits
import Cctools.Gprof.Cycles
import Cctools.BranchIslands.Pass
import Cctools.BranchIslands.Placing
import Cctools.BranchIslands.Chains
import Cctools.BranchIslands.Bindings
import Cctools.BranchIslands.Leads
import Cctools.MachO.TrieAdded
import Cctools.MachO.TrieReads
import Cctools.MachO.TrieVisits
import Cctools.MachO.TrieRoundTrip
