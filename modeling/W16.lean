import W16.Transition
import W16.RecursiveMutex
import W16.Handshake
import W16.HandshakeEffect
import W16.HandshakeInvariant
import W16.CollectionScope
import W16.TransactionList
import W16.LockOwnership
import W16.DeadlockFreedom
import W16.History
import W16.CellMap
import W16.Stm
import W16.Serializability
import W16.EventLoop
import W16.ThreadSum
import W16.EventLoopEvents
import W16.PrivateCopies
import W16.CanonicalReferences
import W16.OwnWrites
import W16.BlockCopy
import W16.RememberedSet
import W16.CellBlocks
import W16.CellBlockWalks
import W16.CellBlockMethods
import W16.CellMapCommit
import W16.Positional
import W16.Bignum
import W16.Contract
import W16.BignumValue
import W16.BignumAddition
import W16.BignumProduct
import W16.BignumCompare
import W16.BignumDivision
import W16.BignumPower
import W16.BignumStrings
import W16.BignumExact
import W16.GapResolver
import W16.GapResolverRun
import W16.GapResolverCycles
import W16.ParallelMove
import W16.LithiumMoves
import W16.GapResolverX64
import W16.GapResolverIa32
import W16.GapResolverIa32Run
import W16.GapResolverIa32Sound
import W16.GapResolverIa32Resolve
import W16.GapResolverArm
import W16.GapResolverArmSound
import W16.Double
import W16.CheckedWords
import W16.FixedDtoa
import W16.FixedDtoaSafe
import W16.RelocInfo
import W16.RelocRoundTrip
import W16.StoreBuffer
import W16.StoreBufferSafe
import W16.StoreBufferRuns
import W16.StoreBufferLevels
import W16.StoreBufferBounds
import W16.LiveRange
import W16.BitFields
import W16.Unallocated
import W16.Simulates
import W16.PointerMaps
import W16.NaturalLoop
import W16.LoopRegistration
import W16.BlockOrder
import W16.BlockIds
import W16.Dominance
import W16.Dominators
import W16.HydrogenFlow
import W16.SideEffects
import W16.ValueMap
import W16.ValueNumbering
import W16.ValueNumberingRuns
import W16.CodeMotion
import W16.CodeMotionRuns
import W16.GlobalValueNumbering
import W16.Translation
import W16.SafepointTable
import W16.Circle
import W16.HashMap
import W16.HashMapOperations
import W16.HashMapRuns
import W16.SplayTree
import W16.SplayTreeOperations
import W16.SplayTreeRuns
import W16.CodeMap
import W16.CodeMapRuns
import W16.DispatchTable
import W16.DispatchTableSound
import W16.DispatchTableRuns
import W16.DeferredActions
import W16.DeferredActionsSound
import W16.Border
import W16.StringSearch
import W16.StringSearchSuffixes
import W16.StringSearchRuns
import W16.RegExpTree
import W16.RegExpMatcher
import W16.RegExpRuns
import W16.RegExpImplements
import W16.RegExpLoops
import W16.RegExpQuantifier
import W16.RegExpScanner
import W16.RegExpBuilder
import W16.Preferences
import W16.RegExpRefines
import W16.RegExpTerms
import W16.RegExpBuilderTerms
import W16.RegExpParses
import W16.Octets
import W16.Utf8
import W16.CharacterStream
import W16.StringBlocks
import W16.StringReadings
import W16.PreparseData
import W16.PreparseDataRuns
import W16.CodeUnits
import W16.Uri
import W16.UriRoundTrip
import W16.ArraySplice
import W16.ArraySpliceEquivalence
import W16.JsonGrammar
import W16.JsonParser
import W16.JsonStrings
import W16.JsonNumbers
import W16.JsonValues
import W16.JsonQuote
import W16.StringHasher
import W16.ArrayIndices
import W16.StringHashZero
import W16.Nearest
import W16.StringToDouble
import W16.IntDoubleExact
import W16.DoubleRounding
import W16.StringScanner
import W16.StringScannerExact
import W16.DateParser
import W16.DateTimeForm
import W16.DateTokens
import W16.DateParserExact
import W16.DateParserSafe
import W16.Calendar
import W16.DstOffsetCache
import W16.IndexedLists
import W16.ValueSlots
import W16.ValueMapSlots
import W16.ValueMapInserts
import W16.ValueMapKills
import W16.ValueMapRuns
import W16.LiveRangeCaches
import W16.LiveRangeSplits
import W16.UseLists
import W16.PhiElimination
import W16.PhiEliminationRuns
import W16.ReachableSets
import W16.InferRepresentation
import W16.InferRepresentationRuns
import W16.Outcomes
import W16.RegisterAllocator
import W16.RegisterAllocatorSteps
import W16.RegisterAllocatorLists
import W16.RegisterAllocatorRuns
import W16.RegisterAllocatorTermination
import W16.CharacterRanges
import W16.CanonicalRanges
import W16.MergedRanges
import W16.NegatedRanges
import W16.CaseEquivalents
import W16.CharClassCode
import W16.SmiCompare
import W16.EscapeRoundTrip
import W16.ArrayHoles
import W16.Rearrangements
import W16.ArraySort
import W16.ArraySortRuns
import W16.PreparseSanity
import W16.PreparseSanityReaders
import W16.PreparseSanityRuns
