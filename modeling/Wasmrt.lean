import Wasmrt.Capi.Boundary
import Wasmrt.Capi.Callbacks
import Wasmrt.Capi.Handles
import Wasmrt.Capi.Process
import Wasmrt.Capi.Value
import Wasmrt.Cli.CommandLine
import Wasmrt.Cli.Digests
import Wasmrt.Cli.GuestArguments
import Wasmrt.Cli.HostFlags
import Wasmrt.Cli.ModeDirectives
import Wasmrt.Cli.Pin
import Wasmrt.Cli.PinModules
import Wasmrt.Cli.VerifyGate
import Wasmrt.Decode.Leb128
import Wasmrt.Decode.Prescan
import Wasmrt.Decode.Reader
import Wasmrt.Decode.TypeBytes
import Wasmrt.Decode.TypeSection
import Wasmrt.Interp.AccessKinds
import Wasmrt.Interp.Accesses
import Wasmrt.Interp.Arithmetic
import Wasmrt.Interp.Bulk
import Wasmrt.Interp.BulkSteps
import Wasmrt.Interp.CallIndirect
import Wasmrt.Interp.Casts
import Wasmrt.Interp.ClauseTables
import Wasmrt.Interp.ControlFlow
import Wasmrt.Interp.ControlRuns
import Wasmrt.Interp.ControlTables
import Wasmrt.Interp.Dispatch
import Wasmrt.Interp.ExceptionRefs
import Wasmrt.Interp.ExpressionEnds
import Wasmrt.Interp.Frame
import Wasmrt.Interp.Handlers
import Wasmrt.Interp.HeapBackstop
import Wasmrt.Interp.HeapInitialisers
import Wasmrt.Interp.HeapSlots
import Wasmrt.Interp.Histories
import Wasmrt.Interp.Integers
import Wasmrt.Interp.Labels
import Wasmrt.Interp.Lanes
import Wasmrt.Interp.LocalInit
import Wasmrt.Interp.Locals
import Wasmrt.Interp.Machine
import Wasmrt.Interp.MemoryAccess
import Wasmrt.Interp.MemoryLimits
import Wasmrt.Interp.Nesting
import Wasmrt.Interp.Numeric
import Wasmrt.Interp.Paths
import Wasmrt.Interp.Plain
import Wasmrt.Interp.ReferenceKinds
import Wasmrt.Interp.References
import Wasmrt.Interp.Session
import Wasmrt.Interp.TailCalls
import Wasmrt.Interp.Tracking
import Wasmrt.Interp.VectorArithmetic
import Wasmrt.Interp.Vectors
import Wasmrt.Library.Aliasing
import Wasmrt.Library.BitFields
import Wasmrt.Library.BlockMove
import Wasmrt.Library.BlockTable
import Wasmrt.Library.ChaCha20
import Wasmrt.Library.Checks
import Wasmrt.Library.DirectoryTree
import Wasmrt.Library.Framing
import Wasmrt.Library.Lanes
import Wasmrt.Library.Leb128
import Wasmrt.Library.Ledger
import Wasmrt.Library.MachineInt
import Wasmrt.Library.Numerals
import Wasmrt.Library.ParentSearch
import Wasmrt.Library.PrefixCode
import Wasmrt.Library.Recognizer
import Wasmrt.Library.Rounding
import Wasmrt.Library.Saturation
import Wasmrt.Library.Sha256
import Wasmrt.Library.StateChecks
import Wasmrt.Library.StateFolds
import Wasmrt.Linker
import Wasmrt.Linker.Calls
import Wasmrt.Module
import Wasmrt.Opcode
import Wasmrt.PackedType
import Wasmrt.Rng
import Wasmrt.Sexpr.Boundaries
import Wasmrt.Sexpr.Exact
import Wasmrt.Sexpr.Lexemes
import Wasmrt.Sexpr.Parser
import Wasmrt.Sexpr.Print
import Wasmrt.Sexpr.Scanners
import Wasmrt.Sexpr.Strings
import Wasmrt.Store.Ceilings
import Wasmrt.Store.ConstEval
import Wasmrt.Store.CrossModule
import Wasmrt.Store.FunctionImports
import Wasmrt.Store.IndexSpaces
import Wasmrt.Store.Instance
import Wasmrt.Store.Instantiate
import Wasmrt.Store.Outcome
import Wasmrt.Store.Pools
import Wasmrt.Store.Reachable
import Wasmrt.Store.Step
import Wasmrt.Store.TableEntries
import Wasmrt.Store.TableImports
import Wasmrt.Store.Value
import Wasmrt.TypeIdentity.Canonical
import Wasmrt.TypeIdentity.Decoded
import Wasmrt.TypeIdentity.GroupKey
import Wasmrt.TypeIdentity.IsoEq
import Wasmrt.TypeIdentity.Registry
import Wasmrt.TypeIdentity.Shape
import Wasmrt.TypeIdentity.StoreTypes
import Wasmrt.Types
import Wasmrt.Validate.ConstExpr
import Wasmrt.Validate.Declarations
import Wasmrt.Validate.Features
import Wasmrt.Validate.Function
import Wasmrt.Validate.Gating
import Wasmrt.Validate.Leaves
import Wasmrt.Validate.Module
import Wasmrt.Validate.Monotone
import Wasmrt.Validate.MutableFields
import Wasmrt.Validate.Nested
import Wasmrt.Validate.Signatures
import Wasmrt.Validate.Subtyping
import Wasmrt.Wasi.Abi
import Wasmrt.Wasi.Attenuation
import Wasmrt.Wasi.Calls
import Wasmrt.Wasi.FailedCalls
import Wasmrt.Wasi.FdTable
import Wasmrt.Wasi.Listings
import Wasmrt.Wasi.Numbers
import Wasmrt.Wasi.PlantedLinks
import Wasmrt.Wasi.Requests
import Wasmrt.Wasi.Resolution
import Wasmrt.Wasi.Walk
import Wasmrt.Wat.FloatLiterals
import Wasmrt.Wat.FloatRounding
import Wasmrt.Wat.FloatSyntax
import Wasmrt.Wat.Floats
import Wasmrt.Wat.IntegerFields
import Wasmrt.Wat.Integers
import Wasmrt.Store.ConstNulls
import Wasmrt.Interp.Termination
import Wasmrt.Library.StackMeasure
import Wasmrt.Library.Grammar
import Wasmrt.Decode.Immediates
import Wasmrt.Decode.Instructions
import Wasmrt.Decode.TypeGrammar
import Wasmrt.Decode.Sections
import Wasmrt.Decode.SectionBytes
import Wasmrt.Decode.Module
import Wasmrt.Decode.Decoded
import Wasmrt.Library.Writing
import Wasmrt.Wat.Assembled
import Wasmrt.Wat.TypeEntries
