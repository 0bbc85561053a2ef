import TigerCompiler.Ast.Syntax
import TigerCompiler.Misc.Error
import TigerCompiler.Misc.ScopedMap
import TigerCompiler.Bind.Binder
import TigerCompiler.Bind.Lexical
import TigerCompiler.Bind.Visit
import TigerCompiler.Bind.Completeness
import TigerCompiler.Bind.Initialisers
import TigerCompiler.Type.Types
import TigerCompiler.Type.TypeChecker
import TigerCompiler.Type.Visit
import TigerCompiler.Type.Termination
import TigerCompiler.Type.Typed
import TigerCompiler.Bind.Renamer
import TigerCompiler.Bind.Uses
import TigerCompiler.Bind.Renaming
import TigerCompiler.Bind.Capture
import TigerCompiler.Task.Order
import TigerCompiler.Misc.Marking
import TigerCompiler.Runtime.Gc
import TigerCompiler.Runtime.MarkSweep
import TigerCompiler.Runtime.Allocation
import TigerCompiler.Misc.Munch
import TigerCompiler.Parse.Scanner
import TigerCompiler.Misc.Escape
import TigerCompiler.Parse.Strings
import TigerCompiler.Parse.Grammar
import TigerCompiler.Parse.Reserved
import TigerCompiler.Misc.Template
import TigerCompiler.Parse.Tweast
import TigerCompiler.Parse.Flatten
import TigerCompiler.Parse.Expansion
import TigerCompiler.Parse.Session
import TigerCompiler.Bind.Redeclaration
import TigerCompiler.Bind.Breaks
import TigerCompiler.Type.Aliases
import TigerCompiler.Type.Checks
import TigerCompiler.Type.Lvalues
import TigerCompiler.Type.Arrays
import TigerCompiler.Type.Records
import TigerCompiler.Misc.FileLibrary
import TigerCompiler.Parse.Declarations
import TigerCompiler.Parse.Import
import TigerCompiler.Type.Nil
import TigerCompiler.Type.ShortCircuit
import TigerCompiler.Parse.ImportFailure
import TigerCompiler.Type.Inversion
import TigerCompiler.Type.LoopVariables
import TigerCompiler.Misc.Blocks
import TigerCompiler.Translate.Translator
import TigerCompiler.Translate.Terminators
import TigerCompiler.Translate.TypeVisitor
import TigerCompiler.Misc.ScopedRuns
import TigerCompiler.Misc.FileLookup
import TigerCompiler.Runtime.Arrays
import TigerCompiler.Parse.Comments
import TigerCompiler.Callgraph.ParentGraph
import TigerCompiler.Astclone.Cloner
import TigerCompiler.Runtime.Strings
import TigerCompiler.Misc.Multimap
import TigerCompiler.Overload.OverTable
import TigerCompiler.Escapes.EscapesVisitor
import TigerCompiler.Escapes.Places
import TigerCompiler.Translate.EscapesCollector
import TigerCompiler.Translate.Lifting
import TigerCompiler.Type.Named
import TigerCompiler.Bind.Frame
import TigerCompiler.Ast.DefaultVisitor
import TigerCompiler.Misc.ErrorLog
import TigerCompiler.Misc.Indent
import TigerCompiler.Ast.PrettyPrinter
import TigerCompiler.Semantics.Store
import TigerCompiler.Semantics.Eval
import TigerCompiler.Translate.Machine
import TigerCompiler.Misc.BlockCode
import TigerCompiler.Translate.Growth
import TigerCompiler.Translate.Linked
import TigerCompiler.Translate.Simulation
import TigerCompiler.Translate.Calls
import TigerCompiler.Translate.Expressions
import TigerCompiler.Translate.Preservation
import TigerCompiler.Semantics.Renaming
import TigerCompiler.Misc.Related
import TigerCompiler.Semantics.Reference
import TigerCompiler.Desugar.DesugarVisitor
import TigerCompiler.Desugar.Worlds
import TigerCompiler.Desugar.Following
import TigerCompiler.Desugar.ForLoops
import TigerCompiler.Desugar.StringComparisons
import TigerCompiler.Desugar.Constructs
import TigerCompiler.Desugar.Preservation
