import ScriptMinifier.File.Options
import ScriptMinifier.File.Writer
import ScriptMinifier.Minify
import ScriptMinifier.Number.Scan
import ScriptMinifier.Proofs.Accessors
import ScriptMinifier.Proofs.Balance
import ScriptMinifier.Proofs.Calls
import ScriptMinifier.Proofs.Cleanup
import ScriptMinifier.Proofs.Copies
import ScriptMinifier.Proofs.Declared
import ScriptMinifier.Proofs.Entry
import ScriptMinifier.Proofs.Folding
import ScriptMinifier.Proofs.ForHeads
import ScriptMinifier.Proofs.Fusion
import ScriptMinifier.Proofs.IdentifierNames
import ScriptMinifier.Proofs.Jumps
import ScriptMinifier.Proofs.LooseEquality
import ScriptMinifier.Proofs.Marks
import ScriptMinifier.Proofs.NumberText
import ScriptMinifier.Proofs.Opposites
import ScriptMinifier.Proofs.Preservation
import ScriptMinifier.Proofs.Pruning
import ScriptMinifier.Proofs.RadixLiterals
import ScriptMinifier.Proofs.ReadBack
import ScriptMinifier.Proofs.Receivers
import ScriptMinifier.Proofs.Residue
import ScriptMinifier.Proofs.ResultType
import ScriptMinifier.Proofs.Scanning
import ScriptMinifier.Proofs.Silence
import ScriptMinifier.Proofs.StringLiterals
import ScriptMinifier.Proofs.Termination
import ScriptMinifier.Proofs.TreeFiles
import ScriptMinifier.Proofs.TruthPositions
import ScriptMinifier.Proofs.ValueOrder
import ScriptMinifier.Proofs.Values
import ScriptMinifier.Proofs.Walks
import ScriptMinifier.Proofs.Words
import ScriptMinifier.Proofs.WellFormed
import ScriptMinifier.Tree.Build
