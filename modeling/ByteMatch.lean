import ByteMatch.Configuration
import ByteMatch.CharSet.Text
import ByteMatch.ByteSet.Text
import ByteMatch.Instruction.Listing
import ByteMatch.Machine.Install
import ByteMatch.Pattern.Compile
import ByteMatch.Catalog
import ByteMatch.Proofs.CharSet.Graph
import ByteMatch.Proofs.Pattern.Program
import ByteMatch.Proofs.ByteSet.Ranges
import ByteMatch.Proofs.ByteSet.Serial
import ByteMatch.Proofs.CharSet.FileFormat
import ByteMatch.Proofs.CharSet.NormalForm
import ByteMatch.Proofs.Machine.Install
import ByteMatch.Proofs.Machine.Run
import ByteMatch.Proofs.Automaton.Trie
import ByteMatch.Proofs.CharSet.Build
import ByteMatch.Proofs.CharSet.Combination
import ByteMatch.Proofs.CharSet.Sequence
import ByteMatch.Proofs.CharSet.Session
import ByteMatch.Proofs.Instruction.ControlFlow
import ByteMatch.Proofs.Pattern.Assembly.ControlFlow
import ByteMatch.Proofs.Pattern.ControlFlow
import ByteMatch.Proofs.Machine.Loading
import ByteMatch.Proofs.Automaton.TrieLanguage
import ByteMatch.Proofs.CharSet.Ambiguity
import ByteMatch.Proofs.CharSet.CodePoints
import ByteMatch.Proofs.CharSet.Lockstep
import ByteMatch.Proofs.CharSet.Complement
import ByteMatch.Proofs.CharSet.Loaded
import ByteMatch.Proofs.CharSet.Concatenation
import ByteMatch.Proofs.Pattern.Numbering
import ByteMatch.Proofs.Pattern.Guards
import ByteMatch.Proofs.Pattern.Assembly.Disjoint
import ByteMatch.Proofs.Pattern.OwnMarks
import ByteMatch.Proofs.Machine.MarkCount
import ByteMatch.Proofs.Instruction.Loops
import ByteMatch.Proofs.Pattern.Assembly.Plain
import ByteMatch.Proofs.Pattern.Assembly.Loops
import ByteMatch.Proofs.Pattern.Loops
import ByteMatch.Proofs.Pattern.Capacity
import ByteMatch.Proofs.Pattern.Failures
import ByteMatch.Proofs.CharSet.CaseFolding
import ByteMatch.Proofs.Pattern.Traversal
