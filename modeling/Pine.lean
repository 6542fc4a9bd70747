import Pine.Command.FileTree
import Pine.Main
import Pine.Proofs.Command.Targets
import Pine.Proofs.Compile.Brackets
import Pine.Proofs.Compile.Ceiling
import Pine.Proofs.Compile.Keys
import Pine.Proofs.Grammar.Continued
import Pine.Proofs.Grammar.Discipline
import Pine.Proofs.Lowering.Arguments
import Pine.Proofs.Lowering.Guards
import Pine.Proofs.Lowering.History
import Pine.Proofs.Lowering.Persistence
import Pine.Proofs.Lowering.Returns
import Pine.Proofs.Lowering.Scopes
import Pine.Proofs.Lowering.Switch
import Pine.Proofs.Program.Errors
import Pine.Proofs.Program.Reprint
import Pine.Proofs.Script.Literal
import Pine.Proofs.Token.Comment
import Pine.Proofs.Token.JoinedLine
import Pine.Proofs.Token.Levels
import Pine.Proofs.Token.Neighbours
import Pine.Proofs.Token.Tiling
import Pine.Proofs.Tree.Live
