import Offside.Main
import Offside.Node.Equality
import Offside.Node.TreeText
import Offside.Proofs.Diagnostic.Caret
import Offside.Proofs.Grammar.Applications
import Offside.Proofs.Grammar.Brackets
import Offside.Proofs.Grammar.Chains
import Offside.Proofs.Grammar.Content
import Offside.Proofs.Grammar.CorrectPrefix
import Offside.Proofs.Grammar.Groups
import Offside.Proofs.Grammar.Handing
import Offside.Proofs.Grammar.InlineForms
import Offside.Proofs.Grammar.Joining
import Offside.Proofs.Grammar.ObjectLayouts
import Offside.Proofs.Grammar.Offender
import Offside.Proofs.Grammar.ParsedHeight
import Offside.Proofs.Grammar.PrintedTrees
import Offside.Proofs.Grammar.Quoting
import Offside.Proofs.Grammar.SourceErrors
import Offside.Proofs.Layout.Adjacent
import Offside.Proofs.Layout.PrintedSource
import Offside.Proofs.Layout.Reference
import Offside.Proofs.Layout.Tails
import Offside.Proofs.Layout.Trivia
import Offside.Proofs.Lexeme.OneLine
import Offside.Proofs.Node.Equivalence
import Offside.Proofs.Session.Frame
import Offside.Proofs.Source.Numbering
import Offside.Proofs.Token.Literals
import Offside.Proofs.Token.Lossless
import Offside.Proofs.Token.Positions
import Offside.Proofs.Token.Relexing
import Offside.Proofs.Token.Scanning
import Offside.Session
import Offside.Source.Reader
import Offside.Token.Outline
