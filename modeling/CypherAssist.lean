import CypherAssist.Completion.Resolve
import CypherAssist.Completion.Words
import CypherAssist.Document.Diagnostic
import CypherAssist.Document.Highlight
import CypherAssist.Document.Navigation
import CypherAssist.Proofs.Completion.AliasSlot
import CypherAssist.Proofs.Completion.Continuation
import CypherAssist.Proofs.Completion.Drawing
import CypherAssist.Proofs.Completion.FollowUp
import CypherAssist.Proofs.Completion.LabelSlot
import CypherAssist.Proofs.Completion.LetterCase
import CypherAssist.Proofs.Completion.Scope
import CypherAssist.Proofs.Completion.Typing
import CypherAssist.Proofs.Completion.Words
import CypherAssist.Proofs.Document.Coverage
import CypherAssist.Proofs.Document.Diagnostics
import CypherAssist.Proofs.Document.Encoding
import CypherAssist.Proofs.Document.Joining
import CypherAssist.Proofs.Document.LastToken
import CypherAssist.Proofs.Document.Prefix
import CypherAssist.Proofs.Document.Renaming
import CypherAssist.Proofs.Grammar.Agreement
import CypherAssist.Proofs.Grammar.Genuine
import CypherAssist.Proofs.Grammar.NullTest
import CypherAssist.Proofs.Grammar.Plain
import CypherAssist.Proofs.Grammar.RulePath
import CypherAssist.Proofs.Grammar.Termination
import CypherAssist.Proofs.Grammar.Window
import CypherAssist.Proofs.Schema.Shape
import CypherAssist.Proofs.Schema.Watching
import CypherAssist.Proofs.Session.Saving
import CypherAssist.Proofs.Token.Cutting
import CypherAssist.Proofs.Token.Munch
import CypherAssist.Proofs.Token.Partition
import CypherAssist.Proofs.Token.Position
import CypherAssist.Schema.Store
import CypherAssist.Yaml.Loader
