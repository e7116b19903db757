import Scaffold.Console.Table
import Scaffold.Project.Config
import Scaffold.Project.Generation
import Scaffold.Template.Package
import Scaffold.CommandLine.Command
import Scaffold.CommandLine.Create
import Scaffold.CommandLine.Run
import Scaffold.Proofs.Project.Isolation
import Scaffold.Proofs.Erasure.Words
import Scaffold.Proofs.Erasure.Clauses
import Scaffold.Proofs.Erasure.Spacing
import Scaffold.Proofs.Erasure.Counting
import Scaffold.Proofs.Erasure.Properties
import Scaffold.Proofs.Erasure.Plain
import Scaffold.Proofs.Erasure.Carrying
import Scaffold.Proofs.Project.Documents
import Scaffold.Proofs.Edit.Meeting
import Scaffold.Proofs.Edit.CallRemoval
import Scaffold.Proofs.Edit.Switching
import Scaffold.Proofs.Edit.Exactness
import Scaffold.Proofs.Edit.Entries
import Scaffold.Proofs.Edit.NamedImports
import Scaffold.Proofs.Files.Following
import Scaffold.Proofs.Project.Footprint
import Scaffold.Proofs.Project.Pruning
import Scaffold.Proofs.Project.Failing
import Scaffold.Proofs.Files.Copying
import Scaffold.Proofs.Project.Generating
import Scaffold.Proofs.Project.References
import Scaffold.Proofs.Project.Remaining
import Scaffold.Proofs.Project.Rerunning
import Scaffold.Proofs.Project.Touching
import Scaffold.Proofs.Project.Replacing
import Scaffold.Proofs.CommandLine.Creating
import Scaffold.Proofs.Edit.Configs
import Scaffold.Proofs.Project.Scripts
import Scaffold.Proofs.Project.Stamping
import Scaffold.Proofs.Project.Repeating
import Scaffold.Proofs.Erasure.MemberNames
import Scaffold.Proofs.Text.Selection
import Scaffold.Proofs.CommandLine.Choosing
import Scaffold.Proofs.Syntax.Characters
import Scaffold.Proofs.Erasure.Encoding
import Scaffold.Proofs.Edit.Encoding
import Scaffold.Proofs.Edit.CleanTexts
