import Bindery.Main
import Bindery.Proofs.Build.Workspace
import Bindery.Proofs.Cell.TemplateText
import Bindery.Proofs.Cell.ViewReference
import Bindery.Proofs.Command.Order
import Bindery.Proofs.Import.Meaning
import Bindery.Proofs.Import.Reference
import Bindery.Proofs.Library.Cycle
import Bindery.Proofs.Library.Packages
import Bindery.Proofs.Library.Text
import Bindery.Proofs.Notebook.LeadingComment
import Bindery.Proofs.Page.Appending
import Bindery.Proofs.Page.Observer
import Bindery.Proofs.Page.Plan
import Bindery.Proofs.Scope.Default
import Bindery.Proofs.Scope.LineBreak
import Bindery.Proofs.Scope.LoopScope
import Bindery.Proofs.Scope.Progress
import Bindery.Proofs.Scope.Setting
import Bindery.Proofs.Token.PropertyName
import Bindery.Proofs.Token.Tiling
