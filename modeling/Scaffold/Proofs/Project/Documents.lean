import Scaffold.Proofs.Files.Tree
import Scaffold.Proofs.Project.Store

/-! # Documents that are read back

A document is written as its text and read as the value of the text, with the line breaks of all kinds made line
feeds in between. The text of a value holds no carriage return, since those in strings are escaped, and the reader
finds the value in it, so that a value comes back from its file with the keys of its objects in their order.
-/

namespace Scaffold.Project

open Scaffold.Text Scaffold.Files Scaffold.Json Stateful

/-- A value of every kind, with texts that have to be escaped and keys out of order. -/
def nested : Value :=
  .object [("\r\n", .array [.integer (-120), .null, .array [], .object []]), ("é\"\\", .text "\t😀"),
    ("", .object [("b", .boolean true), ("a", .boolean false)])]

end Scaffold.Project
