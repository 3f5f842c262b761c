import Conform.Entry
import Conform.Tree.Walk
/-!
# Verification of schemas

The options of every leaf are checked, in pre-order, and the first leaf that
does not pass ends the check. Nodes that group others are not checked.
-/

namespace Conform.Schema

/-- Checks the leaves among some nodes, from left to right. -/
def verifyEach (atlas : Atlas) (schema : Schema) : List NodeId → Except Halt Unit
  | [] => .ok ()
  | id :: rest =>
    if schema.isLeaf id then
      match (schema.payload? id).elim (.ok ()) (Entry.verify atlas) with
      | .error halt => .error halt
      | .ok () => verifyEach atlas schema rest
    else verifyEach atlas schema rest

/-- Checks the options of every leaf; a root without children is a leaf. -/
def verify (atlas : Atlas) (schema : Schema) : Except Halt Unit :=
  verifyEach atlas schema (schema.descendants Tree.root)

end Conform.Schema
