import Conform.Coercion
import Conform.Tree.Lineage
import Conform.Tree.Walk
/-!
# Coercion of requests

A pass walks over a request and brings each leaf to what the schema expects at
the same place; a leaf without a counterpart is left alone. The first leaf that
cannot be coerced ends the walk and what was done before it stays, unless the
pass is made on a copy that is dropped.
-/

namespace Conform

/-- What a coercion is done with besides the schema. -/
structure Settings where
  /-- The zone of times whose entry names none. -/
  zone : Zone
  deriving DecidableEq, Repr, Inhabited

/-- How far a pass has come. -/
structure Pass where
  /-- The number of leaves brought to their entries so far. -/
  coerced : Nat
  halt? : Option Halt
  deriving DecidableEq, Repr

namespace Pass

def fresh : Pass := ⟨0, none⟩

def result (pass : Pass) : Except Halt Unit :=
  match pass.halt? with
  | some halt => .error halt
  | none => .ok ()

end Pass

namespace Schema

/-- The entry for a node of a request, at the same path below the root, with that path. -/
def counterpart? (schema : Schema) (request : Request) (id : NodeId) : Option (Path × Entry) := do
  let path ← request.pathFrom? Tree.root id
  let entry ← schema.payloadAt? path
  return (path, entry)

/-- What becomes of a node's attribute; none for a node that has no entry. -/
def outcome? (atlas : Atlas) (schema : Schema) (zone : Zone) (request : Request) (id : NodeId) :
    Option (Except Halt Attribute) := do
  let (path, entry) ← schema.counterpart? request id
  let held ← request.payload? id
  return entry.conform atlas zone path held

/-- The visitor of a pass: leaves are coerced, all other nodes only lead to leaves. -/
def visit (atlas : Atlas) (schema : Schema) (zone : Zone) (request : Request) (id : NodeId)
    (_depth : Nat) (pass : Pass) : Signal × Request × Pass :=
  if request.isLeaf id then
    match schema.outcome? atlas zone request id with
    | none => (.proceed, request, pass)
    | some (.ok coerced) =>
      (.proceed, request.updatePayload id fun _ => coerced,
        { pass with coerced := pass.coerced + 1 })
    | some (.error halt) => (.stop, request, { pass with halt? := some halt })
  else (.proceed, request, pass)

/-- Coerces the leaves at and below a node, and goes on with a pass. -/
def coerceFrom (atlas : Atlas) (schema : Schema) (zone : Zone) (request : Request) (start : NodeId)
    (pass : Pass) : Ending × Request × Pass :=
  request.revise request.bound start (schema.visit atlas zone) pass

/-- Coerces a request itself: the leaves before one that cannot be coerced stay coerced. -/
def conformInPlace (atlas : Atlas) (schema : Schema) (settings : Settings) (request : Request) :
    Request × Except Halt Unit :=
  let (_, coerced, pass) := schema.coerceFrom atlas settings.zone request Tree.root .fresh
  (coerced, pass.result)

/-- Coerces a request as a whole: where a leaf cannot be coerced it stays as it was. -/
def conform (atlas : Atlas) (schema : Schema) (settings : Settings) (request : Request) :
    Request × Except Halt Unit :=
  match schema.conformInPlace atlas settings request with
  | (coerced, .ok ()) => (coerced, .ok ())
  | (_, .error halt) => (request, .error halt)

end Schema

end Conform
