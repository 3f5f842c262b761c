import Conform.Entry
import Conform.Tree.Copy
/-!
# Merging schemas

The union of two schemas. Nodes at the same place must both be leaves of the
same kind and cardinality or both have children, and keep the first schema's
entry. What only one schema has is copied: the first one's children come in
their places, the second one's behind them.
-/

namespace Conform.Schema

def conflict (path : Path) (ours theirs : Entry) : Failure :=
  .mismatch path ours.describe theirs.describe

/-- Checks that two leaves at a path say the same. -/
def checkLeaves (path : Path) (ours theirs : Entry) : Except Failure Unit :=
  if ours.kind?.isNone || theirs.kind?.isNone then .error (.misuse (.untypedLeaf path))
  else if ours.sameShape theirs then .ok ()
  else .error (conflict path ours theirs)

def addEntry (merged : Schema) (into : NodeId) (name : String) (entry : Entry) :
    Except Failure (Schema × NodeId) :=
  match merged.addChild into name entry with
  | (grown, answer) => answer.map fun id => (grown, id)

/-- Adds a copy of a part of another schema as the last child of a node. -/
def graftCopy (source : Schema) (into : NodeId) (merged : Schema) (id : NodeId) :
    Except Failure Schema :=
  match merged.graft into (source.copy id) with
  | (grown, answer) => answer.map fun _ => grown

/-- Adds the children of a row to what was merged into a node. Those that had a counterpart in the
row are left out. -/
def graftRest (other : Schema) (used : List NodeId) (into : NodeId) (merged : Schema)
    (children : List NodeId) : Except Failure Schema :=
  (children.filter fun child => !used.contains child).foldlM (graftCopy other into) merged

/-- Merges two nodes at a path below a node of the merged schema. Their children are merged by
`descend`, below the new node. -/
def mergePair (schema other : Schema) (path : Path) (child counterpart : NodeId) (merged : Schema)
    (into : NodeId) (descend : Schema → NodeId → Except Failure Schema) : Except Failure Schema :=
  let name := schema.title child
  let ours := (schema.payload? child).getD default
  let theirs := (other.payload? counterpart).getD default
  match schema.isLeaf child, other.isLeaf counterpart with
  | true, true => do
    checkLeaves path ours theirs
    let (merged, _) ← addEntry merged into name ours
    return merged
  | false, false => do
    let (merged, id) ← addEntry merged into name ours
    descend merged id
  | _, _ => .error (conflict path ours theirs)

/-- Merges the children of a node of one schema, given with all below them, and those of a node of
another into a node of the merged schema. -/
def mergeChildren (schema other : Schema) : Path → NodeId → List NodeId → Schema → NodeId →
    Forest (NodeId × Node Entry) → Except Failure Schema
  | _, partner, used, merged, into, .nil => graftRest other used into merged (other.children partner)
  | place, partner, used, merged, into, .cons (child, _) below rest => do
    let name := schema.title child
    match other.childNamed? partner name with
    | none =>
      let merged ← graftCopy schema into merged child
      mergeChildren schema other place partner used merged into rest
    | some counterpart =>
      let path := place.append name
      let merged ← mergePair schema other path child counterpart merged into fun merged id =>
        mergeChildren schema other path counterpart [] merged id below
      mergeChildren schema other place partner (used ++ [counterpart]) merged into rest

/-- The union of two schemas, with the root of the first. -/
def merge (schema other : Schema) : Except Failure Schema :=
  let root := ⟨schema.name? Tree.root, (schema.payload? Tree.root).getD default⟩
  mergeChildren schema other .empty Tree.root [] (.single root) Tree.root
    (schema.branches (schema.children Tree.root))

end Conform.Schema
