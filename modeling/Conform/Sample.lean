import Conform.Attribute
import Conform.Entry
import Conform.Tree.Place
/-!
# A calendar entry

A schema that makes use of every conversion, and a request for it.
-/

namespace Conform.Sample

def hour : Int64 := 3600000

/-- A tree of a named root with leaves at paths, added one after another. -/
def build {P : Type} [Inhabited P] (name : String) (leaves : List (String × P)) : Tree P :=
  leaves.foldl
    (fun tree (text, payload) => ((tree.put? (.parse text) payload).map (·.1)).getD tree)
    (.single ⟨some name, default⟩)

def schema : Schema :=
  build "event" [
    ("when/day", .ofKind .date),
    ("when/start", (Entry.ofKind .time).withOption Zone.optionName (.string "GMT+02:00")),
    ("when/end", .ofKind .time),
    ("title", .ofKind .string),
    ("attachment", .ofKind .binary),
    ("labels", { Entry.ofKind .string with cardinality? := some .set }),
    ("reminders", { Entry.ofKind .time with cardinality? := some .multiset })]

def several (kind : Kind) (values : List Value) : Attribute :=
  ⟨some kind, some .multiset, some (.array values)⟩

/-- A calendar entry on a day, before coercion. -/
def request (day : Int64) : Request :=
  build "event" [
    ("when/day", .number (.integer day)),
    ("when/start", .number (.integer (day + 9 * hour))),
    ("when/end", .number (.integer (day + 10 * hour))),
    ("title", .string "standup"),
    ("attachment", .string "agenda"),
    ("labels", several .string [.string "work", .string "daily", .string "work"]),
    ("reminders", several .number [.integer day, .integer day]),
    ("extra/free", .boolean true)]

end Conform.Sample
