import EtlFlow.Dependency.Reach
import EtlFlow.Workflow.Activity
/-!
# The order of activities

Which activities wait for which.  `ofActivities` accepts activities with distinct ids that wait only for each
other and never, through others, for themselves; then `order` puts each one behind all that it waits for, and
`reduced` drops what an activity waits for through others anyway.
-/

namespace EtlFlow.Dependency

open Workflow (ObjectId Activity)

/-! ### Errors -/

/-- Why activities have no order. -/
inductive Error where
  | duplicate (id : ObjectId)
  | unknown (activity dependency : ObjectId)
  | cycle (ids : List ObjectId)
  deriving DecidableEq, Repr

/-- The wording of an error. -/
def Error.message : Error → String
  | .duplicate id => "duplicated declaration of activity: " ++ id
  | .unknown activity dependency =>
    "expected dependency not found: activity '" ++ activity ++ "' depends on '" ++ dependency ++
      "' which is not an activity"
  | .cycle ids => "found cyclic references in activity graph: " ++ " -> ".intercalate ids

/-! ### Graphs -/

/-- An activity with what it waits for. -/
structure Node where
  id : ObjectId
  type : String
  dependsOn : List ObjectId
  deriving DecidableEq, Repr

/-- What an activity waits for. -/
def Node.ofActivity (a : Activity) : Node := ⟨a.id, a.work.typeName, a.dependsOn⟩

/-- Activities and what they wait for. -/
structure Dag where
  nodes : List Node := []
  deriving DecidableEq, Repr

namespace Dag

/-- The ids of the activities. -/
def ids (d : Dag) : List ObjectId := d.nodes.map Node.id

/-- What the activity of an id waits for. -/
def before (d : Dag) (id : ObjectId) : List ObjectId :=
  match d.nodes.find? (·.id == id) with
  | some n => n.dependsOn
  | none => []

/-- The activities that wait for the activity of an id. -/
def after (d : Dag) (id : ObjectId) : List ObjectId :=
  (d.nodes.filter (·.dependsOn.contains id)).map Node.id

/-- The activities that end before the activity of an id starts, by name. -/
def ancestors (d : Dag) (id : ObjectId) : List ObjectId :=
  (reached d.before d.ids id).mergeSort (· ≤ ·)

/-- The activities that start after the activity of an id has ended, by name. -/
def descendants (d : Dag) (id : ObjectId) : List ObjectId :=
  (reached d.after d.ids id).mergeSort (· ≤ ·)

/-! ### Building -/

/-- The first activity that waits for something that is no activity, and what that is. -/
def unknown? (d : Dag) : Option (ObjectId × ObjectId) :=
  d.nodes.findSome? fun n => (n.dependsOn.find? (!d.ids.contains ·)).map fun m => (n.id, m)

/-- The activities that wait for each other and for one of them, that one among them. -/
def component (d : Dag) (id : ObjectId) : List ObjectId :=
  let above := d.ancestors id
  let below := d.descendants id
  d.ids.filter fun other => other = id ∨ (above.contains other ∧ below.contains other)

/-- The activities of one circle, by name; none if there is no circle. -/
def cycle? (d : Dag) : Option (List ObjectId) :=
  if d.ids.any fun id => (d.ancestors id).contains id then
    let components := (lastLeftFirst d.before d.ids).map d.component
    some (((components.find? (1 < ·.length)).getD []).mergeSort (· ≤ ·))
  else none

/-- The graph of some activities. -/
def ofActivities (activities : List Activity) : Except Error Dag :=
  let d : Dag := ⟨activities.map Node.ofActivity⟩
  match Sequence.repeated? d.ids with
  | some id => .error (.duplicate id)
  | none =>
    match d.unknown? with
    | some (id, missing) => .error (.unknown id missing)
    | none =>
      match d.cycle? with
      | some ids => .error (.cycle ids)
      | none => .ok d

/-! ### Order and reduction -/

/-- The activities, each one behind all that it waits for. -/
def order (d : Dag) : List ObjectId := lastLeftFirst d.after d.ids

/-- What an activity waits for without what it waits for through others. -/
def reduced (d : Dag) (id : ObjectId) : List ObjectId :=
  let implied := closure d.before d.ids [] ((d.before id).flatMap d.before)
  (d.before id).filter fun dependency => !implied.contains dependency

/-! ### Picture -/

/-- The graph in the DOT language, from left to right. -/
def dot (d : Dag) : String :=
  let vertex (n : Node) (i : Nat) : String :=
    "    " ++ toString i ++ " [label=\"" ++ n.id ++ "\\n" ++ n.type ++ "\"];\n"
  let edge (i : Nat) (dependency : ObjectId) : String :=
    "    " ++ toString (d.ids.idxOf dependency) ++ " -> " ++ toString i ++ ";\n"
  let vertices := d.nodes.zipIdx.map fun (n, i) => vertex n i
  let edges := d.nodes.zipIdx.flatMap fun (n, i) => n.dependsOn.map (edge i)
  "digraph \x7b\n    rankdir=LR;\n" ++ String.join (vertices ++ edges) ++ "\x7d\n"

end Dag

end EtlFlow.Dependency
