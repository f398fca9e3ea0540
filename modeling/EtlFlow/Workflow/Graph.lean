import EtlFlow.Workflow.Object
/-!
# Workflow graphs

The objects of a pipeline in the order in which they were added.  No two have one id.  A graph is sound when every
reference of its records names one of its objects.
-/

namespace EtlFlow.Workflow

/-! ### Errors -/

/-- Why objects make no pipeline. -/
inductive Error where
  | duplicate (id : ObjectId)
  | unknownReference (object : ObjectId) (field : String) (target : ObjectId)
  | settings (cause : Settings.Error)
  deriving DecidableEq, Repr

/-- The wording of an error. -/
def Error.message : Error → String
  | .duplicate id => "duplicate workflow object: object id '" ++ id ++ "' is already used"
  | .unknownReference object field target =>
    "workflow object not found: object '" ++ object ++ "' field '" ++ field ++
      "' references unknown object '" ++ target ++ "'"
  | .settings e => "config error: " ++ e.message

/-! ### Graphs -/

/-- Objects with distinct ids. -/
structure Graph where
  objects : List Object := []
  nodup_ids : (objects.map Object.id).Nodup := by simp

namespace Graph

/-- The ids of the objects. -/
def ids (g : Graph) : List ObjectId := g.objects.map Object.id

/-- The graph with one more object. -/
def add (g : Graph) (o : Object) : Except Error Graph :=
  if h : o.id ∈ g.objects.map Object.id then .error (.duplicate o.id)
  else .ok ⟨g.objects ++ [o], by simpa [List.nodup_append, g.nodup_ids] using h⟩

/-- The graph with further objects. -/
def addAll (g : Graph) (os : List Object) : Except Error Graph := os.foldlM add g

/-- The object of an id. -/
def find? (g : Graph) (id : ObjectId) : Option Object := g.objects.find? (·.id == id)

/-- The activity of an id. -/
def activity? (g : Graph) (id : ObjectId) : Option Activity := (g.find? id).bind Object.activity?

/-- The activities, in the order of the objects. -/
def activities (g : Graph) : List Activity := g.objects.filterMap Object.activity?

/-- The graph with its activities changed, not their ids. -/
def mapActivities (g : Graph) (f : Activity → Activity) (h : ∀ a, (f a).id = a.id) : Graph where
  objects := g.objects.map (·.mapActivity f)
  nodup_ids := by
    have : Object.id ∘ (·.mapActivity f) = Object.id := funext (Object.id_mapActivity h)
    simpa [this] using g.nodup_ids

/-- The graph where one activity waits for further ones. -/
def addDependencies (g : Graph) (id : ObjectId) (on : List ObjectId) : Graph :=
  g.mapActivities (fun a => if a.id = id then a.addDependencies on else a)
    fun a => by split <;> simp

/-- The graph where each activity waits for exactly the ones that `waits` names. -/
def setDependencies (g : Graph) (waits : Activity → List ObjectId) : Graph :=
  g.mapActivities (fun a => a.setDependencies (waits a)) fun a => by simp

/-- The records of the objects. -/
def records (g : Graph) : List Record := g.objects.map Object.record

/-- The first reference of a record to no object of the graph. -/
def unknownReference? (g : Graph) (r : Record) : Option Error :=
  r.fields.findSome? fun
    | (key, .reference target) =>
      if target ∈ g.ids then none else some (.unknownReference r.id key target)
    | (_, .text _) => none

/-- Every reference of a record names an object of the graph. -/
def checkReferences (g : Graph) : Except Error Unit :=
  match g.records.findSome? g.unknownReference? with
  | some e => .error e
  | none => .ok ()

/-- The document that the orchestrator takes. -/
def document (g : Graph) : String :=
  (Json.object [("pipelineObjects", .array (g.records.map Record.json))]).pretty

/-- An object is added behind the others. -/
theorem objects_of_add {g g' : Graph} {o : Object} (h : g.add o = .ok g') :
    g'.objects = g.objects ++ [o] := by
  unfold add at h
  split at h
  · simp at h
  · cases h; rfl

end Graph

end EtlFlow.Workflow
