import EtlFlow.Proofs.Step.Endings
/-!
# The contract of an expansion

Whatever its kind, a step expands to objects that a pipeline can take as they are (`expand_contract`).
Their ids start with the id of the step, its activities carry what the pipeline gives them and wait only
for earlier ones of the step, nothing refers to an object that comes later or that the step was not given,
and every node that later steps read is one of the objects.
-/

namespace EtlFlow.Step

open Outcome Workflow
open Sequence (AtEach)
open Yaml (Value Fields)

variable {k : Kind} {c : Context} {e : Expansion} {a : Activity} {entries : Value.Entries}

/-! ### What activities carry -/

/-- The activity has the schedule, the runner, the retries and the alarm that the step is given. -/
structure Context.Carried (c : Context) (a : Activity) : Prop where
  schedule : a.schedule = c.schedule
  runner : c.runner = some a.runner
  maxRetries : a.maxRetries = c.maxRetries
  retryDelay : a.retryDelay = c.settings.etl.retryDelay
  onFail : a.onFail = c.alarm

@[simp]
theorem carried_withInputs {ids : List ObjectId} : c.Carried (a.withInputs ids) ↔ c.Carried a :=
  ⟨fun h => ⟨h.1, h.2, h.3, h.4, h.5⟩, fun h => ⟨h.1, h.2, h.3, h.4, h.5⟩⟩

@[simp]
theorem carried_withOutput {id : ObjectId} : c.Carried (a.withOutput id) ↔ c.Carried a :=
  ⟨fun h => ⟨h.1, h.2, h.3, h.4, h.5⟩, fun h => ⟨h.1, h.2, h.3, h.4, h.5⟩⟩

@[simp]
theorem carried_withOutputs {ids : List ObjectId} :
    c.Carried (ids.foldl Activity.withOutput a) ↔ c.Carried a := by
  induction ids generalizing a with
  | nil => rfl
  | cons i is ih => rw [List.foldl_cons, ih, carried_withOutput]

@[simp]
theorem carried_addDependency {id : ObjectId} : c.Carried (a.addDependency id) ↔ c.Carried a := by
  unfold Activity.addDependency
  split
  · rfl
  · exact ⟨fun h => ⟨h.1, h.2, h.3, h.4, h.5⟩, fun h => ⟨h.1, h.2, h.3, h.4, h.5⟩⟩

@[simp]
theorem forall_mem_chain {as : List Activity} :
    (∀ a ∈ chain as, c.Carried a) ↔ ∀ a ∈ as, c.Carried a := by
  fun_induction chain as with
  | case1 => rfl
  | case2 a => rfl
  | case3 a b as ih => simp [ih]

@[simp]
theorem carried_made {id : ObjectId} {work : Work} {r : Runner} :
    c.Carried (c.made id work r) ↔ c.runner = some r :=
  ⟨fun h => h.runner, fun h => ⟨rfl, h, rfl, rfl, rfl⟩⟩

theorem Context.Runs.carried {ending : String} (h : c.Runs ending a) : c.Carried a := by
  cases h <;> simp [*]

/-! ### Nodes of the output -/

@[simp]
theorem refs_none : Nodes.none.refs = [] := rfl

@[simp]
theorem refs_single (n : NodeRef) : (Nodes.single n).refs = [n] := rfl

/-- The node that an object is, as later steps see it. -/
def NodeRef.ofObject? : Object → Option NodeRef
  | .store n => some (.ofStore n)
  | .table n => some ⟨n.id, none⟩
  | _ => none

@[simp]
theorem ofObject?_store (n : StoreNode) : NodeRef.ofObject? (.store n) = some (.ofStore n) := rfl

@[simp]
theorem ofObject?_table (n : TableNode) : NodeRef.ofObject? (.table n) = some ⟨n.id, none⟩ := rfl

/-- A command writes the nodes that later steps see. -/
theorem exists_of_mem_refs {s : TransformArguments} {n : NodeRef}
    (h : n ∈ (s.outputNodes c).2.refs) : ∃ m ∈ (s.outputNodes c).1, NodeRef.ofStore m = n := by
  unfold TransformArguments.outputNodes at *
  split at h
  · cases h
  · next houtput =>
      rw [if_neg houtput]
      split at h
      · exact ⟨_, List.mem_cons_self, (List.mem_singleton.mp h).symm⟩
      · obtain ⟨entry, hentry, rfl⟩ := List.mem_map.mp h
        obtain ⟨pair, hpair, rfl⟩ := List.mem_map.mp (Sorted.mem_ofEntries hentry)
        exact ⟨_, List.mem_map_of_mem hpair, rfl⟩

/-! ### All kinds -/

theorem Makes.carried (h : Makes c k e) : ∀ a, .activity a ∈ e.objects → c.Carried a := by
  cases h with
  | command => simp [TransformArguments.made, TransformArguments.run, *]
  | one _ hruns => simp [hruns.carried]
  | @several _ _ as _ hruns =>
    have hcarried : ∀ a ∈ as, c.Carried a := by
      intro a ha
      obtain ⟨ending, hruns⟩ := exists_runs_of_mem hruns a ha
      exact hruns.carried
    simpa using forall_mem_chain.mpr hcarried
  | _ => simp [*]

/-- Each node of the output is an object. -/
theorem Makes.exists_object (h : Makes c k e) :
    ∀ n ∈ e.output.refs, ∃ o ∈ e.objects, NodeRef.ofObject? o = some n := by
  cases h with
  | @command s =>
    intro n hn
    obtain ⟨m, hm, rfl⟩ := exists_of_mem_refs hn
    exact ⟨.store m, by simp [TransformArguments.made, hm], rfl⟩
  | _ => simp

/-! ### The contract -/

/-- What a pipeline takes for granted of what a step expands to. -/
structure Expansion.Contract (c : Context) (e : Expansion) : Prop where
  /-- The activities are noted by their ids, in their order among the objects. -/
  activities : e.activities = (e.objects.filterMap Object.activity?).map Activity.id
  /-- The ids start with the id of the step. -/
  ids : ∀ o ∈ e.objects, ∃ ending, o.id = c.sub ending
  carried : ∀ a, .activity a ∈ e.objects → c.Carried a
  /-- An activity waits only for activities of the step that come before it. -/
  waits : AtEach (fun front a => a.dependsOn ⊆ front.map Activity.id)
    (e.objects.filterMap Object.activity?)
  /-- An object refers only to objects before it and to what the step is given. -/
  references : AtEach (fun front o => o.targets ⊆ front.map Object.id ++ c.supplied) e.objects
  output : ∀ n ∈ e.output.refs, ∃ o ∈ e.objects, NodeRef.ofObject? o = some n

/-- Steps of every kind keep the contract. -/
theorem expand_contract (h : expand k entries c = .ok e) : e.Contract c := by
  have hmakes := expand_makes h
  obtain ⟨endings, hendings⟩ := hmakes.exists_endings
  exact {
    activities := hmakes.sound.activities
    ids := by
      intro o ho
      have hid : o.id ∈ endings.map c.sub := hendings ▸ List.mem_map_of_mem ho
      obtain ⟨ending, _, hending⟩ := List.mem_map.mp hid
      exact ⟨ending, hending.symm⟩
    carried := hmakes.carried
    waits := hmakes.sound.work.atEach.imp fun front a _ ha => by rwa [List.append_nil] at ha
    references := hmakes.sound.objects.atEach
    output := hmakes.exists_object }

/-- A step of a pipeline that reads the database of a shop. -/
def shop : Context where
  id := "take"
  settings := { mysql := [("shop", ⟨"shop.local", "etl", "secret", some "orders", none, none⟩)] }
  files := {}
  baseDirectory := ""
  pipeline := "orders"
  frequency := .daily
  schedule := "DefaultSchedule"
  runner := some (.resource "Ec2Resource")
  imageSeries := none
  warehouse := none
  input := .none
  maxRetries := 3
  alarm := some "FailureAlarm"
  topic := none
  paths := ⟨⟨"etl", "src/", true⟩, ⟨"etl", "data/", true⟩, ⟨"etl", "logs/", true⟩⟩
  checkLogs := ⟨"etl", "qa/", true⟩

theorem expand_contract_shop : ∃ e, expand .extractRds
    [(.string "host_name", .string "shop"), (.string "table", .string "orders")] shop = .ok e ∧
      e.Contract shop ∧ e.activities = ["takeCopy", "take"] := by
  have expands : ((expand .extractRds
      [(.string "host_name", .string "shop"), (.string "table", .string "orders")] shop).toOption.map
        Expansion.activities) = some ["takeCopy", "take"] := by decide +kernel
  obtain ⟨e, he, hactivities⟩ := exists_ok_of_map_toOption expands
  exact ⟨e, he, expand_contract he, hactivities⟩

end EtlFlow.Step
