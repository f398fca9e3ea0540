import EtlFlow.Proofs.Outcome
import EtlFlow.Proofs.Workflow.References
import EtlFlow.Step.Expand
/-!
# The objects of steps

What a step of each kind makes is said once (`Makes`, `expand_makes`), and what all expansions have in
common is told from it by cases.  Most kinds run a program by a single activity or by activities one
after the other (`Context.Runs`); the others make data of their own.

Whatever its kind, a step expands to data and activities of its own and to no resource
(`expand_ownObjects`).
-/

namespace EtlFlow.Step

open Outcome
open Storage (Location)
open Workflow (Activity ObjectId Runner StoreNode Work)
open Yaml (Value Fields)

variable {k : Kind} {c : Context} {e : Expansion} {a : Activity} {ending : String}

/-! ### Activities one after the other -/

section

variable (as : List Activity)

theorem foldl_addActivity (e : Expansion) :
    as.foldl .addActivity e = { e with
      objects := e.objects ++ as.map .activity
      activities := e.activities ++ as.map Activity.id } := by
  induction as generalizing e with
  | nil => simp
  | cons a as ih => simp [ih, Expansion.addActivity]

theorem chained_eq : chained as =
    { objects := (chain as).map .activity, activities := (chain as).map Activity.id } := by
  simp [chained, foldl_addActivity]

@[simp]
theorem objects_chained : (chained as).objects = (chain as).map .activity := by rw [chained_eq]

@[simp]
theorem output_chained : (chained as).output = .none := by rw [chained_eq]

@[simp]
theorem artifacts_chained : (chained as).artifacts = [] := by rw [chained_eq]

end

/-! ### Activities of a step -/

/-- The activity that a step makes for a runner. -/
def Context.made (c : Context) (id : ObjectId) (work : Work) (r : Runner) : Activity where
  id := id
  work := work
  schedule := c.schedule
  runner := r
  maxRetries := c.maxRetries
  retryDelay := c.settings.etl.retryDelay
  onFail := c.alarm

theorem activity_eq_ok_iff {work : Work} :
    c.activity ending work = .ok a ↔ ∃ r, c.runner = some r ∧ c.made (c.sub ending) work r = a := by
  have hrunner (r : Runner) : c.requireRunner = .ok r ↔ c.runner = some r := by
    unfold Context.requireRunner demand refuse
    split <;> simp [*]
  simp only [Context.activity, bind_eq_ok_iff, pure_eq_ok_iff, hrunner]
  rfl

theorem requireWarehouse_eq_ok_iff {x : ObjectId} :
    c.requireWarehouse = .ok x ↔ c.warehouse = some x := by
  unfold Context.requireWarehouse demand refuse
  split <;> simp [*]

theorem mem_input_of_requireStore {input : ObjectId × Location}
    (h : c.requireStore = .ok input) : input.1 ∈ c.input.ids := by
  unfold Context.requireStore at h
  split at h
  · next hinput =>
    cases h
    rw [hinput]
    exact List.mem_cons_self
  · cases h

/-- An activity that runs a job or an executor: it reads only what the step reads, and makes no
data. -/
inductive Context.Runs (c : Context) (ending : String) : Activity → Prop
  | job {text : String} {r : Runner} : c.runner = some r →
      Runs c ending ((c.made (c.sub ending) (.emr [text]) r).withInputs c.input.ids)
  | executor {program : String} {arguments : List String} {ids : List ObjectId} {r : Runner} :
      c.runner = some r → ids ⊆ c.input.ids →
      Runs c ending ((c.made (c.sub ending)
        (.shell { command := some program, arguments, stages := false }) r).withInputs ids)

theorem runs_execute {executor : String} {arguments : List String}
    (h : execute c ending executor arguments = .ok a) : c.Runs ending a := by
  obtain ⟨r, hr, rfl⟩ := activity_eq_ok_iff.mp h
  exact .executor hr (List.nil_subset _)

theorem runs_loadTable {t : Warehouse.Table} {input : ObjectId × Location}
    {o : LoaderOptions} (h : loadTable c ending t input o = .ok a)
    (hinput : c.requireStore = .ok input) : c.Runs ending a := by
  simp only [loadTable, execute, bind_eq_ok_iff, activity_eq_ok_iff, pure_eq_ok_iff] at h
  obtain ⟨_, ⟨r, hr, rfl⟩, rfl⟩ := h
  exact .executor hr (List.cons_subset.mpr ⟨mem_input_of_requireStore hinput, List.nil_subset _⟩)

theorem Context.Runs.id_eq (h : c.Runs ending a) : a.id = c.sub ending := by
  cases h <;> rfl

theorem exists_runs_of_mem {endings : List String} {as : List Activity}
    (h : List.Forall₂ c.Runs endings as) : ∀ a ∈ as, ∃ ending, c.Runs ending a := by
  induction h with
  | nil => exact List.forall_mem_nil _
  | cons hruns _ ih => exact List.forall_mem_cons.mpr ⟨⟨_, hruns⟩, ih⟩

theorem ids_of_runs {endings : List String} {as : List Activity}
    (h : List.Forall₂ c.Runs endings as) : as.map Activity.id = endings.map c.sub := by
  induction h with
  | nil => rfl
  | cons hruns _ ih => rw [List.map_cons, hruns.id_eq, ih, List.map_cons]

/-! ### What steps make -/

/-- The kinds of the steps that copy the rows of a query. -/
def Kind.querying : List Kind := [.extractRds, .extractPostgres]

/-- The kinds of the steps that run a program, once and for no data of their own. -/
def Kind.running : List Kind :=
  [.emrStep, .createLoadRedshift, .upsert, .reload, .createUpdateSql, .primaryKeyCheck,
    .countCheck, .columnCheck, .pipelineDependencies]

/-- The kinds of the steps that run several programs, with the endings of their activities. -/
def Kind.chaining : List (Kind × List String) :=
  [(.loadReloadPk, ["Load", "Reload", "PrimaryKeyCheck"]),
    (.safeCreateLoad, ["CreateStaging", "Load", "Swap"])]

/-- The directory for the output of a step. -/
def Context.output (c : Context) : StoreNode :=
  c.store "Output" (c.paths.data.joinDirectory "output")

/-- The activity that runs a command. -/
def TransformArguments.run (s : TransformArguments) (c : Context) (parts : CommandParts)
    (given : List String) (r : Runner) : Activity :=
  ((s.outputNodes c).1.map (·.id)).foldl Activity.withOutput
    ((c.made (c.sub "") (.shell { parts.shell with arguments := s.inputArguments c ++ given })
      r).withInputs ((s.inputs c).map (·.id) ++ parts.directory.toList.map (·.id)))

/-- A command, its outputs, and the directory of its scripts if there is one. -/
def TransformArguments.made (s : TransformArguments) (c : Context) (parts : CommandParts)
    (given : List String) (r : Runner) : Expansion where
  objects := (parts.directory.toList ++ (s.outputNodes c).1).map .store ++
    [.activity (s.run c parts given r)]
  activities := [(s.run c parts given r).id]
  output := (s.outputNodes c).2
  artifacts := parts.artifacts

/-- What steps of a kind make. -/
inductive Makes (c : Context) : Kind → Expansion → Prop
  /-- A local file, staged. -/
  | file {path n : String} : fileName path = .ok n →
      Makes c .extractLocal
        { objects := [.store (c.store "Output" (c.paths.source.joinFile n))]
          output := .single (.ofStore (c.store "Output" (c.paths.source.joinFile n)))
          artifacts := [⟨c.paths.source.joinFile n, .file path⟩] }
  /-- A place that the arguments name. -/
  | place {s : StoreArguments} {l : Location} : s.location = .ok l →
      Makes c .extractS3
        { objects := [.store (c.store "Output" l)]
          output := .single (.ofStore (c.store "Output" l)) }
  /-- The rows of a query, copied and then cleaned. -/
  | rows {k : Kind} {s : DatabaseSystem} {host : Settings.Host} {name table query : String}
      {copy clean : Activity} {r : Runner} :
      k ∈ Kind.querying → c.runner = some r →
      copy = ((c.made (c.sub "Copy") .copy r).withInputs [c.sub "SqlNode"]).withOutput
        (c.sub "Intermediate") →
      clean = (((c.made (c.sub "") (.shell { command := some cleanUp }) r).withInputs
        [c.sub "Intermediate"]).withOutput (c.sub "Output")).addDependency (c.sub "Copy") →
      Makes c k
        { objects := [.jdbc (s.database (c.sub "Database") host name),
            .query ⟨c.sub "SqlNode", c.schedule, c.sub "Database", table, query⟩,
            .store (c.store "Intermediate" (c.paths.data.joinDirectory "intermediate")),
            .store c.output, .activity copy, .activity clean]
          activities := [copy.id, clean.id]
          output := .single (.ofStore c.output) }
  /-- A table of the warehouse, copied into a directory. -/
  | unload {database : ObjectId} {name mode : String} {options : List String} {r : Runner} :
      c.warehouse = some database → c.runner = some r →
      Makes c .extractRedshift
        { objects := [.table ⟨c.sub "Table", c.schedule, database, name⟩, .store c.output,
            .activity (((c.made (c.sub "") (.load mode options) r).withInputs
              [c.sub "Table"]).withOutput (c.sub "Output"))]
          activities := [c.sub ""]
          output := .single (.ofStore c.output) }
  /-- An input, copied into a table of the warehouse. -/
  | load {database input : ObjectId} {name mode : String} {options : List String} {r : Runner} :
      c.warehouse = some database → input ∈ c.input.ids → c.runner = some r →
      Makes c .loadRedshift
        { objects := [.table ⟨c.sub "Table", c.schedule, database, name⟩,
            .activity (((c.made (c.sub "") (.load mode options) r).withInputs [input]).withOutput
              (c.sub "Table"))]
          activities := [c.sub ""]
          output := .single ⟨c.sub "Table", none⟩ }
  /-- A job with two scripts, or with one, that are staged. -/
  | streaming {s : StreamingArguments} {text : String} {mapper : Artifact}
      {reducer : Option Artifact} {r : Runner} :
      stageFile c s.mapper = .ok mapper → s.reducer.mapM (stageFile c) = .ok reducer →
      c.runner = some r →
      Makes c .emrStreaming
        { objects := [.store c.output,
            .activity (((c.made (c.sub "") (.emr [text]) r).withInputs c.input.ids).withOutput
              (c.sub "Output"))]
          activities := [c.sub ""]
          output := .single (.ofStore c.output)
          artifacts := mapper :: reducer.toList }
  | command {s : TransformArguments} {parts : CommandParts} {given : List String} {r : Runner} :
      s.parts c = .ok parts → c.runner = some r → Makes c .transform (s.made c parts given r)
  /-- A statement, given as text or as a script that is staged. -/
  | statement {s : SqlArguments} {database : ObjectId} {text queue : Option String}
      {script : Option Artifact} {arguments : List String} {r : Runner} :
      c.warehouse = some database → s.content c = .ok (text, script) → c.runner = some r →
      Makes c .sqlCommand
        { objects := [.activity (c.made (c.sub "") (.sql
            { database, text, script := script.map (·.destination), arguments, queue }) r)]
          activities := [c.sub ""]
          artifacts := script.toList }
  | one {k : Kind} {a : Activity} : k ∈ Kind.running → c.Runs "" a →
      Makes c k { objects := [.activity a], activities := [a.id] }
  | several {k : Kind} {endings : List String} {as : List Activity} :
      (k, endings) ∈ Kind.chaining → List.Forall₂ c.Runs endings as → Makes c k (chained as)

theorem transform_eq_ok {s : TransformArguments} (h : transform c s = .ok e) :
    ∃ parts given r, s.parts c = .ok parts ∧ c.runner = some r ∧ e = s.made c parts given r := by
  simp only [transform, bind_eq_ok_iff, activity_eq_ok_iff, pure_eq_ok_iff] at h
  obtain ⟨_, _, given, _, parts, hparts, _, ⟨r, hr, rfl⟩, rfl⟩ := h
  exact ⟨parts, given.flatten, r, hparts, hr, rfl⟩

theorem extractLocal_makes {path : String} (h : extractLocal c path = .ok e) :
    Makes c .extractLocal e := by
  simp only [extractLocal, guard_eq_ok_iff, bind_eq_ok_iff, pure_eq_ok_iff] at h
  obtain ⟨_, _, n, hn, rfl⟩ := h
  exact .file hn

theorem extractStore_makes {s : StoreArguments} (h : extractStore c s = .ok e) :
    Makes c .extractS3 e := by
  simp only [extractStore, bind_eq_ok_iff, pure_eq_ok_iff] at h
  obtain ⟨l, hl, rfl⟩ := h
  exact .place hl

theorem extractDatabase_makes {s : DatabaseSystem} {s' : DatabaseArguments}
    (hk : k ∈ Kind.querying) (h : extractDatabase s c s' = .ok e) :
    Makes c k e := by
  simp only [extractDatabase, bind_eq_ok_iff, activity_eq_ok_iff, pure_eq_ok_iff] at h
  obtain ⟨_, _, host, _, name, _, ⟨table, query⟩, _, _, ⟨r, hr, rfl⟩, _, ⟨r', hr', rfl⟩, rfl⟩ := h
  cases hr.symm.trans hr'
  exact .rows hk hr rfl rfl

theorem extractRedshift_makes {s : TableArguments} (h : extractRedshift c s = .ok e) :
    Makes c .extractRedshift e := by
  simp only [extractRedshift, bind_eq_ok_iff, requireWarehouse_eq_ok_iff, activity_eq_ok_iff,
    pure_eq_ok_iff] at h
  obtain ⟨w, hw, _, ⟨r, hr, rfl⟩, rfl⟩ := h
  exact .unload hw hr

theorem loadRedshift_makes {s : CopyArguments} (h : loadRedshift c s = .ok e) :
    Makes c .loadRedshift e := by
  simp only [loadRedshift, guard_eq_ok_iff, bind_eq_ok_iff, requireWarehouse_eq_ok_iff,
    activity_eq_ok_iff, pure_eq_ok_iff] at h
  obtain ⟨_, input, hinput, w, hw, _, ⟨r, hr, rfl⟩, rfl⟩ := h
  exact .load hw (mem_input_of_requireStore hinput) hr

theorem emrStreaming_makes {s : StreamingArguments} (h : emrStreaming c s = .ok e) :
    Makes c .emrStreaming e := by
  simp only [emrStreaming, bind_eq_ok_iff, guard_eq_ok_iff, activity_eq_ok_iff,
    pure_eq_ok_iff] at h
  obtain ⟨_, _, _, mapper, hmapper, reducer, hreducer, _, ⟨r, hr, rfl⟩, rfl⟩ := h
  exact .streaming hmapper hreducer hr

theorem transform_makes {s : TransformArguments} (h : transform c s = .ok e) :
    Makes c .transform e := by
  obtain ⟨parts, given, r, hparts, hr, rfl⟩ := transform_eq_ok h
  exact .command hparts hr

theorem sqlCommand_makes {s : SqlArguments} (h : sqlCommand c s = .ok e) :
    Makes c .sqlCommand e := by
  simp only [sqlCommand, bind_eq_ok_iff, requireWarehouse_eq_ok_iff, activity_eq_ok_iff,
    pure_eq_ok_iff] at h
  obtain ⟨_, _, w, hw, ⟨text, artifact⟩, hcontent, _, ⟨r, hr, rfl⟩, rfl⟩ := h
  exact .statement hw hcontent hr

theorem emrStep_makes {job : String} (h : emrStep c job = .ok e) : Makes c .emrStep e := by
  simp only [emrStep, bind_eq_ok_iff, guard_eq_ok_iff, activity_eq_ok_iff, pure_eq_ok_iff] at h
  obtain ⟨_, _, _, _, ⟨r, hr, rfl⟩, rfl⟩ := h
  exact .one (by decide) (.job hr)

theorem createLoadRedshift_makes {s : CreateLoadArguments} (h : createLoadRedshift c s = .ok e) :
    Makes c .createLoadRedshift e := by
  simp only [createLoadRedshift, bind_eq_ok_iff, pure_eq_ok_iff] at h
  obtain ⟨_, _, _, hinput, run, hrun, rfl⟩ := h
  exact .one (by decide) (runs_loadTable hrun hinput)

theorem upsert_makes {s : UpsertArguments} (h : upsert c s = .ok e) : Makes c .upsert e := by
  simp only [upsert, bind_eq_ok_iff, pure_eq_ok_iff] at h
  obtain ⟨_, _, _, _, _, _, _, _, run, hrun, rfl⟩ := h
  exact .one (by decide) (runs_execute hrun)

theorem reload_makes {s : ReloadArguments} (h : reload c s = .ok e) : Makes c .reload e := by
  simp only [reload, bind_eq_ok_iff, pure_eq_ok_iff] at h
  obtain ⟨_, _, _, _, _, _, run, hrun, rfl⟩ := h
  exact .one (by decide) (runs_execute hrun)

theorem createUpdateSql_makes {s : RefreshArguments} (h : createUpdateSql c s = .ok e) :
    Makes c .createUpdateSql e := by
  simp only [createUpdateSql, bind_eq_ok_iff] at h
  obtain ⟨_, _, table, _, h⟩ := h
  have hrun : ∃ script run, runScript c "" table script s.analyze s.nonTransactional = .ok run ∧
      Expansion.addActivity {} run = e := by
    split at h
    all_goals
      simp only [bind_eq_ok_iff, guard_eq_ok_iff, pure_eq_ok_iff] at h
      obtain ⟨script, _, _, run, hrun, he⟩ := h
      exact ⟨script, run, hrun, he⟩
  obtain ⟨script, run, hrun, rfl⟩ := hrun
  exact .one (by decide) (runs_execute hrun)

theorem primaryKeyCheck_makes {s : KeyCheckArguments} (h : primaryKeyCheck c s = .ok e) :
    Makes c .primaryKeyCheck e := by
  simp only [primaryKeyCheck, bind_eq_ok_iff, pure_eq_ok_iff] at h
  obtain ⟨_, _, _, _, run, hrun, rfl⟩ := h
  exact .one (by decide) (runs_execute hrun)

theorem countCheck_makes {s : CountCheckArguments} (h : countCheck c s = .ok e) :
    Makes c .countCheck e := by
  simp only [countCheck, bind_eq_ok_iff, pure_eq_ok_iff] at h
  obtain ⟨_, _, _, _, _, _, _, _, run, hrun, rfl⟩ := h
  exact .one (by decide) (runs_execute hrun)

theorem columnCheck_makes {s : ColumnCheckArguments} (h : columnCheck c s = .ok e) :
    Makes c .columnCheck e := by
  simp only [columnCheck, bind_eq_ok_iff, pure_eq_ok_iff] at h
  obtain ⟨_, _, _, _, _, _, _, _, run, hrun, rfl⟩ := h
  exact .one (by decide) (runs_execute hrun)

theorem pipelineDependencies_makes {s : WaitArguments} (h : pipelineDependencies c s = .ok e) :
    Makes c .pipelineDependencies e := by
  simp only [pipelineDependencies, bind_eq_ok_iff, guard_eq_ok_iff, pure_eq_ok_iff] at h
  obtain ⟨_, run, hrun, rfl⟩ := h
  exact .one (by decide) (runs_execute hrun)

theorem loadReloadPk_makes {s : LoadReloadArguments} (h : loadReloadPk c s = .ok e) :
    Makes c .loadReloadPk e := by
  simp only [loadReloadPk, bind_eq_ok_iff, pure_eq_ok_iff] at h
  obtain ⟨_, _, _, _, _, _, _, hinput, load, hload, _, _, reload, hreload, check, hcheck, rfl⟩ := h
  exact .several (by decide) (.cons (runs_loadTable hload hinput) (.cons (runs_execute hreload)
    (.cons (runs_execute hcheck) .nil)))

theorem safeCreateLoad_makes {s : SafeLoadArguments} (h : safeCreateLoad c s = .ok e) :
    Makes c .safeCreateLoad e := by
  simp only [safeCreateLoad, bind_eq_ok_iff, pure_eq_ok_iff] at h
  obtain ⟨_, _, _, _, _, _, _, hinput, create, hcreate, load, hload, _, _, swap, hswap, rfl⟩ := h
  exact .several (by decide) (.cons (runs_execute hcreate) (.cons (runs_loadTable hload hinput)
    (.cons (runs_execute hswap) .nil)))

theorem makes_expandWith {α : Type} {fields : Fields α}
    {expand : Context → α → Except Error Expansion} {entries : Value.Entries}
    (hmakes : ∀ a e, expand c a = .ok e → Makes c k e)
    (h : expandWith fields expand entries c = .ok e) : Makes c k e := by
  obtain ⟨a, _, h⟩ := bind_eq_ok_iff.mp h
  exact hmakes a e h

/-- What a step of each kind makes. -/
theorem Kind.expand_makes {entries : Value.Entries} (h : k.expand entries c = .ok e) :
    Makes c k e := by
  cases k with
  | extractLocal => exact makes_expandWith (fun _ _ => extractLocal_makes) h
  | extractS3 => exact makes_expandWith (fun _ _ => extractStore_makes) h
  | extractRds => exact makes_expandWith (fun _ _ => extractDatabase_makes (by decide)) h
  | extractPostgres => exact makes_expandWith (fun _ _ => extractDatabase_makes (by decide)) h
  | extractRedshift => exact makes_expandWith (fun _ _ => extractRedshift_makes) h
  | transform => exact makes_expandWith (fun _ _ => transform_makes) h
  | emrStreaming => exact makes_expandWith (fun _ _ => emrStreaming_makes) h
  | emrStep => exact makes_expandWith (fun _ _ => emrStep_makes) h
  | sqlCommand => exact makes_expandWith (fun _ _ => sqlCommand_makes) h
  | loadRedshift => exact makes_expandWith (fun _ _ => loadRedshift_makes) h
  | createLoadRedshift => exact makes_expandWith (fun _ _ => createLoadRedshift_makes) h
  | upsert => exact makes_expandWith (fun _ _ => upsert_makes) h
  | reload => exact makes_expandWith (fun _ _ => reload_makes) h
  | createUpdateSql => exact makes_expandWith (fun _ _ => createUpdateSql_makes) h
  | primaryKeyCheck => exact makes_expandWith (fun _ _ => primaryKeyCheck_makes) h
  | countCheck => exact makes_expandWith (fun _ _ => countCheck_makes) h
  | columnCheck => exact makes_expandWith (fun _ _ => columnCheck_makes) h
  | pipelineDependencies => exact makes_expandWith (fun _ _ => pipelineDependencies_makes) h
  | loadReloadPk => exact makes_expandWith (fun _ _ => loadReloadPk_makes) h
  | safeCreateLoad => exact makes_expandWith (fun _ _ => safeCreateLoad_makes) h

theorem expand_makes {entries : Value.Entries} (h : expand k entries c = .ok e) : Makes c k e :=
  Kind.expand_makes (mapError_eq_ok_iff.mp h)

/-! ### Objects of a step's own -/

/-- The objects are data and activities of the step, no resources. -/
def Expansion.OwnObjects (e : Expansion) : Prop := ∀ o ∈ e.objects, o.resource? = none

@[simp]
theorem ownObjects_iff : e.OwnObjects ↔ ∀ o ∈ e.objects, o.resource? = none := Iff.rfl

/-- Steps of every kind expand to objects of their own. -/
theorem expand_ownObjects {entries : Value.Entries} (h : expand k entries c = .ok e) :
    e.OwnObjects := by
  cases expand_makes h with
  | command => simp [TransformArguments.made, or_imp, forall_and]
  | _ => simp

end EtlFlow.Step
