import EtlFlow.Proofs.Pipeline.Placement
import EtlFlow.Proofs.Pipeline.Roster
/-!
# What steps read

A step that says nothing about its input reads what the step of the definition before it makes, if
that is a single node of the object store (`implicit_chaining`).  A step that renames its inputs
reads, under each alias, the node of the last producer with that alias (`renamed_inputs`): of
several producers with one alias the others are dropped (`not_readsEach_pasted`).
-/

namespace EtlFlow.Pipeline

open Outcome
open Sequence (AtEach)
open Step (Nodes NodeRef Descriptor)

variable {p : Plan} {b b' : Build} {s : PlannedStep} {front : List CompiledStep}
  {t u : CompiledStep} {name : String} {n : NodeRef} {aliases : List (String × String)}

/-! ### Makers -/

theorem Build.predecessors_eq {input : Nodes} {ids : List String}
    (h : b.predecessors s input = .ok ids) :
    ids = Sequence.addAll [] ((s.descriptor.dependsOn ++
      input.refs.filterMap (fun n => b.producers.lookup n.id) ++ s.after).filter (· ≠ s.id)) := by
  simp only [predecessors] at h
  split at h
  · cases h
  · exact (Except.ok.inj h).symm

theorem Build.Recorded.nodup_makers (hb : b.Recorded) :
    ((makers b.steps).map Prod.fst).Nodup := by
  rw [makers_ids]
  exact hb.distinct

/-- No two names lead to one node. -/
theorem Build.Recorded.name_unique (hb : b.Recorded) {name' : String}
    (h : (registered b.steps).lookup name = some n)
    (h' : (registered b.steps).lookup name' = some n) : name = name' := by
  have hsame := List.inj_on_of_nodup_map hb.distinct (Sorted.mem_of_lookup h)
    (Sorted.mem_of_lookup h') rfl
  exact congrArg Prod.fst hsame

/-- A registered node was made by a step of that front. -/
theorem exists_maker (h : (registered front).lookup name = some n) :
    ∃ u ∈ front, (name, n) ∈ u.entries :=
  mem_registered.mp (Sorted.mem_of_lookup h)

/-- A step waits for each other step that made a node that it reads. -/
theorem Arises.mem_dependsOn (ht : Arises p b s front t) (hn : n ∈ t.input.refs) (hu : u ∈ front)
    (hentry : n ∈ u.output.refs) (hne : u.id ≠ t.id) : u.id ∈ t.dependsOn := by
  obtain ⟨type, before, given, e, ht⟩ := ht
  have hsame := Build.sameSteps_resolveInput ht.input
  have hmaker : given.producers.lookup n.id = some u.id := by
    rw [hsame.producers, ht.recorded.producers, ← Sorted.mem_iff_lookup ht.recorded.nodup_makers,
      ht.steps]
    refine List.mem_flatMap.mpr ⟨u, List.mem_reverse.mpr hu, ?_⟩
    exact List.mem_map.mpr ⟨n, hentry, rfl⟩
  rw [Build.predecessors_eq ht.dependsOn, Sequence.mem_addAll, List.mem_filter]
  refine .inr ⟨?_, by simpa [ht.id_eq] using hne⟩
  refine List.mem_append_left _ (List.mem_append_right _ ?_)
  exact List.mem_filterMap.mpr ⟨n, hn, hmaker⟩

/-! ### Steps that say nothing -/

theorem Build.resolveInput_silent {input : Nodes} (hinput : s.descriptor.input = none)
    (hpath : s.descriptor.inputPath = none) (h : b.resolveInput s = .ok (input, b')) :
    input = if s.role = .step then (b.lastOutput.singleStore?.map Nodes.single).getD .none
      else .none := by
  simp only [resolveInput, hinput, hpath] at h
  by_cases hrole : s.role = .step
  · rw [if_pos hrole]
    rw [hrole] at h
    cases hlast : b.lastOutput.singleStore? with
    | none =>
        rw [hlast] at h
        cases h
        rfl
    | some n =>
        rw [hlast] at h
        cases h
        rfl
  · rw [if_neg hrole]
    split at h
    · next hstep _ => exact absurd hstep hrole
    · cases h
      rfl

theorem Arises.input_silent (ht : Arises p b s front t) (hinput : s.descriptor.input = none)
    (hpath : s.descriptor.inputPath = none) :
    t.input = if s.role = .step then ((lastOutput front).singleStore?.map Nodes.single).getD .none
      else .none := by
  obtain ⟨type, before, given, e, ht⟩ := ht
  rw [Build.resolveInput_silent hinput hpath ht.input, ht.recorded.lastOutput, ht.steps]

/-- A step of the definition that says nothing about its input reads what the step of the definition
before it leaves behind. -/
theorem Plan.Realizes.exists_silent {steps : List CompiledStep}
    (h : p.Realizes steps (Arises p b)) {k : ℕ} {e : Descriptor}
    (he : p.definition.steps[k]? = some e)
    (ht : (steps.filter (·.role = .step))[k]? = some t) (hinput : e.input = none)
    (hpath : e.inputPath = none) :
    ∃ front back s, steps = front ++ t :: back ∧ (front.filter (·.role = .step)).length = k ∧
      Arises p b s front t ∧
      t.input = ((lastOutput front).singleStore?.map Nodes.single).getD .none := by
  obtain ⟨front, back, s, hsplit, hk, hs, _, harises⟩ := h.exists_of_getElem? ht
  refine ⟨front, back, s, hsplit, hk, harises, ?_⟩
  cases hs with
  | step hd _ =>
      rw [he] at hd
      cases hd
      exact harises.input_silent hinput hpath

/-- The last step of the definition among the steps of a front. -/
theorem lastOutput_eq {k : ℕ} (hk : (front.filter (·.role = .step)).length = k + 1)
    (hu : (front.filter (·.role = .step))[k]? = some u) : lastOutput front = u.output := by
  rw [lastOutput, List.getLast?_eq_getElem?, hk, Nat.add_sub_cancel, hu]
  rfl

/-- Without a step of the definition before it, nothing is carried over to a step. -/
theorem lastOutput_eq_none (h : (front.filter (·.role = .step)).length = 0) :
    lastOutput front = .none := by
  rw [lastOutput, List.length_eq_zero_iff.mp h]
  rfl

/-- Steps of the definition have ids of their own. -/
theorem id_ne_of_entered {steps back : List CompiledStep} (h : AtEach Build.Entered steps)
    (hsplit : steps = front ++ t :: back) (hu : u ∈ front) (hrole : u.role ≠ .bootstrap)
    (htrole : t.role ≠ .bootstrap) : u.id ≠ t.id := by
  have hnodup := Build.nodup_ids_of_entered h
  rw [hsplit, List.filter_append, List.filter_cons_of_pos (by simpa using htrole), List.map_append,
    List.map_cons] at hnodup
  have humem : u.id ∈ (front.filter (·.role ≠ .bootstrap)).map CompiledStep.id :=
    List.mem_map_of_mem (List.mem_filter.mpr ⟨hu, by simpa using hrole⟩)
  exact (List.nodup_append.mp hnodup).2.2 _ humem _ List.mem_cons_self

/-! ### Steps that rename their inputs -/

/-- The producers by alias; of several with one alias the last counts. -/
def byAlias (aliases : List (String × String)) : List (String × String) :=
  Sorted.ofEntries (aliases.map Prod.swap)

theorem Build.lookup_of_node {step : String} (h : b.node step name = .ok n) :
    b.nodes.lookup name = some n := by
  unfold node at h
  split at h
  · next hlookup =>
      cases h
      exact hlookup
  · cases h

/-- Under each alias the node of its last producer is read, and all producers have nodes. -/
theorem Build.resolveInput_renamed {input : Nodes}
    (hinput : s.descriptor.input = some (.renamed aliases))
    (h : b.resolveInput s = .ok (input, b')) :
    (∃ named, input = .named named ∧
      Sorted.Related (fun name n => b.nodes.lookup name = some n) (byAlias aliases) named) ∧
    ∀ name shown, (name, shown) ∈ aliases → ∃ n, b.nodes.lookup name = some n := by
  cases hpath : s.descriptor.inputPath with
  | some path =>
      simp only [resolveInput, hinput, hpath] at h
      cases h
  | none =>
      simp only [resolveInput, hinput, hpath, bind_eq_ok_iff, pure_eq_ok_iff, Prod.mk.injEq] at h
      obtain ⟨named, hnamed, rfl, rfl⟩ := h
      have hall : Sorted.Related (fun name n => b.nodes.lookup name = some n)
          (aliases.map Prod.swap) named := by
        refine List.forall₂_map_left_iff.mpr ((forall₂_of_mapM hnamed).imp ?_)
        rintro ⟨name, shown⟩ f hf
        simp only [bind_eq_ok_iff, pure_eq_ok_iff] at hf
        obtain ⟨n, hn, rfl⟩ := hf
        exact ⟨rfl, lookup_of_node hn⟩
      refine ⟨⟨_, rfl, Sorted.related_ofEntries hall⟩, fun name shown hmem => ?_⟩
      obtain ⟨n, _, hn⟩ := hall.exists_right (List.mem_map_of_mem (f := Prod.swap) hmem)
      exact ⟨n, hn⟩

/-- What a step that renames its inputs reads and waits for.  Under each alias it reads the node of
the last producer with that alias.  Each producer has a node, made by an earlier step; it is read if
the producer is the last one with some alias, and otherwise not.  The step waits for the makers of
what it reads, apart from one of its own id, which can only prepare its machine. -/
structure Renames (aliases : List (String × String)) (front : List CompiledStep)
    (t : CompiledStep) : Prop where
  input : ∃ named, t.input = .named named ∧
    Sorted.Related (fun name n => (registered front).lookup name = some n) (byAlias aliases) named
  producers : ∀ name shown, (name, shown) ∈ aliases →
    ∃ n u, (registered front).lookup name = some n ∧ u ∈ front ∧ (name, n) ∈ u.entries ∧
      (n ∈ t.input.refs ↔ ∃ shown', (shown', name) ∈ byAlias aliases) ∧
      (n ∈ t.input.refs → u.id ∈ t.dependsOn ∨ u.id = t.id ∧ u.role = .bootstrap)

/-- A node is read under an alias if its producer is the last one with it. -/
theorem mem_refs_iff {named : List (String × NodeRef)} (hb : b.Recorded)
    (h : Sorted.Related (fun name n => (registered b.steps).lookup name = some n) (byAlias aliases)
      named) (hn : (registered b.steps).lookup name = some n) :
    n ∈ (Nodes.named named).refs ↔ ∃ shown, (shown, name) ∈ byAlias aliases := by
  constructor
  · intro hmem
    obtain ⟨⟨shown, _⟩, hentry, rfl⟩ := List.mem_map.mp hmem
    obtain ⟨name', hname', hlookup⟩ := h.flip.exists_right hentry
    rw [hb.name_unique hn hlookup]
    exact ⟨shown, hname'⟩
  · rintro ⟨shown, hmem⟩
    obtain ⟨n', hentry, hlookup⟩ := h.exists_right hmem
    rw [hn] at hlookup
    cases hlookup
    exact List.mem_map.mpr ⟨_, hentry, rfl⟩

/-- A step with the id of a later one prepares the machine of that one, or of its own. -/
theorem role_of_entered {steps back : List CompiledStep} (h : AtEach Build.Entered steps)
    (hsplit : steps = front ++ t :: back) (hu : u ∈ front) (hid : u.id = t.id) :
    u.role = .bootstrap := by
  obtain ⟨before, brought, rfl, hnew, hrole, _⟩ := h front t back hsplit
  rcases List.mem_append.mp hu with hu | hu
  · refine absurd ?_ hnew
    rw [← hid]
    exact List.mem_map_of_mem hu
  · exact hrole u hu

theorem Arises.renames (ht : Arises p b s front t) {steps back : List CompiledStep}
    (hentered : AtEach Build.Entered steps) (hsplit : steps = front ++ t :: back)
    (hinput : s.descriptor.input = some (.renamed aliases)) : Renames aliases front t := by
  have harises := ht
  obtain ⟨type, before, given, e, ht⟩ := ht
  obtain ⟨⟨named, hnamed, hrelated⟩, hnodes⟩ := Build.resolveInput_renamed hinput ht.input
  rw [ht.recorded.nodes] at hrelated hnodes
  have hsteps := ht.steps
  subst hsteps
  refine ⟨⟨named, hnamed, hrelated⟩, fun name shown hmem => ?_⟩
  obtain ⟨n, hn⟩ := hnodes name shown hmem
  obtain ⟨u, hu, hentry⟩ := exists_maker hn
  refine ⟨n, u, hn, hu, hentry, ?_, fun hread => ?_⟩
  · rw [hnamed]
    exact mem_refs_iff ht.recorded hrelated hn
  · by_cases hid : u.id = t.id
    · exact .inr ⟨hid, role_of_entered hentered hsplit hu hid⟩
    · refine .inl (harises.mem_dependsOn hread hu ?_ hid)
      rw [← refs_entries]
      exact List.mem_map.mpr ⟨_, hentry, rfl⟩

/-- Where the aliases differ, each producer is the last one with its alias. -/
theorem mem_byAlias {shown : String} (h : (aliases.map Prod.snd).Nodup)
    (hmem : (name, shown) ∈ aliases) : (shown, name) ∈ byAlias aliases := by
  have hnames : ((aliases.map Prod.swap).reverse.map Prod.fst).Nodup := by
    rw [List.map_reverse, List.nodup_reverse, List.map_map]
    exact h
  rw [byAlias, Sorted.mem_ofEntries_iff, ← Sorted.mem_iff_lookup hnames, List.mem_reverse]
  exact List.mem_map_of_mem (f := Prod.swap) hmem

namespace Compiler

variable {c : Compiler} {d : Definition} {pl : Pipeline}

/-! ### Chaining -/

/-- The steps of the definition are compiled one for one.  One of them that says nothing about its
input reads nothing if it is the first; otherwise it reads what the step before it in the definition
makes, and waits for that step, if that is a single node of the object store, and nothing if it is
not, whatever prepares machines in between.  Other steps that say nothing read nothing. -/
theorem implicit_chaining (h : c.withoutHooks.compile d = .ok pl) :
    (pl.steps.filter (·.role = .step)).length = d.steps.length ∧
      (∀ e t, d.steps[0]? = some e → (pl.steps.filter (·.role = .step))[0]? = some t →
        e.input = none → e.inputPath = none → t.input = .none) ∧
      (∀ k e t u, d.steps[k + 1]? = some e →
        (pl.steps.filter (·.role = .step))[k + 1]? = some t →
        (pl.steps.filter (·.role = .step))[k]? = some u →
        e.input = none → e.inputPath = none →
          (∀ n, u.output.singleStore? = some n → t.input = .single n ∧ u.id ∈ t.dependsOn) ∧
          (u.output.singleStore? = none → t.input = .none)) ∧
      ∃ p, c.plan d = .ok p ∧ p.Realizes pl.steps fun s _ t => s.role ≠ .step →
        s.descriptor.input = none → s.descriptor.inputPath = none → t.input = .none := by
  rw [compile_withoutHooks] at h
  obtain ⟨p, start, b, hp, hbuild, hsteps, _, _, hrealizes⟩ := realizes_compileDefinition h
  obtain rfl : p.definition = d := (plan_cases hp).1
  refine ⟨?_, ?_, ?_, p, hp, ?_⟩
  · rw [hsteps, ← (compiles_build hbuild).length_eq, List.length_zipIdx]
  · intro e t he ht hinput hpath
    obtain ⟨front, _, _, _, hk, _, hread⟩ := hrealizes.exists_silent he ht hinput hpath
    rw [hread, lastOutput_eq_none hk]
    rfl
  · intro k e t u he ht hu hinput hpath
    obtain ⟨front, back, s, hsplit, hk, harises, hread⟩ :=
      hrealizes.exists_silent he ht hinput hpath
    have hu' : (front.filter (·.role = .step))[k]? = some u := by
      rw [hsplit, List.filter_append, List.getElem?_append_left (by omega)] at hu
      exact hu
    rw [lastOutput_eq hk hu'] at hread
    constructor
    · intro n hn
      rw [hn] at hread
      have hurole := List.mem_filter.mp (List.mem_of_getElem? hu')
      have htrole := List.mem_filter.mp (List.mem_of_getElem? ht)
      refine ⟨hread, harises.mem_dependsOn (n := n) ?_ hurole.1 ?_ ?_⟩
      · rw [hread]
        exact List.mem_singleton_self n
      · rw [Build.mem_refs_of_singleStore? hn]
        exact List.mem_singleton_self n
      · refine id_ne_of_entered (supplied_build hbuild).entered (hsteps ▸ hsplit) hurole.1 ?_ ?_
        · simp [of_decide_eq_true hurole.2]
        · simp [of_decide_eq_true htrole.2]
    · intro hnone
      rw [hread, hnone]
      rfl
  · refine hrealizes.imp fun _ _ s front t _ _ _ harises hrole hinput hpath => ?_
    rw [harises.input_silent hinput hpath, if_neg hrole]

/-- A directory, a command that reads it on a machine that another one prepares, and two jobs. -/
def chainedSteps : Definition where
  name := "chained"
  frequency := .oneTime
  steps := [
    describe "extract-s3" "raw" [("directory_uri", "s3://landing/raw/")],
    describe "transform" "clean" [("command", "cat")],
    describe "emr-step" "count" [("step_string", "count.jar")],
    describe "emr-step" "report" [("step_string", "report.jar")]]
  bootstrap := some {
    ec2 := [described "transform" "pip" [("command", .string "pip"), ("no_input", .bool true)]]
    emr := [] }

/-- What prepares the machine of a step stands between the step and the one that it reads from. -/
theorem implicit_chaining_chainedSteps :
    ∃ pl raw clean count report, sample.withoutHooks.compile chainedSteps = .ok pl ∧
      pl.steps.map CompiledStep.id = ["raw", "pip", "clean", "count", "report"] ∧
      pl.steps.filter (·.role = .step) = [raw, clean, count, report] ∧ raw.input = .none ∧
      (∃ n, raw.output.singleStore? = some n ∧ clean.input = .single n ∧ raw.id ∈ clean.dependsOn) ∧
      (∃ n, clean.output.singleStore? = some n ∧ count.input = .single n ∧
        clean.id ∈ count.dependsOn) ∧
      report.input = .none := by
  have hview : (sample.built chainedSteps).toOption.map (fun b => (b.steps.map CompiledStep.id,
      (b.steps.filter (·.role = .step)).map fun s => s.output.singleStore?.isSome)) =
        some (["raw", "pip", "clean", "count", "report"], [true, true, false, false]) := by
    decide +kernel
  obtain ⟨pl, hpl, hview⟩ := compile_of_steps
    (f := fun steps => (steps.map CompiledStep.id,
      (steps.filter (·.role = .step)).map fun s => s.output.singleStore?.isSome)) hview
  obtain ⟨hids, hstores⟩ := Prod.mk.inj hview
  obtain ⟨raw, _, hsteps, hraw, hrest⟩ := List.map_eq_cons_iff.mp hstores
  obtain ⟨clean, _, rfl, hclean, hrest⟩ := List.map_eq_cons_iff.mp hrest
  obtain ⟨count, _, rfl, hcount, hrest⟩ := List.map_eq_cons_iff.mp hrest
  obtain ⟨report, rfl, _⟩ := List.map_eq_singleton_iff.mp hrest
  obtain ⟨_, hfirst, hnext, _⟩ := implicit_chaining hpl
  rw [hsteps] at hfirst hnext
  obtain ⟨n, hn⟩ := Option.isSome_iff_exists.mp hraw
  obtain ⟨n', hn'⟩ := Option.isSome_iff_exists.mp hclean
  refine ⟨pl, raw, clean, count, report, hpl, hids, hsteps, ?_, ⟨n, hn, ?_⟩, ⟨n', hn', ?_⟩, ?_⟩
  · exact hfirst _ raw rfl rfl rfl rfl
  · exact (hnext 0 _ clean raw rfl rfl rfl rfl rfl).1 n hn
  · exact (hnext 1 _ count clean rfl rfl rfl rfl rfl).1 n' hn'
  · refine (hnext 2 _ report count rfl rfl rfl rfl rfl).2 (Option.not_isSome_iff_eq_none.mp ?_)
    simp [hcount]

/-! ### Renaming -/

/-- All producers that a step renames are read, and it waits for the steps that made their nodes. -/
def ReadsEach (s : PlannedStep) (front : List CompiledStep) (t : CompiledStep) : Prop :=
  ∀ aliases, s.descriptor.input = some (.renamed aliases) → ∀ name shown, (name, shown) ∈ aliases →
    ∃ n u, (registered front).lookup name = some n ∧ u ∈ front ∧ (name, n) ∈ u.entries ∧
      n ∈ t.input.refs ∧ u.id ∈ t.dependsOn

/-- Every step that renames its inputs reads, under each alias, the node of the last producer with
that alias, and waits for the makers of what it reads (`Renames`).  Where its aliases differ, all
producers are read. -/
theorem renamed_inputs {out : Pipeline} (h : c.compile d = .ok out) :
    ∃ d' pl p, runHooks c.settings c.hooks.before d = .ok d' ∧ c.compileDefinition d' = .ok pl ∧
      runHooks c.settings c.hooks.after pl = .ok out ∧ c.plan d' = .ok p ∧
      p.Realizes pl.steps fun s front t => ∀ aliases,
        s.descriptor.input = some (.renamed aliases) → Renames aliases front t ∧
          ((aliases.map Prod.snd).Nodup → ∀ name shown, (name, shown) ∈ aliases →
            ∃ n ∈ t.input.refs, (registered front).lookup name = some n) := by
  simp only [compile, bind_eq_ok_iff] at h
  obtain ⟨d', hd', pl, hpl, hout⟩ := h
  obtain ⟨p, start, b, hp, hbuild, hsteps, _, _, hrealizes⟩ := realizes_compileDefinition hpl
  refine ⟨d', pl, p, hd', hpl, hout, hp, hrealizes.imp ?_⟩
  intro _ _ s front t back _ hsplit harises aliases hinput
  rw [hsteps] at hsplit
  have hrenames := harises.renames (supplied_build hbuild).entered hsplit hinput
  refine ⟨hrenames, fun hnodup name shown hmem => ?_⟩
  obtain ⟨n, u, hn, _, _, hread, _⟩ := hrenames.producers name shown hmem
  exact ⟨n, hread.mpr ⟨shown, mem_byAlias hnodup hmem⟩, hn⟩

/-- A command that reads what the steps `a` and `b` make, under an alias each. -/
def join (arguments : List (String × String)) (left right : String) : Descriptor :=
  { describe "transform" "join" arguments with
    input := some (.renamed [("a", left), ("b", right)]) }

/-- Two directories, and a command that reads both. -/
def joined (arguments : List (String × String)) (left right : String) : Definition where
  name := "joined"
  frequency := .oneTime
  steps := [
    describe "extract-s3" "a" [("directory_uri", "s3://landing/a/")],
    describe "extract-s3" "b" [("directory_uri", "s3://landing/b/")],
    join arguments left right]

/-- The lines of both directories side by side. -/
def pasted (left right : String) : Definition := joined [("command", "paste")] left right

/-- The command stands behind the steps that it names. -/
theorem exists_join {arguments : List (String × String)} {left right : String} {p : Plan}
    {R : PlannedStep → List CompiledStep → CompiledStep → Prop}
    (hp : c.plan (joined arguments left right) = .ok p) (h : p.Realizes pl.steps R)
    (hroles : pl.steps.map CompiledStep.role = [.step, .step, .step]) :
    ∃ a b t s, pl.steps = [a, b, t] ∧ s.descriptor = join arguments left right ∧ R s [a, b] t := by
  obtain ⟨a, _, hsteps, ha, hrest⟩ := List.map_eq_cons_iff.mp hroles
  obtain ⟨b, _, rfl, hb, hrest⟩ := List.map_eq_cons_iff.mp hrest
  obtain ⟨t, rfl, ht⟩ := List.map_eq_singleton_iff.mp hrest
  have hthird : (pl.steps.filter (·.role = .step))[2]? = some t := by simp [hsteps, ha, hb, ht]
  obtain ⟨front, back, s, hsplit, hlength, hs, _, hR⟩ := h.exists_of_getElem? hthird
  rw [hsteps] at hsplit
  have hle : 2 ≤ front.length := hlength ▸ List.length_filter_le _ _
  have hall := congrArg List.length hsplit
  simp only [List.length_cons, List.length_nil, List.length_append] at hall
  have hfront : [a, b].length = front.length := by
    simp only [List.length_cons, List.length_nil]
    omega
  have hsplit' : [a, b] ++ [t] = front ++ t :: back := hsplit
  obtain ⟨hbefore, _⟩ := List.append_inj hsplit' hfront
  refine ⟨a, b, t, s, hsteps, ?_, hbefore ▸ hR⟩
  cases hs with
  | step hd _ =>
      rw [(plan_cases hp).1] at hd
      exact (Option.some.inj hd).symm

theorem renamed_inputs_pasted :
    ∃ pl a b t, sample.compile (pasted "left" "right") = .ok pl ∧ pl.steps = [a, b, t] ∧
      Renames [("a", "left"), ("b", "right")] [a, b] t ∧
      ∃ n n', t.input = .named [("left", n), ("right", n')] ∧
        (registered [a, b]).lookup "a" = some n ∧ (registered [a, b]).lookup "b" = some n' := by
  have hroles : (sample.built (pasted "left" "right")).toOption.map
      (fun b => b.steps.map CompiledStep.role) = some [.step, .step, .step] := by decide +kernel
  obtain ⟨pl, hpl, hroles⟩ := compile_of_steps hroles
  obtain ⟨d', pl', p, hd', _, hsame, hp, hrealizes⟩ := renamed_inputs (c := sample) hpl
  cases hd'
  cases hsame
  obtain ⟨a, b, t, s, hsteps, hjoin, hR⟩ := exists_join hp hrealizes hroles
  obtain ⟨hrenames, _⟩ := hR _ (congrArg Descriptor.input hjoin)
  obtain ⟨named, hnamed, hrelated⟩ := hrenames.input
  have haliases : byAlias [("a", "left"), ("b", "right")] = [("left", "a"), ("right", "b")] := by
    decide
  rw [haliases] at hrelated
  cases hrelated with
  | @cons _ f _ fs hf hrest =>
      cases hrest with
      | @cons _ g _ gs hg hrest =>
          cases hrest
          obtain ⟨left, n⟩ := f
          obtain ⟨right, n'⟩ := g
          obtain ⟨rfl, hn⟩ := hf
          obtain ⟨rfl, hn'⟩ := hg
          exact ⟨pl, a, b, t, hpl, hsteps, hrenames, n, n', hnamed, hn, hn'⟩

/-- Of two producers with one alias the first is dropped. -/
theorem not_readsEach_pasted :
    ∃ pl p, sample.withoutHooks.compile (pasted "x" "x") = .ok pl ∧
      sample.plan (pasted "x" "x") = .ok p ∧ ¬ p.Realizes pl.steps ReadsEach := by
  have hview : (sample.built (pasted "x" "x")).toOption.map
      (fun b => b.steps.map fun s => (s.role, s.id, s.entries.map Prod.fst, s.dependsOn)) =
        some [(.step, "a", ["a"], []), (.step, "b", ["b"], ["a"]),
          (.step, "join", ["join"], ["b"])] := by
    decide +kernel
  obtain ⟨pl, hpl, hview⟩ := compile_of_steps hview
  obtain ⟨p, _, _, hp, _⟩ :=
    realizes_compileDefinition ((compile_withoutHooks sample _).symm.trans hpl)
  refine ⟨pl, p, hpl, hp, fun hrealizes => ?_⟩
  have hroles : pl.steps.map CompiledStep.role = [.step, .step, .step] := by
    have := congrArg (List.map Prod.fst) hview
    rw [List.map_map] at this
    exact this
  obtain ⟨a, b, t, s, hsteps, hjoin, hR⟩ := exists_join hp hrealizes hroles
  obtain ⟨n, u, _, hu, hentry, _, hdepends⟩ :=
    hR _ (congrArg Descriptor.input hjoin) "a" "x" List.mem_cons_self
  rw [hsteps] at hview
  simp only [List.map_cons, List.map_nil, List.cons.injEq, Prod.mk.injEq, and_true] at hview
  obtain ⟨⟨_, ha, _⟩, ⟨_, _, hb, _⟩, ⟨_, _, _, ht⟩⟩ := hview
  rw [ht, List.mem_singleton] at hdepends
  rcases List.mem_pair.mp hu with rfl | rfl
  · rw [ha] at hdepends
    exact absurd hdepends (by decide)
  · have hname := List.mem_map_of_mem (f := Prod.fst) hentry
    rw [hb] at hname
    simp at hname

end Compiler

end EtlFlow.Pipeline
