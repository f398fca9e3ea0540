import EtlFlow.Proofs.Step.Endings
/-!
# Variables of inputs

The machine stages each input of an activity for its command, in a directory that a variable holds.
The variable is told by the position of the input (`inputVariable`), and a command that runs without
repeating an input is given the variables of these positions (`inputArguments_eq`,
`launcher_parts`).  No input is renamed twice, because a mapping has no key twice
(`namesOnce_of_ofValue`).
-/

namespace EtlFlow.Step

open Outcome Workflow
open Yaml (Value)

/-! ### Mappings -/

/-- A step that renames its inputs names each of them once. -/
def Descriptor.NamesOnce (d : Descriptor) : Prop :=
  ∀ aliases, d.input = some (.renamed aliases) → (aliases.map Prod.fst).Nodup

theorem nodup_of_decode {v : Value} {aliases : List (String × String)}
    (h : InputSpec.decode v = .ok (.renamed aliases)) : (aliases.map Prod.fst).Nodup := by
  unfold InputSpec.decode Yaml.Decode.either at h
  split at h
  · next a ha =>
      cases h
      obtain ⟨_, _, hsingle⟩ := map_eq_ok_iff.mp ha
      cases hsingle
  · obtain ⟨es, hes, hrenamed⟩ := map_eq_ok_iff.mp (mapError_eq_ok_iff.mp h)
    cases hrenamed
    unfold Yaml.Decode.present at hes
    split at hes
    · cases hes
    · simp only [Yaml.Decode.sortedMap, bind_eq_ok_iff, pure_eq_ok_iff] at hes
      obtain ⟨_, _, _, _, rfl⟩ := hes
      exact Sorted.nodup_names_ofEntries _

theorem exists_of_take {α : Type} {key : String} {decode : Yaml.Decoder α} {x : α}
    {entries rest : Value.Entries}
    (h : (Descriptor.take key decode).run entries = .ok (some x, rest)) :
    ∃ v, decode v = .ok x := by
  simp only [Descriptor.take, StateT.run_bind, bind_eq_ok_iff] at h
  obtain ⟨_, hget, _, _, h⟩ := h
  cases hget
  split at h
  · cases h
  · cases h
  · next v _ _ =>
      split at h
      · next a ha =>
          cases h
          exact ⟨v, ha⟩
      · cases h

/-- A mapping has no key twice. -/
theorem namesOnce_of_ofValue {v : Value} {d : Descriptor} (h : Descriptor.ofValue v = .ok d) :
    d.NamesOnce := by
  unfold Descriptor.ofValue at h
  split at h
  · obtain ⟨⟨_, _⟩, hread, rfl⟩ := map_eq_ok_iff.mp h
    simp only [Descriptor.read, StateT.run_bind, bind_eq_ok_iff] at hread
    obtain ⟨⟨type, _⟩, _, hread⟩ := hread
    cases type with
    | none => cases hread
    | some type =>
        simp only [StateT.run_bind, bind_eq_ok_iff] at hread
        obtain ⟨_, _, _, _, ⟨input, _⟩, hinput, _, _, _, _, _, _, hread⟩ := hread
        cases hread
        rintro aliases rfl
        obtain ⟨_, hdecode⟩ := exists_of_take hinput
        exact nodup_of_decode hdecode
  · cases h

/-! ### Positions of inputs -/

/-- The names of nodes. -/
def Nodes.names : Nodes → List String
  | named ns => ns.map Prod.fst
  | _ => []

/-- What is new is added in its order. -/
theorem addAll_of_nodup {front ids : List ObjectId} (h : (front ++ ids).Nodup) :
    Sequence.addAll front ids = front ++ ids := by
  induction ids generalizing front with
  | nil => exact (List.append_nil front).symm
  | cons x ids ih =>
      have hx : x ∉ front := fun hx => (List.nodup_append.mp h).2.2 x hx x List.mem_cons_self rfl
      have hstep : Sequence.addAll front (x :: ids) = Sequence.addAll (front ++ [x]) ids := by
        rw [Sequence.addAll, List.foldl_cons, Sequence.addNew, if_neg hx]
        rfl
      rw [List.append_cons] at h ⊢
      rw [hstep, ih h]

@[simp]
theorem inputs_withOutputs (a : Activity) (ids : List ObjectId) :
    (ids.foldl Activity.withOutput a).inputs = a.inputs := by
  induction ids generalizing a with
  | nil => rfl
  | cons i is ih => exact ih (a.withOutput i)

@[simp]
theorem work_withOutputs (a : Activity) (ids : List ObjectId) :
    (ids.foldl Activity.withOutput a).work = a.work := by
  induction ids generalizing a with
  | nil => rfl
  | cons i is ih => exact ih (a.withOutput i)

namespace TransformArguments

variable {c : Context} {e : Expansion} {s : TransformArguments}

/-- The inputs of the activity that runs the command. -/
def inputIds (s : TransformArguments) (c : Context) : List ObjectId :=
  (s.inputs c).map (·.id) ++ s.directoryEndings.map c.sub

/-- The launcher of a directory of scripts takes the directory for the input behind all others. -/
theorem launcher_parts {parts : CommandParts} (h : s.parts c = .ok parts)
    (hcommand : s.command = none) (hscript : s.script = none) :
    ∃ start, parts.shell.script = some start ∧
      ⟨start, .text (launcher ((s.inputs c).length + 1) (s.scriptName.getD ""))⟩ ∈
        parts.artifacts := by
  simp only [TransformArguments.parts, hcommand, hscript, directoryParts, guard_eq_ok_iff,
    bind_eq_ok_iff, pure_eq_ok_iff] at h
  obtain ⟨_, _, _, rfl⟩ := h
  exact ⟨_, rfl, List.mem_cons_of_mem _ List.mem_cons_self⟩

/-- The activity that runs a command, its arguments, and the launcher that it runs. -/
theorem exists_activity (h : transform c s = .ok e) (hn : (s.inputIds c).Nodup) :
    ∃ a shell given, .activity a ∈ e.objects ∧ a.id = c.id ∧ a.work = .shell shell ∧
      a.inputs = s.inputIds c ∧ shell.arguments = s.inputArguments c ++ given ∧
      (s.command = none → s.script = none → ∃ start, shell.script = some start ∧
        ⟨start, .text (launcher ((s.inputs c).length + 1) (s.scriptName.getD ""))⟩ ∈
          e.artifacts) := by
  obtain ⟨parts, given, r, hparts, -, rfl⟩ := transform_eq_ok h
  refine ⟨s.run c parts given r, _, given, List.mem_append_right _ List.mem_cons_self, ?_,
    work_withOutputs _ _, ?_, rfl, launcher_parts hparts⟩
  · rw [id_run, Context.sub, String.append_empty]
  · rw [run, inputs_withOutputs, Activity.withInputs, ids_directory hparts]
    exact addAll_of_nodup hn

end TransformArguments

end EtlFlow.Step
