import EtlFlow.Proofs.Step.Expansion
import EtlFlow.Step.Cluster
import Mathlib.Data.List.Infix
/-!
# Job texts, read back

The reader of a job cuts its text at each comma that no two backslashes stand before, and takes two
backslashes and a comma for a comma (`jobArguments`).  A comma inside an argument is never cut at
(`cutCommas_escaped`), and the one behind an argument is, unless the argument itself ends with two
backslashes (`cutCommas_comma`).  So the arguments are found again exactly when none but the last
ends so (`jobArguments_jobText_iff`).  In a streaming job this is about the parameters, the scripts
and the inputs, whatever the series of the image (`emrStreaming_readable_iff`).
-/

namespace EtlFlow.Step

open Outcome
open Storage (Location)

variable {a p s : List Char} {as : List (List Char)} {c : Char}

/-! ### Reading a job -/

/-- Two backslashes stand at the end. -/
def EndsEscape (a : List Char) : Prop := ['\\', '\\'] <:+ a

instance (a : List Char) : Decidable (EndsEscape a) := inferInstanceAs (Decidable (_ <:+ _))

/-- The text cut at each comma that no two backslashes stand before, where `piece` has been read
already. -/
def cutCommas (piece : List Char) : List Char → List (List Char)
  | [] => [piece]
  | c :: s =>
    if c = ',' ∧ ¬EndsEscape piece then piece :: cutCommas [] s else cutCommas (piece ++ [c]) s

/-- The text with a comma for two backslashes and a comma. -/
def unescapeCommas : List Char → List Char
  | '\\' :: '\\' :: ',' :: s => ',' :: unescapeCommas s
  | c :: s => c :: unescapeCommas s
  | [] => []

/-- The arguments that a job text holds. -/
def jobArguments (text : String) : List String :=
  ((cutCommas [] text.toList).map unescapeCommas).map String.ofList

/-! ### A single argument -/

/-- How an argument is written. -/
def escaped (a : List Char) : List Char := a.flatMap fun d => if d = ',' then ['\\', '\\', ','] else [d]

theorem toList_escapeCommas (x : String) : (escapeCommas x).toList = escaped x.toList :=
  String.toList_ofList

theorem escaped_comma (a : List Char) : escaped (',' :: a) = '\\' :: '\\' :: ',' :: escaped a := rfl

theorem escaped_cons (hc : c ≠ ',') (a : List Char) : escaped (c :: a) = c :: escaped a := by
  rw [escaped, List.flatMap_cons, if_neg hc]
  rfl

/-- No written argument starts with a comma. -/
theorem head?_escaped (a : List Char) : (escaped a).head? ≠ some ',' := by
  cases a with
  | nil => simp [escaped]
  | cons d a =>
    by_cases hd : d = ','
    · subst hd
      simp [escaped_comma]
    · simpa [escaped_cons hd] using hd

theorem unescapeCommas_cons (h : ¬ ['\\', ','] <+: s) :
    unescapeCommas (c :: s) = c :: unescapeCommas s := by
  rw [unescapeCommas.eq_def]
  split
  · rename_i heq
    obtain ⟨rfl, rfl⟩ := List.cons.inj heq
    exact absurd ⟨_, rfl⟩ h
  · rename_i heq
    obtain ⟨rfl, rfl⟩ := List.cons.inj heq
    rfl
  · rename_i heq
    cases heq

theorem unescapeCommas_escaped (a : List Char) : unescapeCommas (escaped a) = a := by
  -- a backslash and a comma never stand in front, so only whole escapes are taken for commas
  have front (a : List Char) : ¬ ['\\', ','] <+: escaped a := by
    cases a with
    | nil => simp [escaped]
    | cons d a =>
      by_cases hd : d = ','
      · subst hd
        simp [escaped_comma]
      · rw [escaped_cons hd, List.cons_prefix_cons]
        rintro ⟨-, t, ht⟩
        exact head?_escaped a (by rw [← ht]; rfl)
  induction a with
  | nil => rfl
  | cons d a ih =>
    by_cases hd : d = ','
    · subst hd
      rw [escaped_comma, unescapeCommas, ih]
    · rw [escaped_cons hd, unescapeCommas_cons (front a), ih]

/-- Two backslashes at the end stand behind the last character that is none. -/
theorem endsEscape_append_cons (hc : c ≠ '\\') (u v : List Char) :
    EndsEscape (u ++ c :: v) ↔ EndsEscape v := by
  constructor
  · intro h
    rcases List.suffix_or_suffix_of_suffix h (List.suffix_append u (c :: v)) with h | h
    · rcases List.suffix_cons_iff.mp h with h | h
      · exact absurd (List.cons.inj h).1.symm hc
      · exact h
    · have : c ∈ ['\\', '\\'] := h.subset List.mem_cons_self
      simp [hc] at this
  · intro h
    exact h.trans ((List.suffix_cons c v).trans (List.suffix_append u _))

/-- What is written ends with two backslashes as the argument does. -/
theorem endsEscape_append_escaped (p a : List Char) :
    EndsEscape (p ++ escaped a) ↔ EndsEscape (p ++ a) := by
  induction a generalizing p with
  | nil => rfl
  | cons d a ih =>
    by_cases hd : d = ','
    · subst hd
      have text : p ++ escaped (',' :: a) = (p ++ ['\\', '\\']) ++ ',' :: escaped a := by
        simp [escaped_comma]
      rw [text, endsEscape_append_cons (by decide), endsEscape_append_cons (by decide)]
      exact ih []
    · rw [escaped_cons hd, List.append_cons, ih, List.append_cons p d a]

/-! ### Arguments behind each other -/

/-- A piece that holds nothing, or ends with a comma that was not cut at. -/
def EndsComma (p : List Char) : Prop := p = [] ∨ ∃ q, p = q ++ [',']

theorem EndsComma.endsEscape_append (hp : EndsComma p) (a : List Char) :
    EndsEscape (p ++ a) ↔ EndsEscape a := by
  obtain rfl | ⟨q, rfl⟩ := hp
  · rfl
  · rw [List.append_assoc]
    exact endsEscape_append_cons (by decide) q a

/-- Commas inside an argument are not cut at. -/
theorem cutCommas_escaped (p a s : List Char) :
    cutCommas p (escaped a ++ s) = cutCommas (p ++ escaped a) s := by
  have plain {d : Char} (hd : d ≠ ',') (p s : List Char) :
      cutCommas p (d :: s) = cutCommas (p ++ [d]) s := by
    rw [cutCommas, if_neg fun h => hd h.1]
  induction a generalizing p with
  | nil => rw [escaped, List.flatMap_nil, List.nil_append, List.append_nil]
  | cons d a ih =>
    by_cases hd : d = ','
    · subst hd
      have shielded : EndsEscape (p ++ ['\\'] ++ ['\\']) := ⟨p, by simp⟩
      rw [escaped_comma, List.cons_append, List.cons_append, List.cons_append, plain (by decide),
        plain (by decide), cutCommas, if_neg fun h => h.2 shielded, ih]
      simp
    · rw [escaped_cons hd, List.cons_append, plain hd, ih]
      simp

/-- The comma behind an argument is cut at unless the argument ends with two backslashes. -/
theorem cutCommas_comma (hp : EndsComma p) (a s : List Char) :
    cutCommas (p ++ escaped a) (',' :: s) =
      if EndsEscape a then cutCommas (p ++ escaped a ++ [',']) s
      else (p ++ escaped a) :: cutCommas [] s := by
  have same : EndsEscape (p ++ escaped a) ↔ EndsEscape a := by
    rw [endsEscape_append_escaped, hp.endsEscape_append]
  rw [cutCommas]
  by_cases h : EndsEscape a
  · rw [if_pos h, if_neg fun hc => hc.2 (same.mpr h)]
  · rw [if_neg h, if_pos ⟨rfl, fun hc => h (same.mp hc)⟩]

/-- How arguments are written. -/
def written (as : List (List Char)) : List Char := [','].intercalate (as.map escaped)

theorem written_singleton (a : List Char) : written [a] = escaped a := List.intercalate_singleton

theorem written_cons_cons (a b : List Char) (as : List (List Char)) :
    written (a :: b :: as) = escaped a ++ ',' :: written (b :: as) := by
  rw [written, List.map_cons, List.map_cons, List.intercalate_cons_cons, List.append_assoc]
  rfl

/-- Each argument makes a piece, but the last one and those that end with two backslashes make none
of their own. -/
theorem length_cutCommas_written (hp : EndsComma p) (as : List (List Char)) :
    (cutCommas p (written as)).length =
      (as.dropLast.filter fun a => ¬EndsEscape a).length + 1 := by
  induction as generalizing p with
  | nil => rfl
  | cons a as ih =>
    cases as with
    | nil =>
      rw [written_singleton, ← List.append_nil (escaped a), cutCommas_escaped]
      rfl
    | cons b as =>
      rw [written_cons_cons, cutCommas_escaped, cutCommas_comma hp, List.dropLast_cons_cons,
        List.filter_cons]
      by_cases h : EndsEscape a
      · rw [if_pos h, if_neg (by simpa using h), ih (.inr ⟨_, rfl⟩)]
      · rw [if_neg h, if_pos (by simpa using h), List.length_cons, List.length_cons, ih (.inl rfl)]

/-- Arguments that do not end with two backslashes, the last one apart, are the pieces. -/
theorem cutCommas_written (hne : as ≠ []) (h : ∀ a ∈ as.dropLast, ¬EndsEscape a) :
    cutCommas [] (written as) = as.map escaped := by
  induction as with
  | nil => exact absurd rfl hne
  | cons a as ih =>
    have cut (s : List Char) : cutCommas [] (escaped a ++ s) = cutCommas (escaped a) s :=
      cutCommas_escaped [] a s
    cases as with
    | nil =>
      have whole := cut []
      rw [List.append_nil] at whole
      rw [written_singleton, whole]
      rfl
    | cons b as =>
      rw [List.dropLast_cons_cons, List.forall_mem_cons] at h
      have comma := cutCommas_comma (p := []) (.inl rfl) a (written (b :: as))
      rw [List.nil_append, if_neg h.1] at comma
      rw [written_cons_cons, cut, comma, ih (List.cons_ne_nil b as) h.2]
      rfl

/-- The comma behind the argument is not taken for one of its own. -/
def IsSealed (x : String) : Prop := ¬EndsEscape x.toList

instance (x : String) : Decidable (IsSealed x) := inferInstanceAs (Decidable (¬_))

theorem toList_jobText (args : List String) :
    (jobText args).toList = written (args.map String.toList) := by
  have comma : ",".toList = [','] := rfl
  rw [jobText, String.toList_intercalate, comma, written, List.map_map, List.map_map]
  exact congrArg _ (List.map_congr_left fun x _ => toList_escapeCommas x)

/-- The arguments of a job are found again in its text exactly when none of them but the last ends
with two backslashes. -/
theorem jobArguments_jobText_iff {args : List String} (hne : args ≠ []) :
    jobArguments (jobText args) = args ↔ ∀ x ∈ args.dropLast, IsSealed x := by
  rw [jobArguments, toList_jobText]
  constructor
  · intro h
    have count := congrArg List.length h
    rw [List.length_map, List.length_map, length_cutCommas_written (.inl rfl), ← List.map_dropLast,
      List.filter_map, List.length_map] at count
    have all : (args.dropLast.filter ((fun a => decide ¬EndsEscape a) ∘ String.toList)).length =
        args.dropLast.length := by
      rw [List.length_dropLast]
      omega
    intro x hx
    simpa [IsSealed] using List.length_filter_eq_length_iff.mp all x hx
  · intro h
    have pieces : cutCommas [] (written (args.map String.toList)) =
        (args.map String.toList).map escaped :=
      cutCommas_written (by simpa using hne)
        (by rw [← List.map_dropLast]; exact List.forall_mem_map.mpr h)
    rw [pieces, List.map_map, List.map_map, List.map_map]
    refine (List.map_congr_left fun x _ => ?_).trans (List.map_id args)
    rw [Function.comp_apply, Function.comp_apply, Function.comp_apply, unescapeCommas_escaped,
      String.ofList_toList]
    rfl

/-! ### Streaming jobs -/

variable {series : Nat} {parameters : Option String} {l mapper output : Location}
  {reducer : Option Location} {inputs : List Location}

/-- The name of a file stands behind the last slash of its URI. -/
theorem uri_eq_append_baseName (hl : l.isDirectory = false) :
    ∃ u, l.uri.toList = u ++ '/' :: l.baseName.toList := by
  have text : l.uri.toList = "s3://".toList ++ l.bucket.toList ++ '/' :: l.key.toList := by
    rw [Location.uri, hl, Bool.false_and, if_neg Bool.false_ne_true, String.append_empty,
      String.toList_append, String.toList_append, String.toList_append, List.append_assoc]
    rfl
  have cut := List.takeWhile_append_dropWhile (p := (· != '/')) (l := l.key.toList.reverse)
  rw [text, Location.baseName, Text.splitLast?]
  cases behind : l.key.toList.reverse.dropWhile (· != '/') with
  | nil => exact ⟨_, rfl⟩
  | cons d r =>
    have slash : d = '/' := by
      have := List.head?_dropWhile_not (· != '/') l.key.toList.reverse
      rw [behind] at this
      simpa using this
    rw [behind, slash] at cut
    refine ⟨"s3://".toList ++ l.bucket.toList ++ '/' :: r.reverse, ?_⟩
    rw [← l.key.toList.reverse_reverse]
    conv_lhs => rw [← cut]
    simp

/-- A file is sealed by its URI as by its name. -/
theorem isSealed_baseName (hl : l.isDirectory = false) : IsSealed l.baseName ↔ IsSealed l.uri := by
  obtain ⟨u, hu⟩ := uri_eq_append_baseName hl
  rw [IsSealed, IsSealed, hu, endsEscape_append_cons (by decide)]

theorem isSealed_append_comma (x y : String) : IsSealed (x ++ "," ++ y) ↔ IsSealed y := by
  have text : (x ++ "," ++ y).toList = x.toList ++ ',' :: y.toList := by
    rw [String.toList_append, String.toList_append, List.append_assoc]
    rfl
  rw [IsSealed, text, endsEscape_append_cons (by decide), IsSealed]

/-- The words of a job are sealed. -/
theorem isSealed_word :
    ∀ x ∈ [streamingProgram, "-files", "-mapper", "-reducer", "NONE", "-input", "-output"],
      IsSealed x := by decide

/-- The arguments that name the scripts are sealed where the scripts are. -/
theorem forall_scriptArguments_iff (hm : mapper.isDirectory = false)
    (hr : ∀ r ∈ reducer, r.isDirectory = false) :
    (∀ x ∈ scriptArguments series mapper reducer, IsSealed x) ↔
      ∀ l ∈ mapper :: reducer.toList, IsSealed l.uri := by
  have words := isSealed_word
  simp only [List.forall_mem_cons] at words
  obtain ⟨-, files, mapperWord, reducerWord, none, -⟩ := words
  unfold scriptArguments
  cases reducer with
  | none =>
    by_cases later : 2 ≤ series
    · simp [later, files, mapperWord, reducerWord, none, isSealed_baseName hm]
    · simp [later, mapperWord, reducerWord, none]
  | some r =>
    by_cases later : 2 ≤ series
    · simp [later, files, mapperWord, reducerWord, isSealed_append_comma, isSealed_baseName hm,
        isSealed_baseName (hr r rfl)]
    · simp [later, mapperWord, reducerWord]

/-- No parameter, no script and no input of a job ends with two backslashes. -/
structure IsReadable (parameters : Option String) (scripts inputs : List Location) : Prop where
  parameters : ∀ w ∈ Text.words (parameters.getD "").toList, IsSealed (String.ofList w)
  scripts : ∀ l ∈ scripts, IsSealed l.uri
  inputs : ∀ l ∈ inputs, IsSealed l.uri

/-- The arguments of a streaming job are found again in its text exactly when neither its parameters
nor its scripts nor its inputs end with two backslashes. -/
theorem jobArguments_streamingJob_iff (hm : mapper.isDirectory = false)
    (hr : ∀ r ∈ reducer, r.isDirectory = false) :
    jobArguments (jobText (streamingJob series parameters mapper reducer inputs output)) =
        streamingJob series parameters mapper reducer inputs output ↔
      IsReadable parameters (mapper :: reducer.toList) inputs := by
  have front : (streamingJob series parameters mapper reducer inputs output).dropLast =
      streamingProgram :: ((Text.words (parameters.getD "").toList).map String.ofList ++
        (scriptArguments series mapper reducer ++ (inputs.flatMap (fun l => ["-input", l.uri]) ++
        ["-output"]))) := by
    have last : ["-output", output.uri] = ["-output"] ++ [output.uri] := rfl
    rw [streamingJob, last, ← List.append_assoc, List.dropLast_concat]
    simp
  have words := isSealed_word
  simp only [List.forall_mem_cons] at words
  obtain ⟨program, -, -, -, -, input, result, -⟩ := words
  rw [jobArguments_jobText_iff (by simp [streamingJob]), front, List.forall_mem_cons,
    List.forall_mem_append, List.forall_mem_append, List.forall_mem_append,
    forall_scriptArguments_iff hm hr, List.forall_mem_map, List.forall_mem_singleton]
  constructor
  · rintro ⟨-, hp, hs, hi, -⟩
    exact ⟨hp, hs, fun l hl => hi _ (List.mem_flatMap.mpr ⟨l, hl, by simp⟩)⟩
  · rintro ⟨hp, hs, hi⟩
    refine ⟨program, hp, hs, ?_, result⟩
    intro x hx
    obtain ⟨l, hl, hx⟩ := List.mem_flatMap.mp hx
    rw [List.mem_pair] at hx
    rcases hx with rfl | rfl
    · exact input
    · exact hi l hl

theorem requireCluster_eq_ok_iff {c : Context} :
    c.requireCluster = .ok series ↔ c.imageSeries = some series := by
  unfold Context.requireCluster demand refuse
  split <;> simp [*]

/-- A staged file is a file. -/
theorem isDirectory_of_stageFile {c : Context} {path : String} {s : Artifact}
    (h : stageFile c path = .ok s) : s.destination.isDirectory = false := by
  simp only [stageFile, bind_eq_ok_iff, pure_eq_ok_iff] at h
  obtain ⟨name, -, rfl⟩ := h
  rfl

theorem isDirectory_of_mapM_stageFile {c : Context} {path : Option String} {staged : Option Artifact}
    (h : path.mapM (stageFile c) = .ok staged) :
    ∀ l ∈ staged.map (·.destination), l.isDirectory = false := by
  intro l hl
  obtain ⟨s, hs, rfl⟩ := Option.mem_map.mp hl
  cases hs
  cases path with
  | none => cases h
  | some path =>
    rw [Option.mapM_some] at h
    obtain ⟨_, hstage, hsome⟩ := map_eq_ok_iff.mp h
    cases hsome
    exact isDirectory_of_stageFile hstage

/-- Where every node has a place in the object store, the places are those of all nodes. -/
theorem map_path_eq {ns : List NodeRef} (h : ∀ n ∈ ns, n.path ≠ none) :
    ns.map (·.path) = (ns.filterMap (·.path)).map some := by
  rw [List.map_filterMap]
  refine (List.filterMap_eq_map_iff_forall_eq_some.mpr fun n hn => ?_).symm
  obtain ⟨l, hl⟩ := Option.ne_none_iff_exists'.mp (h n hn)
  rw [hl]
  rfl

/-- A streaming step runs one job, given as one text.  Reading that text gives the program, the
parameters, the scripts, each input in order and the output exactly when no parameter, no script and
no input ends with two backslashes. -/
theorem emrStreaming_readable_iff {entries : Yaml.Value.Entries} {c : Context} {e : Expansion}
    (h : expand .emrStreaming entries c = .ok e) :
    ∃ a series mapper reducer inputs output run text,
      readArguments StreamingArguments.fields entries = .ok a ∧ c.imageSeries = some series ∧
      stageFile c a.mapper = .ok mapper ∧ a.reducer.mapM (stageFile c) = .ok reducer ∧
      c.input.refs.map (·.path) = inputs.map some ∧
      output = c.paths.data.joinDirectory "output" ∧
      e.objects = [.store (c.store "Output" output), .activity run] ∧ run.work = .emr [text] ∧
      let files := mapper.destination :: (reducer.map (·.destination)).toList
      (jobArguments text =
          "/home/hadoop/contrib/streaming/hadoop-streaming.jar" ::
          (Text.words (a.parameters.getD "").toList).map String.ofList ++
          (if 2 ≤ series then
            ["-files", ",".intercalate (files.map (·.uri)), "-mapper", mapper.destination.baseName,
              "-reducer", (reducer.map (·.destination.baseName)).getD "NONE"]
          else
            ["-mapper", mapper.destination.uri,
              "-reducer", (reducer.map (·.destination.uri)).getD "NONE"]) ++
          inputs.flatMap (fun l => ["-input", l.uri]) ++ ["-output", output.uri] ↔
        IsReadable a.parameters files inputs) := by
  obtain ⟨a, ha, h⟩ := bind_eq_ok_iff.mp (mapError_eq_ok_iff.mp h)
  simp only [emrStreaming, bind_eq_ok_iff, guard_eq_ok_iff, pure_eq_ok_iff, requireCluster_eq_ok_iff,
    activity_eq_ok_iff] at h
  obtain ⟨series, hseries, hinputs, mapper, hmapper, reducer, hreducer, _, ⟨r, -, rfl⟩, rfl⟩ := h
  have paths : c.input.refs.map (·.path) = (c.input.refs.filterMap (·.path)).map some := by
    refine map_path_eq fun n hn hnone => ?_
    rw [not_or, List.any_eq_true, not_exists] at hinputs
    exact hinputs.2 n ⟨hn, by simp [hnone]⟩
  have isFile := isDirectory_of_mapM_stageFile hreducer
  refine ⟨a, series, mapper, reducer, _, _, _, _, ha, hseries, hmapper, hreducer, paths, rfl, rfl,
    rfl, ?_⟩
  cases reducer with
  | none => exact jobArguments_streamingJob_iff (isDirectory_of_stageFile hmapper) isFile
  | some r => exact jobArguments_streamingJob_iff (isDirectory_of_stageFile hmapper) isFile

/-- A streaming step that reads a directory of texts. -/
def wordCount : Context where
  id := "count"
  settings := {}
  files := {}
  baseDirectory := ""
  pipeline := "words"
  frequency := .oneTime
  schedule := "DefaultSchedule"
  runner := some (.resource "EmrCluster")
  imageSeries := some 3
  warehouse := none
  input := .single ⟨"texts", some ⟨"landing", "texts", true⟩⟩
  maxRetries := 0
  alarm := none
  topic := none
  paths := ⟨⟨"etl", "src/count", true⟩, ⟨"etl", "data/count", true⟩, ⟨"etl", "logs/count", true⟩⟩
  checkLogs := ⟨"etl", "qa", true⟩

/-- Commas in a parameter, in a name and between the files are found again. -/
theorem emrStreaming_readable_wordCount : ∃ e text,
    expand .emrStreaming [(.string "mapper", .string "map,words.py"),
        (.string "reducer", .string "sum.py"),
        (.string "hadoop_params", .string "-D mapred.reduce.tasks=1,2")] wordCount = .ok e ∧
      e.work.map (·.work) = [.emr [text]] ∧
      jobArguments text = ["/home/hadoop/contrib/streaming/hadoop-streaming.jar", "-D",
        "mapred.reduce.tasks=1,2", "-files",
        "s3://etl/src/count/map,words.py,s3://etl/src/count/sum.py", "-mapper", "map,words.py",
        "-reducer", "sum.py", "-input", "s3://landing/texts/", "-output",
        "s3://etl/data/count/output/"] := by
  have expands : (expand .emrStreaming [(.string "mapper", .string "map,words.py"),
      (.string "reducer", .string "sum.py"),
      (.string "hadoop_params", .string "-D mapred.reduce.tasks=1,2")] wordCount).isOk = true := by
    decide +kernel
  have reads : (readArguments StreamingArguments.fields [(.string "mapper", .string "map,words.py"),
      (.string "reducer", .string "sum.py"),
      (.string "hadoop_params", .string "-D mapred.reduce.tasks=1,2")]).toOption.map
        (fun a => (a.mapper, a.reducer, a.parameters)) =
      some ("map,words.py", some "sum.py", some "-D mapred.reduce.tasks=1,2") := by decide +kernel
  obtain ⟨e, he⟩ := exists_ok_of_isOk expands
  obtain ⟨a, series, mapper, reducer, inputs, output, run, text, ha, hseries, hmapper, hreducer,
    hinputs, houtput, hobjects, hwork, readable⟩ := emrStreaming_readable_iff he
  have only : e.work.map (·.work) = [.emr [text]] := by
    rw [Expansion.work, hobjects, ← hwork]
    rfl
  refine ⟨e, text, he, only, ?_⟩
  simp only [ha, Except.toOption, Option.map_some, Option.some.injEq, Prod.mk.injEq] at reads
  obtain ⟨hm, hr, hp⟩ := reads
  have stagedMapper : (stageFile wordCount "map,words.py").toOption =
      some ⟨⟨"etl", "src/count/map,words.py", false⟩, .file "map,words.py"⟩ := by decide +kernel
  have stagedReducer : ((some "sum.py").mapM (stageFile wordCount)).toOption =
      some (some ⟨⟨"etl", "src/count/sum.py", false⟩, .file "sum.py"⟩) := by decide +kernel
  rw [hm] at hmapper
  rw [hr] at hreducer
  rw [hmapper] at stagedMapper
  rw [hreducer] at stagedReducer
  cases stagedMapper
  cases stagedReducer
  obtain rfl : [⟨"landing", "texts", true⟩] = inputs :=
    List.map_injective_iff.mpr (Option.some_injective Location) hinputs
  obtain rfl : 3 = series := Option.some.inj hseries
  rw [houtput, hp] at readable
  refine (readable.mpr ⟨?_, ?_, ?_⟩).trans ?_ <;> decide +kernel

/-- A parameter that ends with two backslashes takes the comma behind it for its own, so the job does
not get its arguments. -/
theorem emrStreaming_merges : ∃ e text,
    expand .emrStreaming [(.string "mapper", .string "map.py"),
        (.string "hadoop_params", .string "-Dsep=\\\\ -Dtasks=2")] wordCount = .ok e ∧
      e.work.map (·.work) = [.emr [text]] ∧
      jobArguments text ≠ ["/home/hadoop/contrib/streaming/hadoop-streaming.jar", "-Dsep=\\\\",
        "-Dtasks=2", "-files", "s3://etl/src/count/map.py", "-mapper", "map.py", "-reducer", "NONE",
        "-input", "s3://landing/texts/", "-output", "s3://etl/data/count/output/"] := by
  obtain ⟨e, he, only⟩ := exists_ok_of_map_toOption
    (x := expand .emrStreaming [(.string "mapper", .string "map.py"),
      (.string "hadoop_params", .string "-Dsep=\\\\ -Dtasks=2")] wordCount)
    (f := fun e => e.work.map (·.work))
    (b := [.emr [jobText ["/home/hadoop/contrib/streaming/hadoop-streaming.jar", "-Dsep=\\\\",
      "-Dtasks=2", "-files", "s3://etl/src/count/map.py", "-mapper", "map.py", "-reducer", "NONE",
      "-input", "s3://landing/texts/", "-output", "s3://etl/data/count/output/"]]])
    (by decide +kernel)
  refine ⟨e, _, he, only, fun found => ?_⟩
  have sealed := (jobArguments_jobText_iff (List.cons_ne_nil _ _)).mp found "-Dsep=\\\\" (by decide)
  revert sealed
  decide

end EtlFlow.Step
