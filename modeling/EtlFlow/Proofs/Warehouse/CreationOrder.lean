import EtlFlow.Proofs.Sql.Stable
import EtlFlow.Proofs.Warehouse.Passes
import Mathlib.Data.Finset.Card
/-!
# Creating and dropping in order

The search for circles follows dependencies and bounds its path.  `Searches` is the search without
the bound: it always comes to an end with the answer of the bounded one (`searches_search`), finds a
circle only where there is one (`Searches.circular`), and otherwise leaves behind nothing but
accessible relations (`Searches.acc`).  So the search and the passes agree on what is circular
(`circular_iff_unsortable`).

A database without circles is created relation by relation, each behind those that it needs, and
dropped in the reverse order (`creation_order`).  The definitions come out as they were read.  A DROP
is read from its text once more, so that it comes out as it is meant exactly for a name that the
clean-up leaves alone (`dropScript_eq_iff`).
-/

open Relation (TransGen)

namespace EtlFlow.Warehouse.Database

open Dependency (LeadsToCircle)

variable {reads : String → List String} {all path done names : List String}
  {answer : Option (List String)} {free : ℕ} {db : Database}

/-! ### The search without a bound -/

/-- The search from `names` behind `path`, with `done` names from which no circle is reached, ends
with an answer: the names that are done then, or none where it comes back to its path. -/
inductive Searches (reads : String → List String) :
    List String → List String → List String → Option (List String) → Prop
  | nil {path done : List String} : Searches reads path done [] (some done)
  | back {path done ns : List String} {n : String} : n ∈ path → Searches reads path done (n :: ns) none
  | again {path done ns : List String} {n : String} {answer : Option (List String)} :
      n ∉ path → n ∈ done → Searches reads path done ns answer →
        Searches reads path done (n :: ns) answer
  | circle {path done ns : List String} {n : String} : n ∉ path → n ∉ done →
      Searches reads (n :: path) done (reads n) none → Searches reads path done (n :: ns) none
  | visit {path done done' ns : List String} {n : String} {answer : Option (List String)} :
      n ∉ path → n ∉ done → Searches reads (n :: path) done (reads n) (some done') →
        Searches reads path (n :: done') ns answer → Searches reads path done (n :: ns) answer

/-- A path that repeats no name grows to at most all names, so the bound is never what ends the
search. -/
theorem searches_search (hreads : ∀ n, reads n ⊆ all) (hnames : names ⊆ all) (hpath : path ⊆ all)
    (hn : path.Nodup) (hfree : all.length ≤ free + path.length) :
    Searches reads path done names (search reads free path done names) := by
  have inside {path : List String} {n : String} (hp : path ⊆ all) (h : n ∈ all) : n :: path ⊆ all :=
    List.cons_subset.mpr ⟨h, hp⟩
  fun_induction search reads free path done names with
  | case1 => exact .nil
  | case2 free path done n ns h => exact .back h
  | case3 free path done n ns hp hd ih =>
      rw [List.cons_subset] at hnames
      exact .again hp hd (ih hnames.2 hpath hn hfree)
  | case4 path done n ns hp hd =>
      rw [List.cons_subset] at hnames
      have longer : (n :: path).length ≤ all.length :=
        ((List.nodup_cons.mpr ⟨hp, hn⟩).subperm (inside hpath hnames.1)).length_le
      rw [List.length_cons] at longer
      omega
  | case5 path done n ns hp hd free hnone ih =>
      rw [List.cons_subset] at hnames
      have := ih (hreads n) (inside hpath hnames.1) (List.nodup_cons.mpr ⟨hp, hn⟩)
        (by rw [List.length_cons]; omega)
      rw [hnone] at this
      exact .circle hp hd this
  | case6 path done n ns hp hd free done' hsome ih₁ ih₂ =>
      rw [List.cons_subset] at hnames
      have := ih₁ (hreads n) (inside hpath hnames.1) (List.nodup_cons.mpr ⟨hp, hn⟩)
        (by rw [List.length_cons]; omega)
      rw [hsome] at this
      exact .visit hp hd this (ih₂ hnames.2 hpath hn hfree)

/-- Every name of the path leads to all names that are searched next, so one that is on the path
closes a circle. -/
theorem Searches.circular {r : String → String → Prop} (hr : ∀ x, ∀ y ∈ reads x, r x y)
    (h : Searches reads path done names answer) (hnone : answer = none)
    (hpath : ∀ p ∈ path, ∀ n ∈ names, TransGen r p n) : ∃ x, TransGen r x x := by
  induction h with
  | nil => cases hnone
  | back h => exact ⟨_, hpath _ h _ List.mem_cons_self⟩
  | again _ _ _ ih => exact ih hnone fun p hp n hn => hpath p hp n (List.mem_cons_of_mem _ hn)
  | circle _ _ _ ih =>
      refine ih rfl fun p hp n hn => ?_
      rcases List.mem_cons.mp hp with rfl | hp
      · exact .single (hr p n hn)
      · exact (hpath p hp _ List.mem_cons_self).tail (hr _ n hn)
  | visit _ _ _ _ _ ih => exact ih hnone fun p hp n hn => hpath p hp n (List.mem_cons_of_mem _ hn)

/-- A search that finds no circle is done with all names, and whatever is done is accessible. -/
theorem Searches.acc {r : String → String → Prop} (hr : ∀ x y, r x y → y ∈ reads x)
    (h : Searches reads path done names answer) {done' : List String} (hsome : answer = some done')
    (hdone : ∀ n ∈ done, Acc (fun y x => r x y) n) :
    done ⊆ done' ∧ names ⊆ done' ∧ ∀ n ∈ done', Acc (fun y x => r x y) n := by
  induction h generalizing done' with
  | nil =>
      cases hsome
      exact ⟨List.Subset.refl _, List.nil_subset _, hdone⟩
  | back => cases hsome
  | again _ hd _ ih =>
      obtain ⟨sub, names, acc⟩ := ih hsome hdone
      exact ⟨sub, List.cons_subset.mpr ⟨sub hd, names⟩, acc⟩
  | circle => cases hsome
  | @visit path done done₁ ns n _ _ _ _ _ ih₁ ih₂ =>
      obtain ⟨sub₁, reads₁, acc₁⟩ := ih₁ rfl hdone
      have acc : Acc (fun y x => r x y) n := .intro n fun y hy => acc₁ y (reads₁ (hr n y hy))
      obtain ⟨sub₂, names₂, acc₂⟩ := ih₂ hsome (List.forall_mem_cons.mpr ⟨acc, acc₁⟩)
      have sub := List.cons_subset.mp sub₂
      exact ⟨List.Subset.trans sub₁ sub.2, List.cons_subset.mpr ⟨sub.1, names₂⟩, acc₂⟩

/-! ### The search and the passes -/

theorem exists_searches (db : Database) :
    ∃ answer, Searches db.reads [] [] db.names answer ∧ db.hasCycles = answer.isNone := by
  have names : ∀ n, db.reads n ⊆ db.names := fun n y hy => (mem_reads_iff.mp hy).mem_names.2
  have length : db.names.length = db.relations.length := List.length_map _
  refine ⟨_, searches_search names (List.Subset.refl _) (List.nil_subset _) List.nodup_nil ?_, rfl⟩
  rw [length]
  exact Nat.le_add_right _ _

theorem hasCycles_iff : db.hasCycles = true ↔ db.Circular := by
  obtain ⟨answer, searches, heq⟩ := exists_searches db
  rw [heq, Option.isNone_iff_eq_none]
  constructor
  · intro hnone
    exact searches.circular (fun _ _ hy => mem_reads_iff.mp hy) hnone (by simp)
  · rintro ⟨x, hx⟩
    cases answer with
    | none => rfl
    | some done =>
        obtain ⟨y, hxy, -⟩ := TransGen.head'_iff.mp hx
        obtain ⟨-, hnames, acc⟩ := searches.acc (fun _ _ hxy => mem_reads_iff.mpr hxy) rfl (by simp)
        have hacc := acc x (hnames hxy.mem_names.1)
        exact absurd ⟨x, .refl, hx⟩ (Dependency.not_leadsToCircle_of_acc hacc)

theorem exists_error_iff : (∃ e, db.sorted = .error e) ↔ db.Circular := by
  rcases sorted_cases db with ⟨rs, hok, perm, inOrder⟩ | ⟨left, hne, -, herror, hleft⟩
  · rw [hok]
    exact iff_of_false (by simp) (inOrder.not_circular perm)
  · obtain ⟨r, hr⟩ := List.exists_mem_of_ne_nil left hne
    obtain ⟨-, c, -, hc⟩ := (hleft r.fullName).mp (List.mem_map_of_mem hr)
    exact ⟨fun _ => ⟨c, hc⟩, fun _ => ⟨_, herror⟩⟩

/-- For every database: the search finds a circle, and the passes fail, exactly when some relation
depends on itself through others.  When the passes fail, they name the relations that lead to a
circle, and no others, in the order in which they were added.  Both computations end: the search
without any bound on its path has an answer, which is that of the bounded one, and the passes come to
rest within as many passes as there are relations. -/
theorem circular_iff_unsortable (db : Database) :
    (db.hasCycles = true ↔ db.Circular) ∧
    ((∃ e, db.sorted = .error e) ↔ db.Circular) ∧
    (∀ e, db.sorted = .error e → ∃ names, e = .cycle names ∧ names.Sublist db.names ∧
      ∀ x, x ∈ names ↔ x ∈ db.names ∧ LeadsToCircle db.Needs x) ∧
    (∃ answer, Searches db.reads [] [] db.names answer ∧ db.hasCycles = answer.isNone) ∧
    ∃ n ≤ db.relations.length,
      Rests db ((fun s => pass db s.1 s.2)^[n] ([], db.relations)) db.sorted := by
  refine ⟨hasCycles_iff, exists_error_iff, ?_, exists_searches db, rests_passes db [] db.relations⟩
  intro e he
  rcases sorted_cases db with ⟨rs, hok, -⟩ | ⟨left, -, sublist, herror, hleft⟩
  · rw [hok] at he
    cases he
  · rw [herror] at he
    cases he
    exact ⟨_, rfl, sublist.map _, hleft⟩

/-! ### Relations in a circle -/

/-- A table with a key to each of some other tables. -/
def referring (name : String) (others : List String) : Relation := .table {
  statement := ⟨"create table " ++ name ++ " (" ++
    ", ".intercalate (others.map fun o => o ++ "_id int references " ++ o) ++ ")"⟩
  fullName := name
  temporary := false
  ifNotExists := false
  columns := (others.zipIdx).map fun (o, i) => { name := o ++ "_id", type := "int", position := i }
  primaryKeys := []
  foreignKeys := others.map fun o => ⟨[o ++ "_id"], ⟨o, []⟩⟩
  diststyle := none }

/-- Teams and their leaders refer to each other, members to teams, and rooms to themselves. -/
def club : Database where
  relations := [referring "rooms" ["rooms"], referring "members" ["teams"],
    referring "teams" ["leaders"], referring "leaders" ["teams"]]
  nodup_names := by decide

theorem circular_iff_unsortable_club : ∃ names, club.sorted = .error (.cycle names) ∧
    "members" ∈ names ∧ "rooms" ∉ names := by
  obtain ⟨-, unsortable, named, -⟩ := circular_iff_unsortable club
  have there : club.Needs "teams" "leaders" := mem_reads_iff.mp (by decide +kernel)
  have back : club.Needs "leaders" "teams" := mem_reads_iff.mp (by decide +kernel)
  have member : club.Needs "members" "teams" := mem_reads_iff.mp (by decide +kernel)
  have circle : TransGen club.Needs "teams" "teams" := .tail (.single there) back
  obtain ⟨e, he⟩ := unsortable.mpr ⟨_, circle⟩
  obtain ⟨names, rfl, -, mem⟩ := named e he
  refine ⟨names, he, ?_, ?_⟩
  · exact (mem _).mpr ⟨by decide +kernel, "teams", .single member, circle⟩
  · intro h
    obtain ⟨y, hy, -⟩ := ((mem _).mp h).2.exists_step
    have alone : club.reads "rooms" = [] := by decide +kernel
    have := mem_reads_iff.mpr hy
    rw [alone] at this
    cases this

end EtlFlow.Warehouse.Database

namespace EtlFlow.Warehouse

open Sql (IsQuiet)

/-! ### Dropping a relation -/

namespace Relation

/-- What a DROP says before the name. -/
def dropFront (r : Relation) : String := "DROP " ++ r.kind ++ " IF EXISTS "

/-- The statement that drops the relation by its name. -/
def dropText (r : Relation) : String := r.dropFront ++ r.fullName ++ " CASCADE"

variable (r : Relation)

theorem dropFront_calm :
    (∀ c ∈ r.dropFront.toList, Sql.isCalm c) ∧ '\n' ∉ r.dropFront.toList := by
  have words : r.kind = "TABLE" ∨ r.kind = "VIEW" := by cases r <;> simp [kind]
  rcases words with h | h <;> rw [dropFront, h] <;> decide

theorem toList_dropText :
    r.dropText.toList = r.dropFront.toList ++ (r.fullName.toList ++ " CASCADE".toList) := by
  rw [dropText, String.toList_append, String.toList_append, List.append_assoc]

theorem head?_dropText : r.dropText.toList.head? = some 'D' := by
  rw [toList_dropText, dropFront, String.toList_append, String.toList_append]
  rfl

theorem getLast?_dropText : r.dropText.toList.getLast? = some 'E' := by
  rw [toList_dropText, ← List.append_assoc, List.getLast?_append_of_ne_nil _ (by decide)]
  rfl

/-- Dropping the relation reads the text of the statement, with its semicolon, as a script. -/
theorem statements_dropScript :
    r.dropScript.statements = (Sql.Script.ofText (r.dropText ++ ";")).statements := by
  have text : (Command.dropRelation r.kind r.fullName).text =
      "DROP " ++ r.kind ++ " IF EXISTS " ++ r.fullName ++ " CASCADE;" := rfl
  have cascade : " CASCADE;" = " CASCADE" ++ ";" := by decide
  rw [cascade, ← String.append_assoc, ← dropFront, ← dropText] at text
  rw [dropScript, Command.script, List.flatMap_singleton, text]

/-- A relation is dropped by its name exactly when the name is quiet. -/
theorem dropScript_eq_iff :
    r.dropScript.statements = [⟨r.dropText⟩] ↔ IsQuiet r.fullName.toList := by
  have last := r.getLast?_dropText
  have trimmed : Text.trim r.dropText.toList = r.dropText.toList := by
    refine Text.trim_eq_self ?_ ?_
    · rw [head?_dropText]
      simp [Text.isBlank]
    · rw [last]
      simp [Text.isBlank]
  have ne_nil : r.dropText.toList ≠ [] := by
    intro h
    rw [h] at last
    cases last
  have quiet : IsQuiet r.dropText.toList ↔ IsQuiet r.fullName.toList := by
    rw [toList_dropText]
    exact Sql.isQuiet_append r.dropFront_calm.1 r.dropFront_calm.2 (by decide) (by decide)
      (by simp [Sql.SameSign])
  rw [statements_dropScript, Sql.statements_ofText_eq_singleton_iff, last, ← quiet]
  constructor
  · rintro ⟨hx, free, closed⟩
    exact ⟨hx.settled, free, closed.resolve_right (by decide)⟩
  · rintro ⟨settled, free, closed⟩
    exact ⟨⟨settled, trimmed, ne_nil⟩, free, .inl closed⟩

/-- A quote or the signs of a comment in a name are not quiet. -/
example : IsQuiet "analytics.orders".toList ∧ ¬IsQuiet "\"a'--b\"".toList := by decide +kernel

end Relation

/-! ### The order of a database -/

namespace Database

open Sequence (AtEach)

variable {db : Database} {rs : List Relation}

/-- Every relation of the database stands in the list behind those that it needs. -/
def Ordered (db : Database) (rs : List Relation) : Prop :=
  ∀ r ∈ db.relations, ∀ q ∈ db.relations, db.Needs r.fullName q.fullName → [q, r].Sublist rs

theorem inOrder_iff_atEach : db.InOrder rs ↔
    AtEach (fun front r => db.reads r.fullName ⊆ front.map Relation.fullName) rs := by
  induction rs using List.reverseRecOn with
  | nil => exact iff_of_true trivial Sequence.atEach_nil
  | append_singleton rs r ih => rw [inOrder_concat, Sequence.atEach_append_singleton, ih]

theorem inOrder_iff_ordered (hperm : rs.Perm db.relations) : db.InOrder rs ↔ db.Ordered rs := by
  rw [inOrder_iff_atEach]
  constructor
  · intro h r hr q hq hneeds
    obtain ⟨front, back, rfl⟩ := List.append_of_mem (hperm.mem_iff.mpr hr)
    obtain ⟨q', hq', hname⟩ := List.mem_map.mp (h front r back rfl (mem_reads_iff.mpr hneeds))
    have hdb : q' ∈ db.relations := hperm.mem_iff.mp (List.mem_append_left _ hq')
    rw [← Sequence.eq_of_name_eq db.nodup_names hdb hq hname]
    exact (List.singleton_sublist.mpr hq').append (List.singleton_sublist.mpr (List.mem_cons_self ..))
  · rintro h front r back rfl y hy
    have hneeds := mem_reads_iff.mp hy
    obtain ⟨q, hq, rfl⟩ := List.mem_map.mp hneeds.mem_names.2
    have hr : r ∈ db.relations := hperm.mem_iff.mp (by simp)
    have nodup : (front ++ r :: back).Nodup := hperm.nodup_iff.mpr db.nodup_names.of_map
    obtain ⟨l₁, l₂, hl, hfront, hback⟩ := List.sublist_append_iff.mp (h r hr q hq hneeds)
    cases l₁ with
    | cons a l₁ =>
      rw [List.cons_append, List.cons.injEq] at hl
      rw [hl.1]
      exact List.mem_map_of_mem (hfront.subset (List.mem_cons_self ..))
    | nil =>
      -- behind `r` there is no second `r` for `q` to stand before
      rw [List.nil_append] at hl
      subst hl
      have hne : q ≠ r := by
        rintro rfl
        obtain ⟨-, -, -, -, -, hne⟩ := hneeds
        exact hne rfl
      have rest : [q, r].Sublist back := by
        cases hback with
        | cons _ h => exact h
        | cons_cons => exact absurd rfl hne
      have hmem : r ∈ back := rest.subset (by simp)
      rw [List.nodup_append, List.nodup_cons] at nodup
      exact absurd hmem nodup.2.1.1

theorem exists_sorted (h : ¬db.Circular) :
    ∃ rs, db.sorted = .ok rs ∧ rs.Perm db.relations ∧ db.Ordered rs := by
  rcases sorted_cases db with ⟨rs, hok, hperm, inOrder⟩ | ⟨left, -, -, herror, -⟩
  · exact ⟨rs, hok, hperm, (inOrder_iff_ordered hperm).mp inOrder⟩
  · exact absurd (exists_error_iff.mp ⟨_, herror⟩) h

/-- Relations in order stay in their order. -/
theorem sorted_of_ordered (h : db.Ordered db.relations) : db.sorted = .ok db.relations := by
  have inOrder := (inOrder_iff_ordered (.refl _)).mpr h
  have one : pass db [] db.relations = (db.relations, []) := pass_of_inOrder inOrder
  rw [sorted, passes, one]
  split
  · simp [*]
  · have longer : ([] : List Relation).length < db.relations.length := by
      rw [List.length_nil, List.length_pos_iff]
      assumption
    rw [if_pos longer, passes, if_pos rfl]

theorem Ordered.flatMap {α : Type} (h : db.Ordered rs) (f : Relation → List α) {r q : Relation}
    (hr : r ∈ db.relations) (hq : q ∈ db.relations) (hneeds : db.Needs r.fullName q.fullName) :
    (f q ++ f r).Sublist (rs.flatMap f) := by
  have := (h r hr q hq hneeds).flatMap f
  rwa [List.flatMap_cons, List.flatMap_singleton] at this

theorem Ordered.flatMap_reverse {α : Type} (h : db.Ordered rs) (f : Relation → List α)
    {r q : Relation} (hr : r ∈ db.relations) (hq : q ∈ db.relations)
    (hneeds : db.Needs r.fullName q.fullName) : (f r ++ f q).Sublist (rs.reverse.flatMap f) := by
  have := (h r hr q hq hneeds).reverse.flatMap f
  rwa [List.reverse_cons, List.reverse_singleton, List.singleton_append, List.flatMap_cons,
    List.flatMap_singleton] at this

/-- A database without circles is sorted: all its relations come, each behind those that it needs, and
in the order in which they were added if that is such an order.  The script that creates them has
the definition of each relation behind the definitions of those that it needs, and the script that
drops them goes the other way.  Of each relation it has the one statement that drops the relation by
its name, exactly if that name is quiet. -/
theorem creation_order (h : ¬db.Circular) : ∃ rs, db.sorted = .ok rs ∧
    rs.Perm db.relations ∧ db.Ordered rs ∧ (db.Ordered db.relations → rs = db.relations) ∧
    (∀ permissions, ∃ s, db.createScript permissions = .ok s ∧
      s.statements = rs.flatMap (fun r =>
        r.statement :: (grantScript r.fullName permissions).statements) ∧
      ∀ r ∈ db.relations, ∀ q ∈ db.relations, db.Needs r.fullName q.fullName →
        [q.statement, r.statement].Sublist s.statements) ∧
    (∃ s, db.dropScript = .ok s ∧
      s.statements = rs.reverse.flatMap (fun r => r.dropScript.statements) ∧
      (∀ r ∈ db.relations, ∀ q ∈ db.relations, db.Needs r.fullName q.fullName →
        (r.dropScript.statements ++ q.dropScript.statements).Sublist s.statements) ∧
      ((∀ r ∈ db.relations, IsQuiet r.fullName.toList) →
        s.statements = rs.reverse.map fun r => ⟨r.dropText⟩)) ∧
    ∀ r ∈ db.relations, r.dropScript.statements = [⟨r.dropText⟩] ↔ IsQuiet r.fullName.toList := by
  obtain ⟨rs, hok, hperm, ordered⟩ := exists_sorted h
  refine ⟨rs, hok, hperm, ordered, ?_, ?_, ?_, fun r _ => r.dropScript_eq_iff⟩
  · intro hdb
    rw [sorted_of_ordered hdb] at hok
    cases hok
    rfl
  · intro permissions
    refine ⟨_, by rw [createScript, hok]; rfl, rfl, fun r hr q hq hneeds => ?_⟩
    have definitions := ordered.flatMap
      (fun r => (r.createScript permissions).statements) hr hq hneeds
    refine List.Sublist.trans ?_ definitions
    exact ((List.nil_sublist _).cons_cons _).append ((List.nil_sublist _).cons_cons _)
  · refine ⟨_, by rw [dropScript, hok]; rfl, rfl, fun r hr q hq => ?_, fun quiet => ?_⟩
    · exact ordered.flatMap_reverse (fun r => r.dropScript.statements) hr hq
    · have single : ∀ r ∈ rs.reverse, r.dropScript.statements = [⟨r.dropText⟩] := by
        intro r hr
        rw [List.mem_reverse, hperm.mem_iff] at hr
        exact r.dropScript_eq_iff.mpr (quiet r hr)
      exact (List.flatMap_congr single).trans List.map_eq_flatMap.symm

/-- Orders refer to customers and to the shop where they are made. -/
def shop : Database where
  relations := [referring "orders" ["customers", "branches"], referring "customers" [],
    referring "branches" ["orders_archive"]]
  nodup_names := by decide

theorem creation_order_shop : ∃ rs, shop.sorted = .ok rs ∧ rs.Perm shop.relations ∧
    [referring "branches" ["orders_archive"],
      referring "orders" ["customers", "branches"]].Sublist rs := by
  have first : shop.InOrder [referring "customers" [], referring "branches" ["orders_archive"],
      referring "orders" ["customers", "branches"]] := by
    refine ⟨?_, ?_, ?_, trivial⟩ <;> decide +kernel
  have perm : [referring "customers" [], referring "branches" ["orders_archive"],
      referring "orders" ["customers", "branches"]].Perm shop.relations := by decide +kernel
  obtain ⟨rs, hok, hperm, ordered, -⟩ := creation_order (first.not_circular perm)
  refine ⟨rs, hok, hperm, ordered _ (by simp [shop]) _ (by simp [shop]) ?_⟩
  exact mem_reads_iff.mp (by decide +kernel)

theorem inOrder_singleton {r : Relation} (h : db.relations = [r]) : db.InOrder db.relations := by
  rw [h]
  refine ⟨fun y hy => ?_, trivial⟩
  obtain ⟨q, hq, hname, -, hmem, hne⟩ := mem_reads_iff.mp hy
  rw [names, h] at hmem
  exact absurd (List.mem_singleton.mp hmem) hne

/-- The quote in the name of the table closes behind it in the definition, but in the DROP it stays
open, and what follows the two minus signs is gone with them. -/
theorem dropScript_quoted_name : ∃ t db s,
    Table.parse "CREATE TABLE \"a'--b\" (id INT DEFAULT 'x')" = .ok t ∧
      Database.ofRelations [.table t] = .ok db ∧ ¬db.Circular ∧ db.dropScript = .ok s ∧
      t.fullName = "\"a'--b\"" ∧ s.texts = ["DROP TABLE IF EXISTS \"a'"] := by
  have reads : (Table.parse "CREATE TABLE \"a'--b\" (id INT DEFAULT 'x')").toOption.map
      (fun t => (t.fullName, (Relation.table t).dropScript.texts)) =
        some ("\"a'--b\"", ["DROP TABLE IF EXISTS \"a'"]) := by decide +kernel
  obtain ⟨t, ht, hdrop⟩ := Outcome.exists_ok_of_map_toOption reads
  rw [Prod.mk.injEq] at hdrop
  let db : Database := ⟨[.table t], by simp⟩
  have inOrder : db.InOrder db.relations := inOrder_singleton rfl
  have sorted := sorted_of_ordered ((inOrder_iff_ordered (.refl _)).mp inOrder)
  refine ⟨t, db, (Relation.table t).dropScript, ht, by simp [ofRelations, add, db],
    inOrder.not_circular (.refl _), ?_, hdrop⟩
  rw [dropScript, sorted]
  simp [Except.map, db]

end Database

end EtlFlow.Warehouse
