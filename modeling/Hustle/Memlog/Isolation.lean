import Hustle.Memlog.LogRepr
import Hustle.Util.Run

/-!
This module compares the memlog of a database in a process with several databases to the memlog of the
same database on its own. All memlogs share one `table_map`, and closing any database clears it, so the
comparison succeeds for the interleavings that leave alone what a database looks up.
-/

namespace Hustle.Memlog

inductive DbOp where
  | insertRecord (record : DBRecord) (tableId : Nat)
  | updateDb
  | clear
  | free
  | addTableMapping (dbId rootPageId : Int) (name : String)
  | removeTableMapping (dbId : Int) (name : String)
  | addTable (name : String) (table : Option TablePtr)
  deriving DecidableEq

/--
The databases of a process. A memlog that has been freed is a null pointer. `own` is what `table_map`
would be if only one database had used it.
-/
structure Process (Db σ : Type) where
  tableMap : TableMap
  logs : Db → Option HustleMemLog
  catalogs : Db → Catalog
  tables : Db → σ
  own : Db → TableMap

namespace Process

open HustleMemLog

variable {Db σ : Type} [DecidableEq Db] (apply : σ → TablePtr → DBRecord → σ)

def setLog (w : Process Db σ) (d : Db) (log : Option HustleMemLog) : Process Db σ :=
  { w with logs := Function.update w.logs d log }

def setCatalog (w : Process Db σ) (d : Db) (catalog : Catalog) : Process Db σ :=
  { w with catalogs := Function.update w.catalogs d catalog }

def setTables (w : Process Db σ) (d : Db) (tables : σ) : Process Db σ :=
  { w with tables := Function.update w.tables d tables }

/--
Change `table_map`, and what it would be without the other databases.
-/
def setTableMap (w : Process Db σ) (d : Db) (tableMap own : TableMap) : Process Db σ :=
  { w with tableMap := tableMap, own := Function.update w.own d own }

/--
A call that is made on behalf of the database `d`. Calls on a null pointer return an error.
-/
def call (w : Process Db σ) (d : Db) : DbOp → Option (Process Db σ)
  | .insertRecord record tableId =>
    match w.logs d with
    | none => some w
    | some log => do
      let log ← log.insertRecord record tableId
      return w.setLog d log
  | .updateDb =>
    match w.logs d with
    | none => some w
    | some log => do
      let (log, tables) ← log.updateDb apply w.tableMap (w.catalogs d) true (w.tables d)
      return (w.setLog d log).setTables d tables
  | .clear =>
    match w.logs d with
    | none => some w
    | some log => do
      let log ← log.clear
      return w.setLog d log
  | .free =>
    match w.logs d with
    | none => some w
    | some log => do
      let _ ← log.clear
      return (w.setLog d none).setTableMap d ∅ ∅
  | .addTableMapping dbId rootPageId name =>
    some (w.setTableMap d (addTableMapping w.tableMap dbId rootPageId name)
      (addTableMapping (w.own d) dbId rootPageId name))
  | .removeTableMapping dbId name =>
    let removed := removeTableMapping w.tableMap (w.catalogs d) dbId name
    let own := removeTableMapping (w.own d) (w.catalogs d) dbId name
    some ((w.setTableMap d removed.1 own.1).setCatalog d removed.2)
  | .addTable name table => some (w.setCatalog d ((w.catalogs d).addTable name table))

def step (w : Process Db σ) (c : Db × DbOp) : Option (Process Db σ) :=
  w.call apply c.1 c.2

/--
What a call looks up in `table_map` is what the database itself has put there: a commit finds the same
table for every root page with records, and a mapping that is removed is there or not in the same way.
-/
def Undisturbed (w : Process Db σ) (d : Db) : DbOp → Prop
  | .updateDb =>
    ∀ log ∈ w.logs d, ∀ i, i < log.recordList.length →
      (log.recordList[i]?.bind SList.Header.head).isSome →
      resolve w.tableMap (w.catalogs d) i = resolve (w.own d) (w.catalogs d) i
  | .removeTableMapping dbId name =>
    (TableMap.findName (w.tableMap.pages dbId) name).isSome
      = (TableMap.findName ((w.own d).pages dbId) name).isSome
  | _ => True

instance (w : Process Db σ) (d : Db) (op : DbOp) : Decidable (w.Undisturbed d op) :=
  match op with
  | .updateDb => inferInstanceAs (Decidable (∀ _ ∈ _, ∀ _, _))
  | .removeTableMapping _ _ => inferInstanceAs (Decidable (_ = _))
  | .insertRecord _ _ | .clear | .free | .addTableMapping _ _ _ | .addTable _ _ =>
    inferInstanceAs (Decidable True)

def callsOf (d : Db) (calls : List (Db × DbOp)) : List (Db × DbOp) :=
  calls.filter fun c => c.1 = d

/--
Two processes agree on a database, the second of which runs that database only.
-/
structure Agrees (d : Db) (w v : Process Db σ) : Prop where
  logs_eq : w.logs d = v.logs d
  catalogs_eq : w.catalogs d = v.catalogs d
  tables_eq : w.tables d = v.tables d
  own_eq : w.own d = v.tableMap

def WellFormed (w : Process Db σ) : Prop :=
  ∀ d, ∀ log ∈ w.logs d, ∃ pending, log.Holds pending

theorem WellFormed.setLog {w : Process Db σ} (h : w.WellFormed) {d : Db} {log : HustleMemLog}
    {pending : Nat → List DBRecord} (hlog : log.Holds pending)
    : (w.setLog d log).WellFormed := by
  intro d' log' hmem
  by_cases hd : d' = d
  . subst hd
    simp only [Process.setLog, Function.update_self, Option.mem_def, Option.some.injEq] at hmem
    exact ⟨pending, hmem ▸ hlog⟩
  . simp only [Process.setLog, Function.update_of_ne hd] at hmem
    exact h d' log' hmem

theorem WellFormed.setLog_none {w : Process Db σ} (h : w.WellFormed) (d : Db)
    : (w.setLog d none).WellFormed := by
  intro d' log' hmem
  by_cases hd : d' = d
  . subst hd
    simp [Process.setLog] at hmem
  . simp only [Process.setLog, Function.update_of_ne hd] at hmem
    exact h d' log' hmem

/--
Calls of other databases do not touch what a database owns.
-/
theorem call_other {w : Process Db σ} (h : w.WellFormed) {d d' : Db} (hd : d ≠ d') (op : DbOp)
    : ∃ w', w.call apply d' op = some w' ∧
        w'.WellFormed ∧
        w'.logs d = w.logs d ∧
        w'.catalogs d = w.catalogs d ∧
        w'.tables d = w.tables d ∧
        w'.own d = w.own d := by
  unfold call
  cases op with
  | insertRecord record tableId =>
    cases hlog : w.logs d' with
    | none => exact ⟨w, rfl, h, rfl, rfl, rfl, rfl⟩
    | some log =>
      obtain ⟨pending, hholds⟩ := h d' log hlog
      obtain ⟨log', heq, hholds'⟩ := hholds.insertRecord record tableId
      simp only [heq, Option.bind_eq_bind, Option.bind_some]
      exact ⟨_, rfl, h.setLog hholds', Function.update_of_ne hd _ _, rfl, rfl, rfl⟩
  | updateDb =>
    cases hlog : w.logs d' with
    | none => exact ⟨w, rfl, h, rfl, rfl, rfl, rfl⟩
    | some log =>
      obtain ⟨pending, hholds⟩ := h d' log hlog
      obtain ⟨log', heq, hholds', -⟩ :=
        hholds.updateDb apply w.tableMap (w.catalogs d') true (w.tables d')
      simp only [heq, Option.bind_eq_bind, Option.bind_some]
      exact ⟨_, rfl, h.setLog hholds', Function.update_of_ne hd _ _, rfl,
        Function.update_of_ne hd _ _, rfl⟩
  | clear =>
    cases hlog : w.logs d' with
    | none => exact ⟨w, rfl, h, rfl, rfl, rfl, rfl⟩
    | some log =>
      obtain ⟨pending, hholds⟩ := h d' log hlog
      obtain ⟨log', heq, hholds'⟩ := hholds.clear
      simp only [heq, Option.bind_eq_bind, Option.bind_some]
      exact ⟨_, rfl, h.setLog hholds', Function.update_of_ne hd _ _, rfl, rfl, rfl⟩
  | free =>
    cases hlog : w.logs d' with
    | none => exact ⟨w, rfl, h, rfl, rfl, rfl, rfl⟩
    | some log =>
      obtain ⟨pending, hholds⟩ := h d' log hlog
      obtain ⟨log', heq, -⟩ := hholds.clear
      simp only [heq, Option.bind_eq_bind, Option.bind_some]
      exact ⟨_, rfl, h.setLog_none d', Function.update_of_ne hd _ _, rfl, rfl,
        Function.update_of_ne hd _ _⟩
  | addTableMapping dbId rootPageId name =>
    exact ⟨_, rfl, h, rfl, rfl, rfl, Function.update_of_ne hd _ _⟩
  | removeTableMapping dbId name =>
    exact ⟨_, rfl, h, rfl, Function.update_of_ne hd _ _, rfl, Function.update_of_ne hd _ _⟩
  | addTable name table => exact ⟨_, rfl, h, rfl, Function.update_of_ne hd _ _, rfl, rfl⟩

theorem removeTableMapping_catalog (tableMap : TableMap) (catalog : Catalog) (dbId : Int)
    (name : String)
    : (removeTableMapping tableMap catalog dbId name).2
        =
      if (TableMap.findName (tableMap.pages dbId) name).isSome then
        catalog.dropMemTable name
      else
        catalog := by
  unfold removeTableMapping
  split
  . next heq => simp [heq]
  . next heq => simp [heq]

/--
A call that is not disturbed does the same with and without the other databases.
-/
theorem call_own {w v : Process Db σ} (h : w.WellFormed) {d : Db} (hagrees : Agrees d w v) {op : DbOp}
    (hop : w.Undisturbed d op)
    : ∃ w' v', w.call apply d op = some w' ∧
        v.call apply d op = some v' ∧
        w'.WellFormed ∧
        Agrees d w' v' := by
  obtain ⟨hlogs, hcatalogs, htables, hown⟩ := hagrees
  unfold call
  cases op with
  | insertRecord record tableId =>
    cases hlog : w.logs d with
    | none =>
      rw [hlog] at hlogs
      simp only [← hlogs]
      exact ⟨w, v, rfl, rfl, h, hlog.trans hlogs, hcatalogs, htables, hown⟩
    | some log =>
      obtain ⟨pending, hholds⟩ := h d log hlog
      obtain ⟨log', heq, hholds'⟩ := hholds.insertRecord record tableId
      simp only [← hlogs, hlog, heq, Option.bind_eq_bind, Option.bind_some]
      refine ⟨_, _, rfl, rfl, h.setLog hholds', ?_, hcatalogs, htables, hown⟩
      simp [setLog]
  | updateDb =>
    cases hlog : w.logs d with
    | none =>
      rw [hlog] at hlogs
      simp only [← hlogs]
      exact ⟨w, v, rfl, rfl, h, hlog.trans hlogs, hcatalogs, htables, hown⟩
    | some log =>
      obtain ⟨pending, hholds⟩ := h d log hlog
      have hsame : ∀ i, pending i ≠ []
          → resolve w.tableMap (w.catalogs d) i = resolve (w.own d) (w.catalogs d) i := by
        intro i hne
        have hhead := (hholds.head_isSome_iff i).mpr hne
        have hlt : i < log.recordList.length := by
          by_contra hge
          rw [List.getElem?_eq_none (by omega)] at hhead
          simp at hhead
        exact hop log hlog i hlt hhead
      have hcongr := hholds.updateDb_congr apply hsame true (w.tables d)
      obtain ⟨log', heq, hholds', -⟩ :=
        hholds.updateDb apply w.tableMap (w.catalogs d) true (w.tables d)
      rw [hcongr] at heq
      simp only [← hlogs, hlog, ← hcatalogs, ← htables, ← hown, hcongr, heq, Option.bind_eq_bind,
        Option.bind_some]
      refine ⟨_, _, rfl, rfl, h.setLog hholds', ?_, hcatalogs, ?_, hown⟩
      . simp [setLog, setTables]
      . simp [setTables]
  | clear =>
    cases hlog : w.logs d with
    | none =>
      rw [hlog] at hlogs
      simp only [← hlogs]
      exact ⟨w, v, rfl, rfl, h, hlog.trans hlogs, hcatalogs, htables, hown⟩
    | some log =>
      obtain ⟨pending, hholds⟩ := h d log hlog
      obtain ⟨log', heq, hholds'⟩ := hholds.clear
      simp only [← hlogs, hlog, heq, Option.bind_eq_bind, Option.bind_some]
      refine ⟨_, _, rfl, rfl, h.setLog hholds', ?_, hcatalogs, htables, hown⟩
      simp [setLog]
  | free =>
    cases hlog : w.logs d with
    | none =>
      rw [hlog] at hlogs
      simp only [← hlogs]
      exact ⟨w, v, rfl, rfl, h, hlog.trans hlogs, hcatalogs, htables, hown⟩
    | some log =>
      obtain ⟨pending, hholds⟩ := h d log hlog
      obtain ⟨log', heq, -⟩ := hholds.clear
      simp only [← hlogs, hlog, heq, Option.bind_eq_bind, Option.bind_some]
      refine ⟨_, _, rfl, rfl, h.setLog_none d, ?_, hcatalogs, htables, ?_⟩
      . simp [setLog, setTableMap]
      . simp [setTableMap]
  | addTableMapping dbId rootPageId name =>
    refine ⟨_, _, rfl, rfl, h, hlogs, hcatalogs, htables, ?_⟩
    simp [setTableMap, hown]
  | removeTableMapping dbId name =>
    refine ⟨_, _, rfl, rfl, h, hlogs, ?_, htables, ?_⟩
    . dsimp only [Undisturbed] at hop
      simp only [setCatalog, Function.update_self, removeTableMapping_catalog, hop, ← hown, hcatalogs]
    . simp only [setCatalog, setTableMap, Function.update_self, hown, hcatalogs]
  | addTable name table =>
    refine ⟨_, _, rfl, rfl, h, hlogs, ?_, htables, hown⟩
    simp [setCatalog, hcatalogs]

theorem foldlM_agrees {w v : Process Db σ} (h : w.WellFormed) {d : Db} (hagrees : Agrees d w v)
    {calls : List (Db × DbOp)}
    (hcalls : Run.Meets (step apply) (fun w c => c.1 = d → w.Undisturbed d c.2) w calls)
    : ∃ w' v', calls.foldlM (step apply) w = some w' ∧
        (callsOf d calls).foldlM (step apply) v = some v' ∧
        Agrees d w' v' := by
  induction calls generalizing w v with
  | nil => exact ⟨w, v, rfl, rfl, hagrees⟩
  | cons c calls ih =>
    obtain ⟨d', op⟩ := c
    rw [List.foldlM_cons]
    by_cases hd : d' = d
    . subst hd
      obtain ⟨w₁, v₁, hw, hv, hwf, hagrees'⟩ := call_own apply h hagrees (hcalls.1 rfl)
      obtain ⟨w', v', hw', hv', hfinal⟩ := ih hwf hagrees' (hcalls.2 w₁ hw)
      have hown : callsOf d' ((d', op) :: calls) = (d', op) :: callsOf d' calls := by
        simp [callsOf]
      rw [hown, List.foldlM_cons, step, step, hw, hv]
      exact ⟨w', v', hw', hv', hfinal⟩
    . obtain ⟨w₁, hw, hwf, hlogs, hcatalogs, htables, hown⟩ :=
        call_other apply h (fun hne => hd hne.symm) op (d := d)
      have hagrees' : Agrees d w₁ v :=
        ⟨
          hlogs.trans hagrees.logs_eq,
          hcatalogs.trans hagrees.catalogs_eq,
          htables.trans hagrees.tables_eq,
          hown.trans hagrees.own_eq
        ⟩
      obtain ⟨w', v', hw', hv', hfinal⟩ := ih hwf hagrees' (hcalls.2 w₁ hw)
      have hother : callsOf d ((d', op) :: calls) = callsOf d calls := by
        simp [callsOf, hd]
      rw [hother, step, hw]
      exact ⟨w', v', hw', hv', hfinal⟩

def init (logs : Db → HustleMemLog) (tableMap : TableMap) (catalogs : Db → Catalog) (tables : Db → σ)
    : Process Db σ :=
  {
    tableMap := tableMap
    logs := fun d => some (logs d)
    catalogs := catalogs
    tables := tables
    own := fun _ => tableMap
  }

/--
If no call of a database is disturbed, its tables are the same as if the other databases had not made
any call.
-/
theorem tables_eq_of_undisturbed {logs : Db → HustleMemLog} {sizes : Db → Nat}
    (hlogs : ∀ d, HustleMemLog.new (sizes d) = some (logs d)) (tableMap : TableMap)
    (catalogs : Db → Catalog) (tables : Db → σ) (d : Db) (calls : List (Db × DbOp))
    (hcalls : Run.Meets (step apply) (fun w c => c.1 = d → w.Undisturbed d c.2)
      (init logs tableMap catalogs tables) calls)
    : ∃ w v,
        calls.foldlM (step apply) (init logs tableMap catalogs tables) = some w ∧
        (callsOf d calls).foldlM (step apply) (init logs tableMap catalogs tables) = some v ∧
        w.tables d = v.tables d := by
  have hwf : (init logs tableMap catalogs tables).WellFormed := by
    intro d' log hmem
    simp only [init, Option.mem_def, Option.some.injEq] at hmem
    exact ⟨_, new_holds (hmem ▸ hlogs d')⟩
  obtain ⟨w, v, hw, hv, hagrees⟩ := foldlM_agrees apply hwf ⟨rfl, rfl, rfl, rfl⟩ hcalls
  exact ⟨w, v, hw, hv, hagrees.tables_eq⟩

def exampleCatalogs : Bool → Catalog
  | true => AList.insert "a" (some 1) ∅
  | false => AList.insert "b" (some 2) ∅

def exampleRecord : DBRecord := ⟨.delete, 1, [], []⟩

/--
Two databases whose tables have different root pages do not disturb each other.
-/
theorem tables_eq_of_undisturbed_example
    : ∃ w v,
        [(true, .addTableMapping 0 1 "a"), (false, .addTableMapping 0 2 "b"),
          (true, .insertRecord exampleRecord 1), (false, .insertRecord exampleRecord 2),
          (false, .updateDb), (true, .updateDb)].foldlM
          (step fun log table record => log ++ [(table, record)])
          (init (fun _ => ⟨∅, 0, [SList.Header.empty]⟩) ∅ exampleCatalogs fun _ => []) = some w ∧
        (callsOf true [(true, .addTableMapping 0 1 "a"), (false, .addTableMapping 0 2 "b"),
          (true, .insertRecord exampleRecord 1), (false, .insertRecord exampleRecord 2),
          (false, .updateDb), (true, .updateDb)]).foldlM
          (step fun log table record => log ++ [(table, record)])
          (init (fun _ => ⟨∅, 0, [SList.Header.empty]⟩) ∅ exampleCatalogs fun _ => []) = some v ∧
        w.tables true = v.tables true :=
  tables_eq_of_undisturbed _ (fun _ => show HustleMemLog.new 1 = some _ from rfl) _ _ _ _ _ (by decide)

/--
Closing one database makes the commit of the other one forget its records.
-/
theorem not_tables_eq
    : ¬∀ (σ : Type) (apply : σ → TablePtr → DBRecord → σ) (logs : Bool → HustleMemLog)
          (sizes : Bool → Nat) (tableMap : TableMap) (catalogs : Bool → Catalog) (tables : Bool → σ)
          (d : Bool) (calls : List (Bool × DbOp)),
        (∀ d, HustleMemLog.new (sizes d) = some (logs d))
        → ∃ w v,
            calls.foldlM (step apply) (init logs tableMap catalogs tables) = some w ∧
            (callsOf d calls).foldlM (step apply) (init logs tableMap catalogs tables) = some v ∧
            w.tables d = v.tables d := by
  intro h
  obtain ⟨w, v, hw, hv, heq⟩ := h (List (TablePtr × DBRecord))
    (fun log table record => log ++ [(table, record)]) (fun _ => ⟨∅, 0, [SList.Header.empty]⟩)
    (fun _ => 1) ∅ exampleCatalogs (fun _ => []) true
    [(true, .addTableMapping 0 1 "a"), (true, .insertRecord exampleRecord 1), (false, .free),
      (true, .updateDb)] (fun _ => rfl)
  have hw' := Option.some.inj hw
  have hv' := Option.some.inj hv
  have hjoint : w.tables true = [] := by
    rw [← hw']
    rfl
  have hsolo : v.tables true = [(1, exampleRecord)] := by
    rw [← hv']
    rfl
  rw [hjoint, hsolo] at heq
  simp at heq

end Process

end Hustle.Memlog
