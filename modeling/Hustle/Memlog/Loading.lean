import Hustle.Memlog.Replication

/-!
This module contains the start of a connection to a database that is there already: the tables are empty and filled from
the B-trees, one after the other, and follow them from then on.
-/

namespace Hustle.Memlog

open Storage

namespace Mirror

theorem meets_inserts {m : Mirror} (hm : m.Holds) (pick : List Int → Nat) {rows : List (Int × SerialRecord)}
    (hfaithful : ∀ row ∈ rows, row.2.Faithful m.table) (hids : (rows.map fun row => rowIdOf row.1).Nodup)
    (hfresh : ∀ key ∈ m.tree, ∀ row ∈ rows, rowIdOf key ≠ rowIdOf row.1)
    : Run.Meets (step pick) Applicable m (rows.map fun row => .insert row.1 row.2) := by
  induction rows generalizing m with
  | nil => trivial
  | cons row rows ih =>
    rw [List.map_cons, List.nodup_cons] at hids
    rw [List.forall_mem_cons] at hfaithful
    have hop : m.Applicable (.insert row.1 row.2) :=
      ⟨fun key hkey => hfresh key hkey row (by simp), hfaithful.1⟩
    refine ⟨hop, ?_⟩
    intro m' hm'
    obtain ⟨m'', heq, hholds, hschema, hcap⟩ := step_insert hm pick hop
    rw [hm'] at heq
    cases heq
    refine ih hholds ?_ hids.2 ?_
    . intro row' hrow'
      have := hfaithful.2 row' hrow'
      unfold SerialRecord.Faithful at this ⊢
      rw [hschema, hcap]
      exact this
    . intro key hkey row' hrow' hid
      rw [(step_tree hm').1, RowChange.apply, SortedMap.mem_insert] at hkey
      rcases hkey with rfl | hkey
      . exact hids.1 (List.mem_map.mpr ⟨row', hrow', hid.symm⟩)
      . exact hfresh key hkey row' (List.mem_cons_of_mem _ hrow') hid

end Mirror

namespace Connection

section

variable {R : Type} (db : Database R)

theorem foldlM_logRow {s : Connection R} (hlog : s.memlog.Holds (logRecords db s.logged)) (root : Nat)
    (rows : List (Int × R))
    : ∃ memlog,
        rows.foldlM (fun s row => logRow db s root (.insert row.1 row.2)) s
          = some { s with
              memlog := memlog
              logged := Function.update s.logged root
                (s.logged root ++ rows.map fun row => .insert row.1 row.2) } ∧
        memlog.Holds (logRecords db (Function.update s.logged root
          (s.logged root ++ rows.map fun row => .insert row.1 row.2))) := by
  induction rows generalizing s with
  | nil => exact ⟨s.memlog, by simp, by simpa using hlog⟩
  | cons row rows ih =>
    obtain ⟨memlog₁, heq₁, hlog₁⟩ := logRow_eq db hlog root (.insert row.1 row.2)
    obtain ⟨memlog, heq, hholds⟩ := @ih { s with
      memlog := memlog₁
      logged := Function.update s.logged root (s.logged root ++ [.insert row.1 row.2]) } hlog₁
    dsimp only at heq hholds
    have hlogged : Function.update (Function.update s.logged root (s.logged root ++ [.insert row.1 row.2])) root
          (Function.update s.logged root (s.logged root ++ [.insert row.1 row.2]) root ++
            rows.map fun row => .insert row.1 row.2)
        = Function.update s.logged root
            (s.logged root ++ (row :: rows).map fun row => RowChange.insert row.1 row.2) := by
      rw [Function.update_idem, Function.update_self, List.append_assoc]
      rfl
    refine ⟨memlog, ?_, ?_⟩
    . rw [List.foldlM_cons, heq₁, ← hlogged]
      exact heq
    . rw [← hlogged]
      exact hholds

variable {db}

theorem endCommand_autoCommit {s : Connection R} (hauto : s.autoCommit = true)
    : s.endCommand db = (updateDb db { s with committed := s.pages }).bind clear := by
  have hdone : ¬Outcome.done.IsSpecialError := by decide
  have hcommits : Outcome.done.Commits := by decide
  simp only [endCommand, halt, handleSpecialError, Vdbe.command, hdone, false_and, if_false, hauto, if_true,
    haltAutoCommit, hcommits, true_and, reduceCtorEq, and_true]
  simp [Option.bind_assoc]

end

variable {db : Database SerialRecord}

/--
The B-trees that can be loaded: they are not empty, every row is on one page and stored as it is read, and no two keys
have the same row id.
-/
def Loadable (db : Database SerialRecord) (tables : Map TablePtr DBTable) (tree : BTree SerialRecord) (root : Nat)
    : Prop :=
  tree.entries ≠ [] ∧
  (∀ row ∈ tree.entries, row.2.data.length ≤ db.maxLeaf) ∧
  (tree.entries.map fun row => rowIdOf row.1).Nodup ∧
  ∀ table ∈ db.resolve root, ∀ t ∈ tables.lookup table, ∀ row ∈ tree.entries, row.2.Faithful t

/--
One load. The other tables are left alone.
-/
theorem loadTable_eq (hinj : db.Injective) (hbytes : db.bytes = SerialRecord.data) {s : Connection SerialRecord}
    (hauto : s.autoCommit = true) (hlogged : s.logged = fun _ => [])
    (hlog : s.memlog.Holds (logRecords db s.logged)) {tables : Map TablePtr DBTable}
    (htables : s.tables = some tables) {trees : Pages SerialRecord} (hhold : TablesHold db tables trees) {root : Nat}
    (hload : Loadable db tables (s.pages root) root) (hempty : trees root = ∅)
    : ∃ memlog tables',
        s.loadTable db root
          = some { s with
              committed := s.pages
              memlog := memlog
              tables := some tables'
              logged := fun _ => [] } ∧
        memlog.Holds (logRecords db fun _ => []) ∧
        TablesHold db tables' (Function.update trees root (s.pages root)) ∧
        ∀ other table, other ≠ root → db.resolve other = some table →
          tables'.lookup table = tables.lookup table := by
  obtain ⟨hne, hleaf, hids, hfaithful⟩ := hload
  have hfits : ¬((s.pages root).entries = [] ∨ ∃ row ∈ (s.pages root).entries, db.maxLeaf < (db.bytes row.2).length) := by
    rintro (hnil | ⟨row, hrow, hlt⟩)
    . exact hne hnil
    . have := hleaf row hrow
      rw [hbytes] at hlt
      omega
  let rows := (s.pages root).entries
  let changes : List (RowChange SerialRecord) := rows.map fun row => .insert row.1 row.2
  obtain ⟨memlog₁, hrows, hlog₁⟩ := foldlM_logRow db hlog root rows
  -- Only the rows of the B-tree are due.
  obtain ⟨memlog₂, tables₂, hupdate₂, hlog₂, hhold₂, hsame₂⟩ := @updateDb_eq db hinj { s with
      memlog := memlog₁
      logged := Function.update s.logged root (s.logged root ++ changes) } hlog₁ hbytes tables htables trees hhold <| by
    intro other table t hres ht
    dsimp only
    by_cases hother : other = root
    . subst hother
      obtain ⟨t₀, ht₀, hmirror⟩ := hhold other table hres
      rw [ht] at ht₀
      cases ht₀
      rw [hempty] at hmirror ⊢
      rw [Function.update_self, hlogged, List.nil_append]
      refine Mirror.meets_inserts hmirror db.pick (hfaithful table hres t ht) hids ?_
      intro key hkey
      simp [SortedMap.mem_iff] at hkey
    . rw [Function.update_of_ne hother, hlogged]
      trivial
  -- The statement ends with a commit, which finds nothing for the tables.
  obtain ⟨memlog₃, tables₃, hupdate₃, hlog₃, hhold₃, hsame₃⟩ := @updateDb_eq db hinj { s with
      committed := s.pages
      memlog := memlog₂
      tables := some tables₂
      logged := fun other =>
        if (db.resolve other).isSome then [] else Function.update s.logged root (s.logged root ++ changes) other }
    hlog₂ hbytes tables₂ rfl _ hhold₂ <| by
      intro other table t hres _
      dsimp only
      rw [hres]
      trivial
  dsimp only at hlog₃
  obtain ⟨memlog₄, hclear₄, hlog₄⟩ := @clear_eq _ db { s with
      committed := s.pages
      memlog := memlog₃
      tables := some tables₃
      logged := fun other => if (db.resolve other).isSome then []
        else if (db.resolve other).isSome then []
        else Function.update s.logged root (s.logged root ++ changes) other } _ hlog₃
  refine ⟨memlog₄, tables₃, ?_, hlog₄, ?_, ?_⟩
  . unfold loadTable
    dsimp only
    rw [if_neg hfits, hrows, Option.bind_eq_bind, Option.bind_some, hupdate₂, Option.bind_some]
    refine (endCommand_autoCommit (by exact hauto)).trans ?_
    exact (congrArg (Option.bind · clear) hupdate₃).trans hclear₄
  . intro other table hres
    obtain ⟨t, ht, hmirror⟩ := hhold₃ other table hres
    refine ⟨t, ht, ?_⟩
    dsimp only at hmirror
    rw [hres] at hmirror
    by_cases hother : other = root
    . subst hother
      have hfold : changes.foldl RowChange.apply ∅ = s.pages other := by
        rw [List.foldl_map]
        exact SortedMap.foldl_insert_entries _
      rw [Function.update_self] at hmirror ⊢
      rw [hlogged, hempty, List.nil_append, hfold] at hmirror
      exact hmirror
    . rw [Function.update_of_ne hother] at hmirror ⊢
      rw [hlogged] at hmirror
      exact hmirror
  . intro other table hother hres
    have hnil₃ := hsame₃ other table hres (by dsimp only; rw [hres]; rfl)
    have hnil₂ := hsame₂ other table hres (by dsimp only; rw [Function.update_of_ne hother, hlogged])
    rw [hnil₃, hnil₂]

/--
Loading some of the B-trees, one after the other.
-/
theorem foldlM_load (hinj : db.Injective) (hbytes : db.bytes = SerialRecord.data) {roots : List Nat}
    (hnodup : roots.Nodup) {s : Connection SerialRecord}
    (hauto : s.autoCommit = true) (hpages : s.pages = s.committed) (hlogged : s.logged = fun _ => [])
    (hlog : s.memlog.Holds (logRecords db s.logged)) {tables : Map TablePtr DBTable}
    (htables : s.tables = some tables) {trees : Pages SerialRecord} (hhold : TablesHold db tables trees)
    (hload : ∀ root ∈ roots, trees root = ∅ ∧ Loadable db tables (s.pages root) root)
    : ∃ memlog tables',
        (roots.map Action.load).foldlM (step db) s
          = some { s with memlog := memlog, tables := some tables' } ∧
        memlog.Holds (logRecords db s.logged) ∧
        TablesHold db tables' fun root => if root ∈ roots then s.pages root else trees root := by
  induction roots generalizing s tables trees with
  | nil => exact ⟨s.memlog, tables, by simp [← htables], hlog, by simpa using hhold⟩
  | cons root roots ih =>
    rw [List.nodup_cons] at hnodup
    rw [List.forall_mem_cons] at hload
    obtain ⟨⟨hempty, hfirst⟩, hrest⟩ := hload
    obtain ⟨memlog₁, tables₁, heq₁, hlog₁, hhold₁, hsame₁⟩ :=
      loadTable_eq hinj hbytes hauto hlogged hlog htables hhold hfirst hempty
    have hs₁ : ({ s with committed := s.pages, memlog := memlog₁, tables := some tables₁, logged := fun _ => [] }
        : Connection SerialRecord) = { s with memlog := memlog₁, tables := some tables₁ } := by
      rw [hpages, hlogged]
    rw [hs₁] at heq₁
    rw [← hlogged] at hlog₁
    obtain ⟨memlog, tables', heq, hlog', hhold'⟩ :=
      @ih hnodup.2 { s with memlog := memlog₁, tables := some tables₁ } hauto hpages hlogged hlog₁ tables₁ rfl
        _ hhold₁ <| by
          intro other hother
          have hne : other ≠ root := by
            rintro rfl
            exact hnodup.1 hother
          obtain ⟨hempty', hne', hleaf, hids, hfaithful⟩ := hrest other hother
          refine ⟨by rw [Function.update_of_ne hne, hempty'], hne', hleaf, hids, ?_⟩
          intro table hres t ht
          rw [Option.mem_def, hsame₁ other table hne hres] at ht
          exact hfaithful table hres t ht
    refine ⟨memlog, tables', ?_, hlog', ?_⟩
    . rw [List.map_cons, List.foldlM_cons, step, heq₁]
      exact heq
    . intro other table hres
      obtain ⟨t, ht, hmirror⟩ := hhold' other table hres
      refine ⟨t, ht, ?_⟩
      dsimp only at hmirror
      by_cases hother : other = root
      . subst hother
        rw [if_neg hnodup.1, Function.update_self] at hmirror
        dsimp only
        rw [if_pos List.mem_cons_self]
        exact hmirror
      . rw [Function.update_of_ne hother] at hmirror
        simpa [hother] using hmirror

/--
Once all B-trees with rows have been loaded into empty tables, the tables hold exactly the committed rows, and they go on
doing so in every run that they can follow.
-/
theorem always_inStep_of_load (hinj : db.Injective) (hbytes : db.bytes = SerialRecord.data) {initialSize : Nat}
    {memlog : HustleMemLog} (hmemlog : HustleMemLog.new initialSize = some memlog) {pages : Pages SerialRecord}
    {tables : Map TablePtr DBTable} (hempty : TablesHold db tables fun _ => ∅) {roots : List Nat}
    (hnodup : roots.Nodup) (hload : ∀ root ∈ roots, Loadable db tables (pages root) root)
    (hrest : ∀ root, (db.resolve root).isSome → root ∉ roots → pages root = ∅)
    : ∃ s, (roots.map Action.load).foldlM (step db) (opened memlog pages tables) = some s ∧
        s.committed = pages ∧
        ∀ actions, Run.Meets (step db) (Followed db) s actions
          → Run.Always (step db) (InStep db) (fun _ _ _ => True) s actions := by
  obtain ⟨memlog', tables', heq, hlog, hhold⟩ :=
    @foldlM_load db hinj hbytes roots hnodup (opened memlog pages tables) rfl rfl rfl
      (HustleMemLog.new_holds hmemlog) tables rfl _ hempty fun root hroot => ⟨rfl, hload root hroot⟩
  have hpages : TablesHold db tables' pages := by
    intro root table hres
    obtain ⟨t, ht, hmirror⟩ := hhold root table hres
    refine ⟨t, ht, ?_⟩
    dsimp only at hmirror
    split at hmirror
    . exact hmirror
    . next hroot =>
      rw [hrest root (by rw [hres]; rfl) hroot]
      exact hmirror
  refine ⟨_, heq, rfl, ?_⟩
  intro actions hops
  exact always_inStep_of_inv hinj hbytes ⟨⟨hlog, fun _ _ => rfl, tables', rfl, hpages⟩, fun h => absurd rfl h⟩ hops

instance (db : Database SerialRecord) (tables : Map TablePtr DBTable) (tree : BTree SerialRecord) (root : Nat)
    : Decidable (Loadable db tables tree root) :=
  inferInstanceAs (Decidable (_ ∧ (∀ _ ∈ _, _) ∧ _ ∧ ∀ _ ∈ _, ∀ _ ∈ _, ∀ _ ∈ _, _))

def itemPages (root : Nat) : BTree SerialRecord :=
  if root = 2 then ((∅ : BTree SerialRecord).insert 5 (itemRecord 1)).insert (-3) (itemRecord 2) else ∅

theorem always_inStep_of_load_items
    : ∃ s, ([2].map Action.load).foldlM (step itemDatabase)
          (opened ⟨∅, 0, List.replicate 4 SList.Header.empty⟩ itemPages itemTables) = some s ∧
        s.committed = itemPages ∧
        ∀ actions, Run.Meets (step itemDatabase) (Followed itemDatabase) s actions
          → Run.Always (step itemDatabase) (InStep itemDatabase) (fun _ _ _ => True) s actions := by
  have hinj : itemDatabase.Injective := by
    intro root root' table h h'
    rw [(itemDatabase_resolve h).1, (itemDatabase_resolve h').1]
  apply always_inStep_of_load hinj rfl (show HustleMemLog.new 4 = some _ from rfl) itemTables_hold (by decide)
    (by decide)
  intro root hroot hnot
  obtain ⟨table, htable⟩ := Option.isSome_iff_exists.mp hroot
  exact absurd (itemDatabase_resolve htable).1 (by simpa using hnot)

end Connection

end Hustle.Memlog
