import Hustle.Catalog.Basic

/-!
This module contains what is left of a catalog after it has been opened again from its file.
-/

namespace Hustle

theorem Map.lookup_mapValues [DecidableEq κ] (m : Map κ ν) (f : ν → ν') (k : κ)
    : (m.mapValues f).lookup k = (m.lookup k).map f := by
  have := List.dlookup_map₂ (l := m.entries) (f := fun _ => f) k
  exact this

namespace Catalogs

/--
The accessors give the same answers for both schemas. Columns are compared by all members that their
`toString` shows.
-/
structure TableSchema.Same (t t' : TableSchema) : Prop where
  columns_eq : t.columns.map ColumnSchema.save = t'.columns.map ColumnSchema.save
  primaryKey_eq : t.primaryKey = t'.primaryKey
  columnExists_eq : ∀ name,
    (t.columnExists name).map ColumnSchema.save = (t'.columnExists name).map ColumnSchema.save
  getArrowSchema_eq : t.getArrowSchema = t'.getArrowSchema

structure Catalog.Same (c c' : Catalog) : Prop where
  names : ∀ name, (c.tables.lookup name).isSome ↔ (c'.tables.lookup name).isSome
  tables : ∀ name t t', c.tables.lookup name = some t → c'.tables.lookup name = some t' → t.Same t'

namespace Database

/--
Every column has a field, and the file is as old as the last change of the names of the tables.
-/
structure Ok (s : Database) : Prop where
  fields : ∀ name t, s.catalog.tables.lookup name = some t → t.fields.length = t.columns.length
  names : ∀ a, s.file = some a → ∀ name,
    (a.tables.lookup name).isSome ↔ (s.catalog.tables.lookup name).isSome
  columns : ∀ a name saved t, s.file = some a → a.tables.lookup name = some saved →
    s.catalog.tables.lookup name = some t → saved.columns.length ≤ t.columns.length

def NoColumns (s : Database) : Prop :=
  ∀ name t, s.catalog.tables.lookup name = some t → t.columns = []

/--
No primary key has changed since the catalog was saved.
-/
def KeysSaved (s : Database) : Prop :=
  ∀ a name saved t, s.file = some a → a.tables.lookup name = some saved →
    s.catalog.tables.lookup name = some t → saved.primaryKey = t.primaryKey

theorem schemaCall_fields {t : TableSchema} (h : t.fields.length = t.columns.length) (call : SchemaCall)
    : (call.apply t).fields.length = (call.apply t).columns.length := by
  cases call with
  | setPrimaryKey pk => exact h
  | addColumn name type notNull unique =>
    simp only [SchemaCall.apply, TableSchema.addColumn]
    split
    . exact h
    . simp [h]

theorem schemaCall_columns (t : TableSchema) (call : SchemaCall)
    : t.columns.length ≤ (call.apply t).columns.length := by
  cases call with
  | setPrimaryKey pk => exact Nat.le_refl _
  | addColumn name type notNull unique =>
    simp only [SchemaCall.apply, TableSchema.addColumn]
    split
    . exact Nat.le_refl _
    . simp

theorem foldl_schemaCall_fields {t : TableSchema} (h : t.fields.length = t.columns.length)
    (calls : List SchemaCall)
    : (calls.foldl SchemaCall.apply t).fields.length
        =
      (calls.foldl SchemaCall.apply t).columns.length := by
  induction calls generalizing t with
  | nil => exact h
  | cons call calls ih => exact ih (schemaCall_fields h call)

theorem saveToFile_ok {s : Database}
    (h : ∀ name t, s.catalog.tables.lookup name = some t → t.fields.length = t.columns.length)
    : s.saveToFile.Ok where
  fields := h
  names := by
    intro a ha name
    cases ha
    rw [Catalog.save, Map.lookup_mapValues, Option.isSome_map]
    rfl
  columns := by
    intro a name saved t ha hsaved ht
    cases ha
    rw [Catalog.save, Map.lookup_mapValues] at hsaved
    dsimp only [saveToFile] at ht
    rw [ht] at hsaved
    cases hsaved
    simp [TableSchema.save]

theorem new_ok (catalogPath sqlitePath : String) : (new catalogPath sqlitePath).Ok where
  fields := by
    intro name t h
    simp [new, Catalog.new] at h
  names := by
    intro a h
    cases h
  columns := by
    intro a name saved t h
    cases h

theorem Ok.apply {s : Database} (h : s.Ok) (call : CatalogCall) : (call.apply s).Ok := by
  cases call with
  | addTable name calls =>
    simp only [CatalogCall.apply, addTable]
    split
    . exact h
    . apply saveToFile_ok
      intro name' t ht
      dsimp only at ht
      rw [Map.lookup_insert_eq] at ht
      split at ht
      . cases ht
        exact foldl_schemaCall_fields rfl calls
      . exact h.fields name' t ht
  | dropMemTable name =>
    simp only [CatalogCall.apply, dropMemTable]
    split
    . exact h
    . apply saveToFile_ok
      intro name' t ht
      dsimp only at ht
      rw [Map.lookup_erase_eq] at ht
      split at ht
      . cases ht
      . exact h.fields name' t ht
  | modifyTable name call =>
    simp only [CatalogCall.apply, modifyTable]
    split
    . exact h
    . next t₀ ht₀ =>
      constructor
      . intro name' t ht
        dsimp only at ht
        rw [Map.lookup_insert_eq] at ht
        split at ht
        . cases ht
          exact schemaCall_fields (h.fields name t₀ ht₀) call
        . exact h.fields name' t ht
      . intro a ha name'
        dsimp only
        rw [h.names a ha name', Map.lookup_insert_eq]
        split
        . next heq =>
          rw [heq, ht₀]
          rfl
        . rfl
      . intro a name' saved t ha hsaved ht
        dsimp only at ht
        rw [Map.lookup_insert_eq] at ht
        split at ht
        . next heq =>
          cases ht
          rw [heq] at hsaved
          exact Nat.le_trans (h.columns a name saved t₀ ha hsaved ht₀) (schemaCall_columns t₀ call)
        . exact h.columns a name' saved t ha hsaved ht

theorem foldl_apply_ok {s : Database} (h : s.Ok) (calls : List CatalogCall)
    : (calls.foldl CatalogCall.apply s).Ok := by
  induction calls generalizing s with
  | nil => exact h
  | cons call calls ih => exact ih (h.apply call)

theorem same_of_noColumns {saved : TableSchema.Archive} {t : TableSchema}
    (hfields : t.fields.length = t.columns.length) (hcolumns : t.columns = []) (hsaved : saved.columns = [])
    (hkey : saved.primaryKey = t.primaryKey)
    : (TableSchema.load saved).Same t where
  columns_eq := by simp [TableSchema.load, hcolumns, hsaved]
  primaryKey_eq := hkey
  columnExists_eq := by
    intro name
    simp [TableSchema.columnExists, TableSchema.load, hcolumns, hsaved]
  getArrowSchema_eq := by
    rw [hcolumns, List.length_nil, List.length_eq_zero_iff] at hfields
    simp [TableSchema.getArrowSchema, TableSchema.load, hfields]

/--
For every sequence of calls that ends with a catalog file, opening the catalog again gives the same catalog
exactly if none of its tables has a column and no primary key has changed since the file was written.
-/
theorem createCatalog_same_iff (catalogPath sqlitePath : String) (calls : List CatalogCall) (c : Catalog)
    (hc : (calls.foldl CatalogCall.apply (new catalogPath sqlitePath)).createCatalog = some c)
    : c.Same (calls.foldl CatalogCall.apply (new catalogPath sqlitePath)).catalog ↔
      (calls.foldl CatalogCall.apply (new catalogPath sqlitePath)).NoColumns ∧
      (calls.foldl CatalogCall.apply (new catalogPath sqlitePath)).KeysSaved := by
  have hok := foldl_apply_ok (new_ok catalogPath sqlitePath) calls
  generalize calls.foldl CatalogCall.apply (new catalogPath sqlitePath) = s at hc hok
  obtain ⟨a, ha, rfl⟩ := Option.map_eq_some_iff.mp hc
  constructor
  . intro hsame
    have htable : ∀ name saved t, a.tables.lookup name = some saved →
        s.catalog.tables.lookup name = some t → (TableSchema.load saved).Same t := by
      intro name saved t hsaved ht
      refine hsame.tables name _ t ?_ ht
      rw [Catalog.load, Map.lookup_mapValues, hsaved]
      rfl
    constructor
    . intro name t ht
      have hsome := (hok.names a ha name).mpr (by rw [ht]; rfl)
      obtain ⟨saved, hsaved⟩ := Option.isSome_iff_exists.mp hsome
      -- the restored schema has no fields
      have hfields : [] = t.fields := (htable name saved t hsaved ht).getArrowSchema_eq
      have hlength := hok.fields name t ht
      rw [← hfields] at hlength
      exact List.length_eq_zero_iff.mp hlength.symm
    . intro a' name saved t ha' hsaved ht
      rw [ha] at ha'
      cases ha'
      exact (htable name saved t hsaved ht).primaryKey_eq
  . rintro ⟨hcolumns, hkeys⟩
    constructor
    . intro name
      rw [Catalog.load, Map.lookup_mapValues, Option.isSome_map]
      exact hok.names a ha name
    . intro name t' t ht' ht
      rw [Catalog.load, Map.lookup_mapValues] at ht'
      obtain ⟨saved, hsaved, rfl⟩ := Option.map_eq_some_iff.mp ht'
      have hempty := hcolumns name t ht
      have hle := hok.columns a name saved t ha hsaved ht
      rw [hempty, List.length_nil, Nat.le_zero, List.length_eq_zero_iff] at hle
      exact same_of_noColumns (hok.fields name t ht) hempty hle (hkeys a name saved t ha hsaved ht)

theorem createCatalog_same_iff_emptyTable
    : ∃ c, ([CatalogCall.addTable "a" [.setPrimaryKey ["x"]]].foldl CatalogCall.apply
          (new "catalog" "db")).createCatalog = some c ∧
        (c.Same ([CatalogCall.addTable "a" [.setPrimaryKey ["x"]]].foldl CatalogCall.apply
          (new "catalog" "db")).catalog ↔
          ([CatalogCall.addTable "a" [.setPrimaryKey ["x"]]].foldl CatalogCall.apply
            (new "catalog" "db")).NoColumns ∧
          ([CatalogCall.addTable "a" [.setPrimaryKey ["x"]]].foldl CatalogCall.apply
            (new "catalog" "db")).KeysSaved) :=
  ⟨_, rfl, createCatalog_same_iff "catalog" "db" [.addTable "a" [.setPrimaryKey ["x"]]] _ rfl⟩

def oneColumn : List CatalogCall :=
  [.addTable "a" [.addColumn "x" ⟨.integer, none⟩ true true]]

/--
The restored table has its column but no field for it.
-/
theorem not_createCatalog_same_oneColumn
    : ∃ c, (oneColumn.foldl CatalogCall.apply (new "catalog" "db")).createCatalog = some c ∧
        ¬c.Same (oneColumn.foldl CatalogCall.apply (new "catalog" "db")).catalog := by
  refine ⟨_, rfl, ?_⟩
  intro hsame
  exact absurd (hsame.tables "a" _ _ rfl rfl).getArrowSchema_eq (by decide)

end Database

end Catalogs

end Hustle
