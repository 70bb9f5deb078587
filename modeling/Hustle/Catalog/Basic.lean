import Hustle.Storage.Basic

/-!
This module contains the catalog: the schemas of its tables, the functions that change them, and what
cereal writes to and restores from the catalog file. Every class lists the members that are archived in
its `serialize` function.
-/

namespace Hustle

namespace Map

def mapValues (m : Map κ ν) (f : ν → ν') : Map κ ν' :=
  ⟨m.entries.map fun e => ⟨e.1, f e.2⟩, by
    have hkeys : (m.entries.map fun e => (⟨e.1, f e.2⟩ : Sigma fun _ : κ => ν')).keys = m.entries.keys := by
      simp [List.keys, Function.comp_def]
    rw [List.NodupKeys, hkeys]
    exact m.nodupKeys⟩

end Map

namespace Catalogs

open Storage (FieldType)

inductive HustleType where
  | integer
  | char
  deriving DecidableEq, Repr

structure ColumnType where
  type : HustleType
  size : Option Int
  deriving DecidableEq, Repr

/--
An `arrow::Field`.
-/
structure Field where
  name : String
  type : FieldType
  deriving DecidableEq, Repr

structure ColumnSchema where
  name : String
  type : ColumnType
  notNull : Bool
  unique : Bool
  /-- none for a null pointer -/
  field : Option Field
  deriving DecidableEq, Repr

namespace ColumnSchema

def new (name : String) (type : ColumnType) (notNull unique : Bool) : ColumnSchema :=
  let fieldType :=
    match type.type with
    | .char => .string
    | .integer => .int64
  ⟨name, type, notNull, unique, some ⟨name, fieldType⟩⟩

/--
`ColumnSchema::serialize`: `field_` is not in the list.
-/
structure Archive where
  name : String
  type : ColumnType
  notNull : Bool
  unique : Bool
  deriving DecidableEq, Repr

def save (c : ColumnSchema) : Archive :=
  ⟨c.name, c.type, c.notNull, c.unique⟩

def load (a : Archive) : ColumnSchema :=
  ⟨a.name, a.type, a.notNull, a.unique, none⟩

end ColumnSchema

structure TableSchema where
  name : String
  primaryKey : List String
  columns : List ColumnSchema
  fields : List (Option Field)
  nameToId : Map String Nat
  deriving DecidableEq

namespace TableSchema

def new (name : String) : TableSchema :=
  ⟨name, [], [], [], ∅⟩

def setPrimaryKey (t : TableSchema) (pk : List String) : TableSchema :=
  { t with primaryKey := pk }

/--
A name that is taken leaves the schema as it is.
-/
def addColumn (t : TableSchema) (c : ColumnSchema) : Bool × TableSchema :=
  match t.nameToId.lookup c.name with
  | some _ => (false, t)
  | none =>
    let t' := {
      t with
        fields := t.fields ++ [c.field]
        columns := t.columns ++ [c]
        nameToId := t.nameToId.insert c.name t.columns.length
    }
    (true, t')

def columnExists (t : TableSchema) (name : String) : Option ColumnSchema := do
  let id ← t.nameToId.lookup name
  t.columns[id]?

def getArrowSchema (t : TableSchema) : List (Option Field) :=
  t.fields

/--
`TableSchema::serialize`: `fields_` is not in the list.
-/
structure Archive where
  name : String
  columns : List ColumnSchema.Archive
  primaryKey : List String
  nameToId : Map String Nat
  deriving DecidableEq

def save (t : TableSchema) : Archive :=
  ⟨t.name, t.columns.map ColumnSchema.save, t.primaryKey, t.nameToId⟩

def load (a : Archive) : TableSchema :=
  ⟨a.name, a.primaryKey, a.columns.map ColumnSchema.load, [], a.nameToId⟩

end TableSchema

/--
The pointers to the tables are left out, they are not archived and nothing here reads them.
-/
structure Catalog where
  catalogPath : String
  sqlitePath : String
  tables : Map String TableSchema
  deriving DecidableEq

namespace Catalog

/--
`Catalog(CatalogPath, SqlitePath)`.
-/
def new (catalogPath sqlitePath : String) : Catalog :=
  ⟨catalogPath, sqlitePath, ∅⟩

structure Archive where
  catalogPath : String
  sqlitePath : String
  tables : Map String TableSchema.Archive
  deriving DecidableEq

def save (c : Catalog) : Archive :=
  ⟨c.catalogPath, c.sqlitePath, c.tables.mapValues TableSchema.save⟩

def load (a : Archive) : Catalog :=
  ⟨a.catalogPath, a.sqlitePath, a.tables.mapValues TableSchema.load⟩

end Catalog

/--
A catalog and the contents of its file, which is not there until the catalog is saved.
-/
structure Database where
  catalog : Catalog
  file : Option Catalog.Archive
  deriving DecidableEq

namespace Database

/--
A database whose catalog file does not exist yet.
-/
def new (catalogPath sqlitePath : String) : Database :=
  ⟨.new catalogPath sqlitePath, none⟩

def saveToFile (s : Database) : Database :=
  { s with file := some s.catalog.save }

/--
`Catalog::CreateCatalog` for a file that exists.
-/
def createCatalog (s : Database) : Option Catalog :=
  s.file.map Catalog.load

/--
The statement for SQLite that follows does not change the catalog.
-/
def addTable (s : Database) (t : TableSchema) : Database :=
  match s.catalog.tables.lookup t.name with
  | some _ => s
  | none => saveToFile { s with catalog := { s.catalog with tables := s.catalog.tables.insert t.name t } }

def dropMemTable (s : Database) (name : String) : Database :=
  match s.catalog.tables.lookup name with
  | none => s
  | some _ => saveToFile { s with catalog := { s.catalog with tables := s.catalog.tables.erase name } }

/--
A call through the pointer that `Catalog::TableExists` returns.
-/
def modifyTable (s : Database) (name : String) (f : TableSchema → TableSchema) : Database :=
  match s.catalog.tables.lookup name with
  | none => s
  | some t => { s with catalog := { s.catalog with tables := s.catalog.tables.insert name (f t) } }

end Database

inductive SchemaCall where
  | addColumn (name : String) (type : ColumnType) (notNull unique : Bool)
  | setPrimaryKey (pk : List String)
  deriving DecidableEq, Repr

def SchemaCall.apply (t : TableSchema) : SchemaCall → TableSchema
  | .addColumn name type notNull unique => (t.addColumn (.new name type notNull unique)).2
  | .setPrimaryKey pk => t.setPrimaryKey pk

/--
The calls that change a catalog: a new table comes with the calls that made its schema, and a table in the
catalog can be changed through a pointer to it.
-/
inductive CatalogCall where
  | addTable (name : String) (calls : List SchemaCall)
  | dropMemTable (name : String)
  | modifyTable (name : String) (call : SchemaCall)
  deriving DecidableEq, Repr

def CatalogCall.apply (s : Database) : CatalogCall → Database
  | .addTable name calls => s.addTable (calls.foldl SchemaCall.apply (.new name))
  | .dropMemTable name => s.dropMemTable name
  | .modifyTable name call => s.modifyTable name (SchemaCall.apply · call)

end Catalogs

end Hustle
