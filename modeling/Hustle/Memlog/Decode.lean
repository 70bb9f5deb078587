import Hustle.Memlog.Record
import Hustle.Storage.GetVarint
import Hustle.Storage.RecordSerialGet
import Hustle.Storage.SizedUpdate
import Hustle.Util.Run

/-!
This module compares the row that is stored for an inserted record with the values that
`recordSerialGet` reads from it. Negative integers and integers of eight bytes are not stored as they
are read.
-/

namespace Hustle.Memlog

open Storage

/--
`applyRecord` together with the memory of the blocks.
-/
def applySizedRecord (roundUp : Nat → Nat) (pick : List Int → Nat) (table : SizedTable) (record : DBRecord)
    : Option SizedTable :=
  match record.mode with
  | .delete => table.deleteRecordTable roundUp record.rowId
  | mode => do
    let (hdrLen, nBytes) ← getVarint32 record.data
    let widths ← readWidths record.data hdrLen hdrLen.toNat nBytes
    let recordData := record.data.drop hdrLen.toNat
    match mode with
    | .insert =>
      let (table, _) ← table.insertRecordTable roundUp pick record.rowId recordData widths
      return table
    | .update =>
      let (table, _) ←
        table.updateRecordTable roundUp pick record.rowId record.updateMetaInfo recordData widths
      return table
    | .delete => return table

theorem applySizedRecord_table {roundUp : Nat → Nat} {pick : List Int → Nat} {t t' : SizedTable} {record : DBRecord}
    (h : applySizedRecord roundUp pick t record = some t') : applyRecord pick t.table record = some t'.table := by
  unfold applySizedRecord at h
  unfold applyRecord
  cases hmode : record.mode with
  | delete =>
    simp only [hmode] at h ⊢
    exact SizedTable.deleteRecordTable_table h
  | insert =>
    simp only [hmode] at h ⊢
    obtain ⟨⟨hdrLen, nBytes⟩, hget, h⟩ := Option.bind_eq_some_iff.mp h
    obtain ⟨widths, hwidths, h⟩ := Option.bind_eq_some_iff.mp h
    obtain ⟨⟨t₁, reversed⟩, hinsert, h⟩ := Option.bind_eq_some_iff.mp h
    cases h
    simp only [hget, hwidths, SizedTable.insertRecordTable_table hinsert, Option.bind_eq_bind, Option.bind_some,
      Option.pure_def]
  | update =>
    simp only [hmode] at h ⊢
    obtain ⟨⟨hdrLen, nBytes⟩, hget, h⟩ := Option.bind_eq_some_iff.mp h
    obtain ⟨widths, hwidths, h⟩ := Option.bind_eq_some_iff.mp h
    obtain ⟨⟨t₁, reversed⟩, hupdate, h⟩ := Option.bind_eq_some_iff.mp h
    cases h
    simp only [hget, hwidths, SizedTable.updateRecordTable_table hupdate, Option.bind_eq_bind, Option.bind_some,
      Option.pure_def]

theorem foldlM_applySizedRecord_table {roundUp : Nat → Nat} {pick : List Int → Nat} {t t' : SizedTable}
    {records : List DBRecord} (h : records.foldlM (applySizedRecord roundUp pick) t = some t')
    : records.foldlM (applyRecord pick) t.table = some t'.table :=
  Run.foldlM_map SizedTable.table (fun _ _ _ => applySizedRecord_table) h

/--
The serial types that are supported: integers, the constants 0 and 1, and text.
-/
def Supported (serialType : UInt32) : Prop :=
  (1 ≤ serialType.toNat ∧ serialType.toNat ≤ 6) ∨
  serialType.toNat = 8 ∨
  serialType.toNat = 9 ∨
  (13 ≤ serialType.toNat ∧ serialType.toNat % 2 = 1)

instance : Decidable (Supported serialType) :=
  inferInstanceAs (Decidable (_ ∨ _ ∨ _ ∨ _))

/--
A column of a record: the encoding of its serial type in the header and its part of the body.
-/
structure SerialColumn where
  typeBytes : List UInt8
  serialType : UInt32
  body : List UInt8
  encodes : Varint.Encodes typeBytes serialType.toNat
  supported : Supported serialType
  length_body : body.length = contentSize serialType.toNat

/--
A record in the SQLite record format: the length of the header, which counts itself, the serial types
and the body. The size of a record is kept in an `int`.
-/
structure SerialRecord where
  lengthBytes : List UInt8
  columns : List SerialColumn
  encodes : Varint.Encodes lengthBytes
    (lengthBytes.length + (columns.map fun c => c.typeBytes.length).sum)
  size_lt : lengthBytes.length + (columns.map fun c => c.typeBytes.length).sum +
    (columns.map fun c => c.body.length).sum < 2 ^ 31

/--
The cell for a value that `recordSerialGet` has read.
-/
def cellOfValue (v : RecordValue) : Option Cell :=
  if v.flags = valInt then
    some (.int64 v.val)
  else if v.flags = valStr ||| valEphem then
    some (.string (v.valArray.take v.n))
  else
    none

/--
Read the values of a record with `recordSerialGet`, one after the other.
-/
def readValues : List UInt32 → List UInt8 → Option (List Cell)
  | [], _ => some []
  | serialType :: serialTypes, buf => do
    let (v, n) ← recordSerialGet buf serialType default
    let c ← cellOfValue v
    let cs ← readValues serialTypes (buf.drop n.toNat)
    return c :: cs

namespace SerialColumn

def field (c : SerialColumn) : Field :=
  ⟨byteWidth c.serialType, c.body⟩

def value (c : SerialColumn) : Cell :=
  if c.serialType.toNat ≤ 6 then
    .int64 (BitVec.ofInt 64 (Bytes.beInt c.body))
  else if c.serialType.toNat ≤ 9 then
    .int64 (BitVec.ofNat 64 (c.serialType.toNat - 8))
  else
    .string c.body

/--
The columns that are stored as they are read: integers of less than eight bytes without a sign bit,
integers of eight bytes that are the same in both byte orders, the constants, and text in a column of
strings.
-/
def Faithful (type : FieldType) (c : SerialColumn) : Prop :=
  match type with
  | .int64 =>
    if c.serialType.toNat ≤ 5 then
      ∀ b ∈ c.body.head?, b.toNat < 128
    else if c.serialType.toNat = 6 then
      c.body = c.body.reverse
    else
      c.serialType.toNat ≤ 9
  | .string => 13 ≤ c.serialType.toNat

instance (type : FieldType) (c : SerialColumn) : Decidable (Faithful type c) :=
  match type with
  | .int64 =>
    have : Decidable (∀ b ∈ c.body.head?, b.toNat < 128) := Option.decidableForallMem c.body.head?
    inferInstanceAs (Decidable (ite _ _ _))
  | .string => inferInstanceAs (Decidable (_ ≤ _))

/--
What a column counts for when the program checks whether a record fits a block: the constants make a
record smaller.
-/
def size (c : SerialColumn) : Int :=
  if c.serialType.toNat = 8 ∨ c.serialType.toNat = 9 then
    -(c.serialType.toNat : Int)
  else
    c.body.length

theorem byteWidth_eq (c : SerialColumn) : byteWidth c.serialType = c.size := by
  have hiff : (c.serialType = UInt32.ofNat zeroTypeEncoding ∨ c.serialType = UInt32.ofNat oneTypeEncoding)
      ↔ (c.serialType.toNat = 8 ∨ c.serialType.toNat = 9) := by
    simp only [← UInt32.toNat_inj]
    rfl
  unfold byteWidth size
  simp only [hiff]
  split
  . next hconst =>
    rw [← hiff] at hconst
    rcases hconst with hconst | hconst
    . rw [hconst]
      rfl
    . rw [hconst]
      rfl
  . have hlt := c.serialType.toNat_lt
    have hsize := serialTypeLen_eq c.serialType
    have hlen := c.length_body
    have hsmall : contentSize c.serialType.toNat < 2147483648 := by
      unfold contentSize
      split <;> omega
    rw [BitVec.toInt_eq_toNat_cond, UInt32.toNat_toBitVec, hsize, if_pos (by omega), hlen]

theorem length_field (c : SerialColumn) : c.field.bytes.length = c.field.byteWidth.toNat := by
  have hlen := c.length_body
  simp only [field, byteWidth_eq, size]
  split
  . next hconst =>
    have : contentSize c.serialType.toNat = 0 := by
      rcases hconst with hconst | hconst <;> rw [hconst] <;> rfl
    omega
  . simp

theorem body_of_int (c : SerialColumn) (h : c.serialType.toNat ≤ 5)
    : 0 < c.body.length ∧ c.body.length < 8 ∧ byteWidth c.serialType = c.body.length := by
  have hsup := c.supported
  have hlen := c.length_body
  have hwidth := c.byteWidth_eq
  unfold Supported at hsup
  rw [size, if_neg (by omega)] at hwidth
  refine ⟨?_, ?_, hwidth⟩
  all_goals
    rw [hlen]
    have hcases : c.serialType.toNat = 1 ∨ c.serialType.toNat = 2 ∨ c.serialType.toNat = 3 ∨
        c.serialType.toNat = 4 ∨ c.serialType.toNat = 5 := by
      omega
    rcases hcases with h | h | h | h | h <;> rw [h] <;> decide

theorem storedInt_small_eq_iff (c : SerialColumn) (h : c.serialType.toNat ≤ 5)
    : c.field.storedInt = BitVec.ofInt 64 (Bytes.beInt c.body)
        ↔
      ∀ b ∈ c.body.head?, b.toNat < 128 := by
  obtain ⟨hpos, hlt, hwidth⟩ := c.body_of_int h
  obtain ⟨b, bytes, hbody⟩ := List.exists_cons_of_length_pos hpos
  have hstored : c.field.storedInt = BitVec.ofNat 64 (Bytes.beNat c.body) := by
    simp only [field, Field.storedInt, hwidth, fieldSize]
    rw [if_neg (by omega), if_neg (by omega)]
  rw [hstored, hbody, ofNat_beNat_eq_iff (by rw [← hbody]; exact hlt)]
  simp

theorem storedInt_eight_eq_iff (c : SerialColumn) (h : c.serialType.toNat = 6)
    : c.field.storedInt = BitVec.ofInt 64 (Bytes.beInt c.body) ↔ c.body = c.body.reverse := by
  have hlen : c.body.length = 8 := by
    rw [c.length_body, h]
    rfl
  have hwidth : byteWidth c.serialType = 8 := by
    rw [c.byteWidth_eq, size, if_neg (by omega), hlen]
    rfl
  have hle := Bytes.leNat_lt c.body
  have hbe := Bytes.beNat_lt c.body
  have hstored : c.field.storedInt = BitVec.ofNat 64 (Bytes.leNat c.body) := by
    simp only [field, Field.storedInt, hwidth, fieldSize]
    rw [if_pos (by rfl)]
  rw [hlen] at hle hbe
  rw [hstored, ofInt_beInt hlen, ← Bytes.leNat_eq_beNat_iff]
  constructor
  . intro heq
    have := congrArg BitVec.toNat heq
    rw [BitVec.toNat_ofNat, BitVec.toNat_ofNat] at this
    omega
  . intro heq
    rw [heq]

theorem storedInt_constant (c : SerialColumn) (h : c.serialType.toNat = 8 ∨ c.serialType.toNat = 9)
    : c.field.storedInt = BitVec.ofNat 64 (c.serialType.toNat - 8) := by
  simp only [field, Field.storedInt, c.byteWidth_eq, size, if_pos h, fieldSize, Field.constant]
  rcases h with h | h
  . rw [h]
    rfl
  . rw [h]
    rfl

/--
What is stored for a column is what `recordSerialGet` reads in the cases above and in no other.
-/
theorem stored_eq_value_iff (type : FieldType) (c : SerialColumn)
    : c.field.stored type = c.value ↔ c.Faithful type := by
  have hsup := c.supported
  unfold Supported at hsup
  unfold value Faithful
  cases type with
  | string =>
    simp only [Field.stored, field]
    split
    . simp
      omega
    . split
      . simp
        omega
      . simp
        omega
  | int64 =>
    simp only [Field.stored]
    by_cases hsmall : c.serialType.toNat ≤ 5
    . rw [if_pos (by omega), if_pos hsmall, Cell.int64.injEq]
      exact c.storedInt_small_eq_iff hsmall
    . rw [if_neg hsmall]
      by_cases height : c.serialType.toNat = 6
      . rw [if_pos (by omega), if_pos height, Cell.int64.injEq]
        exact c.storedInt_eight_eq_iff height
      . rw [if_neg (by omega), if_neg height]
        split
        . next hconst =>
          rw [c.storedInt_constant (by omega)]
          simp [hconst]
        . next htext => simp [htext]

theorem wellFormed_of_faithful {type : FieldType} {c : SerialColumn} (h : c.Faithful type)
    : c.field.WellFormed type := by
  have hsup := c.supported
  unfold Supported at hsup
  refine ⟨c.length_field, ?_⟩
  cases type with
  | string =>
    dsimp only [Faithful] at h
    dsimp only [field]
    rw [c.byteWidth_eq, size, if_neg (by omega)]
    omega
  | int64 =>
    dsimp only [field]
    by_cases hsmall : c.serialType.toNat ≤ 5
    . obtain ⟨-, hlt, hwidth⟩ := c.body_of_int hsmall
      rw [hwidth, fieldSize]
      omega
    . dsimp only [Faithful] at h
      rw [if_neg hsmall] at h
      by_cases height : c.serialType.toNat = 6
      . rw [c.byteWidth_eq, size, if_neg (by omega), c.length_body, height]
        decide
      . rw [if_neg height] at h
        rw [c.byteWidth_eq, size, if_pos (by omega), fieldSize]
        omega

theorem recordSerialGet_body (c : SerialColumn) (rest : List UInt8)
    : ∃ v n, recordSerialGet (c.body ++ rest) c.serialType default = some (v, n) ∧
        cellOfValue v = some c.value ∧
        n.toNat = c.body.length := by
  have hsup := c.supported
  have hlen := c.length_body
  have hsize := serialTypeLen_eq c.serialType
  unfold Supported at hsup
  unfold value
  rcases hsup with hint | hconst | hconst | htext
  . rw [recordSerialGet_int hint.1 hint.2 hlen]
    refine ⟨_, _, rfl, ?_, by omega⟩
    rw [if_pos hint.2]
    rfl
  . rw [recordSerialGet_constant (.inl hconst)]
    refine ⟨_, _, rfl, ?_, ?_⟩
    . rw [if_neg (by omega), if_pos (by omega)]
      rfl
    . rw [hlen, hconst]
      rfl
  . rw [recordSerialGet_constant (.inr hconst)]
    refine ⟨_, _, rfl, ?_, ?_⟩
    . rw [if_neg (by omega), if_pos (by omega)]
      rfl
    . rw [hlen, hconst]
      rfl
  . rw [recordSerialGet_text htext.1 htext.2]
    refine ⟨_, _, rfl, ?_, by omega⟩
    rw [if_neg (by omega), if_neg (by omega), ← hlen]
    simp [cellOfValue, valInt, valStr, valEphem]

end SerialColumn

theorem readValues_eq (cs : List SerialColumn) (rest : List UInt8)
    : readValues (cs.map SerialColumn.serialType) ((cs.map SerialColumn.body).flatten ++ rest)
        =
      some (cs.map SerialColumn.value) := by
  induction cs with
  | nil => rfl
  | cons c cs ih =>
    obtain ⟨v, n, hget, hcell, hn⟩ :=
      c.recordSerialGet_body ((cs.map SerialColumn.body).flatten ++ rest)
    simp only [List.map_cons, List.flatten_cons, List.append_assoc, readValues, hget, hcell, hn,
      List.drop_left, ih, Option.bind_eq_bind, Option.bind_some, Option.pure_def]

theorem getVarint32_append {bs : List UInt8} {v : UInt32} (h : Varint.Encodes bs v.toNat)
    (rest : List UInt8)
    : getVarint32 (bs ++ rest) = some (v, bs.length) := by
  have heq := getVarint32_eq (bs ++ rest)
  rw [h.decode_append] at heq
  have hlt := v.toNat_lt
  simp only [Option.map_some, Option.map_eq_some_iff, Prod.mk.injEq, Prod.exists] at heq
  obtain ⟨v', k, hget, hv, hk⟩ := heq
  have hv' : v' = v := by
    rw [← UInt32.toNat_inj]
    omega
  rw [hget, hv', hk]

theorem readWidths_eq (cs : List SerialColumn) (hdrLen : UInt32) (pre rest : List UInt8) (fuel : Nat)
    (hhdr : hdrLen.toNat = pre.length + (cs.map fun c => c.typeBytes.length).sum)
    (hfuel : (cs.map fun c => c.typeBytes.length).sum ≤ fuel)
    : readWidths (pre ++ ((cs.map SerialColumn.typeBytes).flatten ++ rest)) hdrLen fuel pre.length
        =
      some (recordWidths (cs.map SerialColumn.field)) := by
  induction cs generalizing pre fuel with
  | nil =>
    unfold readWidths
    rw [if_neg (by simp at hhdr; omega)]
    rfl
  | cons c cs ih =>
    have hpos := c.encodes.length_pos
    simp only [List.map_cons, List.sum_cons] at hhdr hfuel
    unfold readWidths
    rw [if_pos (by omega)]
    cases fuel with
    | zero => omega
    | succ fuel =>
      have hrest := ih (pre ++ c.typeBytes) fuel (by rw [List.length_append]; omega) (by omega)
      rw [List.append_assoc, List.length_append] at hrest
      simp only [List.map_cons, List.flatten_cons, List.append_assoc, List.drop_left,
        getVarint32_append c.encodes, hrest, Option.bind_eq_bind, Option.bind_some, recordWidths_cons]
      rfl

namespace SerialRecord

def header (r : SerialRecord) : List UInt8 :=
  r.lengthBytes ++ (r.columns.map SerialColumn.typeBytes).flatten

def body (r : SerialRecord) : List UInt8 :=
  (r.columns.map SerialColumn.body).flatten

def data (r : SerialRecord) : List UInt8 :=
  r.header ++ r.body

/--
The row that `recordSerialGet` reads from the body.
-/
def values (r : SerialRecord) : Option Row :=
  readValues (r.columns.map SerialColumn.serialType) r.body

theorem values_eq (r : SerialRecord) : r.values = some (r.columns.map SerialColumn.value) := by
  have := readValues_eq r.columns []
  simpa [values, body] using this

def fields (r : SerialRecord) : List Field :=
  r.columns.map SerialColumn.field

theorem read_header (r : SerialRecord)
    : ∃ hdrLen nBytes,
        getVarint32 r.data = some (hdrLen, nBytes) ∧
        readWidths r.data hdrLen hdrLen.toNat nBytes = some (recordWidths r.fields) ∧
        r.data.drop hdrLen.toNat = recordBytes r.fields := by
  have hlen : r.header.length
      = r.lengthBytes.length + (r.columns.map fun c => c.typeBytes.length).sum := by
    simp [header, Function.comp_def]
  have hsize := r.size_lt
  obtain ⟨hdrLen, hhdrLen⟩ : ∃ hdrLen : UInt32, hdrLen.toNat = r.header.length := by
    refine ⟨UInt32.ofNat r.header.length, ?_⟩
    simp
    omega
  refine ⟨hdrLen, r.lengthBytes.length, ?_, ?_, ?_⟩
  . rw [data, header, List.append_assoc]
    apply getVarint32_append
    rw [hhdrLen, hlen]
    exact r.encodes
  . rw [data, header, List.append_assoc]
    exact readWidths_eq r.columns hdrLen r.lengthBytes r.body _ (by omega) (by omega)
  . rw [data, hhdrLen, List.drop_left]
    simp [body, recordBytes, fields, Function.comp_def, SerialColumn.field]

theorem applyRecord_insert (r : SerialRecord) (pick : List Int → Nat) (t : DBTable) (rowId : UInt32)
    (updateMetaInfo : List UpdateMetaInfo)
    : applyRecord pick t ⟨.insert, rowId, r.data, updateMetaInfo⟩
        =
      (t.insertRecordTable pick rowId (recordBytes r.fields) (recordWidths r.fields)).map
        Prod.fst := by
  obtain ⟨hdrLen, nBytes, hget, hwidths, hbody⟩ := r.read_header
  simp only [applyRecord, hget, hwidths, hbody, Option.bind_eq_bind, Option.bind_some]
  cases t.insertRecordTable pick rowId (recordBytes r.fields) (recordWidths r.fields) <;> rfl

theorem applyRecord_update (r : SerialRecord) (pick : List Int → Nat) (t : DBTable) (rowId : UInt32)
    (updateMetaInfo : List UpdateMetaInfo)
    : applyRecord pick t ⟨.update, rowId, r.data, updateMetaInfo⟩
        =
      (t.updateRecordTable pick rowId updateMetaInfo (recordBytes r.fields) (recordWidths r.fields)).map
        Prod.fst := by
  obtain ⟨hdrLen, nBytes, hget, hwidths, hbody⟩ := r.read_header
  simp only [applyRecord, hget, hwidths, hbody, Option.bind_eq_bind, Option.bind_some]
  cases t.updateRecordTable pick rowId updateMetaInfo (recordBytes r.fields) (recordWidths r.fields) <;> rfl

theorem applySizedRecord_insert (r : SerialRecord) (roundUp : Nat → Nat) (pick : List Int → Nat) (t : SizedTable)
    (rowId : UInt32) (updateMetaInfo : List UpdateMetaInfo)
    : applySizedRecord roundUp pick t ⟨.insert, rowId, r.data, updateMetaInfo⟩
        =
      (t.insertRecordTable roundUp pick rowId (recordBytes r.fields) (recordWidths r.fields)).map Prod.fst := by
  obtain ⟨hdrLen, nBytes, hget, hwidths, hbody⟩ := r.read_header
  simp only [applySizedRecord, hget, hwidths, hbody, Option.bind_eq_bind, Option.bind_some]
  cases t.insertRecordTable roundUp pick rowId (recordBytes r.fields) (recordWidths r.fields) <;> rfl

/--
The table holds the row that `recordSerialGet` reads from the record under `rowId`.
-/
def IsStored (r : SerialRecord) (t : DBTable) (rowId : UInt32) : Prop :=
  ∃ info row, t.blockMap.lookup (rowKey rowId) = some info ∧ t.row info = some row ∧ r.values = some row

/--
The record can be inserted under `rowId` without a write behind a buffer or an overflow of `num_rows`, and the table
holds the row that `recordSerialGet` reads from it.
-/
def StoredIn (r : SerialRecord) (roundUp : Nat → Nat) (pick : List Int → Nat) (t : SizedTable) (rowId : UInt32) : Prop :=
  ∃ t', applySizedRecord roundUp pick t ⟨.insert, rowId, r.data, []⟩ = some t' ∧
    t'.table.numRows ≤ maxInt ∧ r.IsStored t'.table rowId

/--
The records that are stored as they are read: all columns are, and the record fits an empty block.
-/
def Faithful (r : SerialRecord) (t : DBTable) : Prop :=
  List.Forall₂ SerialColumn.Faithful t.schema.fields r.columns ∧
  (r.columns.map SerialColumn.size).sum ≤ t.blockCapacity

instance (r : SerialRecord) (t : DBTable) : Decidable (r.Faithful t) :=
  inferInstanceAs (Decidable (_ ∧ _))

theorem isRecord_of_faithful {fields : List FieldType} {cs : List SerialColumn}
    (h : List.Forall₂ SerialColumn.Faithful fields cs)
    : IsRecord fields (cs.map SerialColumn.field) := by
  induction h with
  | nil => exact .nil
  | @cons type c fields cs hc _ ih =>
    exact .cons (SerialColumn.wellFormed_of_faithful hc) ih

theorem storedRow_eq_values_iff {fields : List FieldType} {cs : List SerialColumn}
    (hlen : fields.length = cs.length)
    : storedRow fields (cs.map SerialColumn.field) = cs.map SerialColumn.value
        ↔
      List.Forall₂ SerialColumn.Faithful fields cs := by
  induction fields generalizing cs with
  | nil =>
    cases cs with
    | nil => simp [storedRow]
    | cons c cs => simp at hlen
  | cons type fields ih =>
    cases cs with
    | nil => simp at hlen
    | cons c cs =>
      have hrest := ih (by simpa using hlen)
      simp only [storedRow, List.map_cons, List.zipWith_cons_cons, List.cons.injEq,
        List.forall₂_cons, c.stored_eq_value_iff] at hrest ⊢
      rw [hrest]

/--
Without the memory of the blocks, a record is stored as it is read exactly if all of its columns are and it fits an
empty block.
-/
theorem isStored_iff_faithful {t : DBTable} {contents : List (List Row)} (h : t.Repr contents)
    (r : SerialRecord) (hlen : t.schema.fields.length = r.columns.length) (pick : List Int → Nat)
    (rowId : UInt32)
    : (∃ t', applyRecord pick t ⟨.insert, rowId, r.data, []⟩ = some t' ∧ r.IsStored t' rowId) ↔ r.Faithful t := by
  have hwidths : (recordWidths r.fields).sum = (r.columns.map SerialColumn.size).sum := by
    simp [recordWidths, fields, Function.comp_def, SerialColumn.field, SerialColumn.byteWidth_eq]
  unfold IsStored Faithful
  rw [← storedRow_eq_values_iff hlen, ← hwidths]
  simp only [applyRecord_insert, Option.map_eq_some_iff, Prod.exists, exists_and_right, exists_eq_right,
    values_eq, Option.some.injEq]
  constructor
  . rintro ⟨t', ⟨record, heq⟩, info, row, hinfo, hrow, hvalues⟩
    by_cases hgood : IsRecord t.schema.fields r.fields ∧ (recordWidths r.fields).sum ≤ t.blockCapacity
    . obtain ⟨t'', -, i, k, heq', -, -, -, hmap, -, -, hrows⟩ :=
        h.insertRecordTable pick rowId hgood.1 hgood.2
      rw [heq] at heq'
      injection heq' with heq'
      injection heq' with ht
      subst ht
      rw [hmap, AList.lookup_insert] at hinfo
      injection hinfo with hinfo
      rw [← hinfo, hrows, if_pos rfl] at hrow
      injection hrow with hrow
      refine ⟨?_, hgood.2⟩
      rw [hvalues]
      exact hrow
    . obtain ⟨i, hlost⟩ := h.insertRecordTable_rejected (by simpa [fields] using hlen) (by
        intro x hx
        rw [fields, List.mem_map] at hx
        obtain ⟨c, -, hc⟩ := hx
        rw [← hc]
        exact c.length_field) hgood heq
      rw [hinfo] at hlost
      injection hlost with hlost
      rw [hlost] at hrow
      simp [DBTable.row] at hrow
  . rintro ⟨hvalues, hfit⟩
    have hrec := isRecord_of_faithful ((storedRow_eq_values_iff hlen).mp hvalues)
    obtain ⟨t', -, i, k, heq, -, -, -, hmap, -, -, hrows⟩ := h.insertRecordTable pick rowId hrec hfit
    refine ⟨t', ⟨_, heq⟩, ⟨i, k⟩, _, ?_, ?_, hvalues.symm⟩
    . rw [hmap, AList.lookup_insert]
    . rw [hrows, if_pos rfl]

/--
A record is stored as it is read exactly if all of its columns are, it fits an empty block and it finds room.
-/
theorem storedIn_iff_faithful {roundUp : Nat → Nat} (hround : ∀ n, n ≤ roundUp n) {schema : Schema} {blockCapacity : Int}
    (hroomy : SizedTable.Roomy schema blockCapacity) (hcapacity : blockCapacity ≤ maxInt) {t : SizedTable}
    (h : t.HasRoom schema blockCapacity maxInt) (r : SerialRecord) (hlen : schema.fields.length = r.columns.length)
    (pick : List Int → Nat) (rowId : UInt32)
    : r.StoredIn roundUp pick t rowId ↔ r.Faithful t.table ∧ t.FindsRoom roundUp pick r.fields := by
  obtain ⟨contents, hfilled⟩ := h
  have hbare := isStored_iff_faithful hfilled.ok.repr r (by rw [hfilled.schema_eq]; exact hlen) pick rowId
  have hwidths : (recordWidths r.fields).sum = (r.columns.map SerialColumn.size).sum := by
    simp [recordWidths, fields, Function.comp_def, SerialColumn.field, SerialColumn.byteWidth_eq]
  have hrecord : r.Faithful t.table → IsRecord schema.fields r.fields ∧ (recordWidths r.fields).sum ≤ blockCapacity := by
    rintro ⟨hcolumns, hfit⟩
    rw [hfilled.schema_eq] at hcolumns
    rw [hfilled.blockCapacity_eq, ← hwidths] at hfit
    exact ⟨isRecord_of_faithful hcolumns, hfit⟩
  unfold StoredIn
  rw [applySizedRecord_insert]
  constructor
  . rintro ⟨t', heq, hcount, hstored⟩
    obtain ⟨⟨t'', reversed⟩, hinsert, rfl⟩ := Option.map_eq_some_iff.mp heq
    have happly : applySizedRecord roundUp pick t ⟨.insert, rowId, r.data, []⟩ = some t'' := by
      rw [applySizedRecord_insert, hinsert]
      rfl
    have hfaithful : r.Faithful t.table := hbare.mp ⟨t''.table, applySizedRecord_table happly, hstored⟩
    obtain ⟨hrec, hfit⟩ := hrecord hfaithful
    exact ⟨hfaithful, hfilled.findsRoom_of_insert hround hroomy hrec hfit hinsert hcount⟩
  . rintro ⟨hfaithful, hroom⟩
    obtain ⟨hrec, hfit⟩ := hrecord hfaithful
    obtain ⟨t', reversed, contents', hinsert, hfilled'⟩ :=
      hfilled.insertRecordTable hround hroomy hcapacity hrec hfit hroom rowId
    obtain ⟨t'', heq, hstored⟩ := hbare.mpr hfaithful
    rw [applyRecord_insert, SizedTable.insertRecordTable_table hinsert] at heq
    cases heq
    exact ⟨t', by rw [hinsert]; rfl, hfilled'.numRows_le, hstored⟩

def mixedRecord : SerialRecord where
  lengthBytes := [5]
  columns := [
    ⟨[9], 9, [], by decide, by decide, by decide⟩,
    ⟨[2], 2, [1, 44], by decide, by decide, by decide⟩,
    ⟨[19], 19, [97, 98, 99], by decide, by decide, by decide⟩,
    ⟨[8], 8, [], by decide, by decide, by decide⟩
  ]
  encodes := by decide
  size_lt := by decide

def mixedSchema : Schema := ⟨[.int64, .int64, .string, .int64], by simp⟩

theorem mixedRecord_storedIn
    : mixedRecord.StoredIn roundUpToMultipleOf64 (fun _ => 0) (.new mixedSchema 100 false) 7 := by
  apply (storedIn_iff_faithful SizedTable.le_roundUpToMultipleOf64 ⟨by decide, by decide⟩ (by decide)
    (SizedTable.new_hasRoom mixedSchema 100 maxInt false) mixedRecord rfl _ _).mpr
  decide +kernel

def minusOneRecord : SerialRecord where
  lengthBytes := [2]
  columns := [⟨[1], 1, [255], by decide, by decide, by decide⟩]
  encodes := by decide
  size_lt := by decide

/--
The integer -1 is stored as 255.
-/
theorem not_storedIn
    : ¬∀ (roundUp : Nat → Nat) (schema : Schema) (blockCapacity : Int) (t : SizedTable) (r : SerialRecord)
          (pick : List Int → Nat) (rowId : UInt32),
        (∀ n, n ≤ roundUp n) → SizedTable.Roomy schema blockCapacity → blockCapacity ≤ maxInt →
        t.HasRoom schema blockCapacity maxInt → schema.fields.length = r.columns.length →
        r.StoredIn roundUp pick t rowId := by
  intro h
  obtain ⟨t', heq, -, info, row, hinfo, hrow, hvalues⟩ := h roundUpToMultipleOf64 ⟨[.int64], by simp⟩ 100
    (.new ⟨[.int64], by simp⟩ 100 false) minusOneRecord (fun _ => 0) 7 SizedTable.le_roundUpToMultipleOf64
    ⟨by decide, by decide⟩ (by decide) (SizedTable.new_hasRoom _ _ _ _) rfl
  have hread : minusOneRecord.values = some [.int64 (-1)] := by decide
  have hstored : (applySizedRecord roundUpToMultipleOf64 (fun _ => 0) (.new ⟨[.int64], by simp⟩ 100 false)
      ⟨.insert, 7, minusOneRecord.data, []⟩).bind
        (fun t => (t.table.blockMap.lookup (rowKey 7)).bind t.table.row) = some [.int64 255] := by
    decide +kernel
  rw [heq, Option.bind_some, hinfo, Option.bind_some, hrow, ← hvalues, hread] at hstored
  exact absurd hstored (by decide)

end SerialRecord

end Hustle.Memlog
