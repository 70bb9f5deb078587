import Hustle.Storage.RecordUtils
import Hustle.Storage.Table

/-!
This module contains the records of the memlog and what `hustle_memlog_update_db` does with one of
them.
-/

namespace Hustle.Memlog

open Storage

inductive Mode where
  | update
  | insert
  | delete
  deriving DecidableEq, Repr

structure DBRecord where
  mode : Mode
  rowId : UInt32
  data : List UInt8
  updateMetaInfo : List UpdateMetaInfo
  deriving DecidableEq, Repr

/--
The width of a column as an `int32_t`, where the constants 0 and 1 are kept apart from empty columns by
the negative serial type.
-/
def byteWidth (typeLen : UInt32) : Int :=
  if typeLen = UInt32.ofNat zeroTypeEncoding ∨ typeLen = UInt32.ofNat oneTypeEncoding then
    (-typeLen).toBitVec.toInt
  else
    (serialTypeLen typeLen).toBitVec.toInt

/--
The loop of `hustle_memlog_update_db` over the serial types in the header. As every serial type takes
at least one byte, `hdrLen` iterations are enough.
-/
def readWidths (hdr : List UInt8) (hdrLen : UInt32) : Nat → Nat → Option (List Int)
  | fuel, idx =>
    if idx < hdrLen.toNat then
      match fuel with
      | 0 => none
      | fuel + 1 => do
        let (typeLen, nBytes) ← getVarint32 (hdr.drop idx)
        let byteWidths ← readWidths hdr hdrLen fuel (idx + nBytes)
        return byteWidth typeLen :: byteWidths
    else
      some []

section

variable (pick : List Int → Nat)

/--
The body of the loop in `hustle_memlog_update_db` over the records of a table.
-/
def applyRecord (table : DBTable) (record : DBRecord) : Option DBTable :=
  match record.mode with
  | .delete => table.deleteRecordTable record.rowId
  | mode => do
    let (hdrLen, nBytes) ← getVarint32 record.data
    let widths ← readWidths record.data hdrLen hdrLen.toNat nBytes
    let recordData := record.data.drop hdrLen.toNat
    match mode with
    | .insert =>
      let (table, _) ← table.insertRecordTable pick record.rowId recordData widths
      return table
    | .update =>
      let (table, _) ←
        table.updateRecordTable pick record.rowId record.updateMetaInfo recordData widths
      return table
    | .delete => return table

end

end Hustle.Memlog
