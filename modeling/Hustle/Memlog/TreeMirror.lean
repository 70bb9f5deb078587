import Hustle.Memlog.Connection
import Hustle.Memlog.Decode
import Hustle.Storage.UpdatedTable
import Hustle.Util.Run

/-!
This module contains a table that follows a B-tree: the changes of the rows are applied to both of them, to the table as
the records of the memlog. The table holds the rows of the B-tree as long as it is asked for changes that it can do.
-/

namespace Hustle.Memlog

open Storage

deriving instance DecidableEq for SerialColumn, SerialRecord

def SerialRecord.row (r : SerialRecord) : Row :=
  r.columns.map SerialColumn.value

/--
The rows of a B-tree under their row ids, which no two keys share.
-/
structure Mirrors (tree : BTree SerialRecord) (live : RowStore) : Prop where
  row_eq : ∀ key r, tree.lookup key = some r → live.lookup (rowIdOf key) = some r.row
  noOther : ∀ rowId ∈ live, ∃ key ∈ tree, rowIdOf key = rowId
  inj : ∀ key ∈ tree, ∀ key' ∈ tree, rowIdOf key = rowIdOf key' → key = key'

namespace Mirrors

variable {tree : BTree SerialRecord} {live : RowStore}

theorem empty : Mirrors ∅ ∅ where
  row_eq := by simp
  noOther := fun rowId h => absurd h Finmap.notMem_empty
  inj := fun key h => by simp [SortedMap.mem_iff] at h

theorem mem (h : Mirrors tree live) {key : Int} (hkey : key ∈ tree) : rowIdOf key ∈ live := by
  obtain ⟨r, hr⟩ := SortedMap.mem_iff.mp hkey
  exact Finmap.mem_of_lookup_eq_some (h.row_eq key r hr)

theorem insert (h : Mirrors tree live) {key : Int} (r : SerialRecord)
    (hkey : ∀ key' ∈ tree, rowIdOf key' = rowIdOf key → key' = key)
    : Mirrors (tree.insert key r) (live.insert (rowIdOf key) r.row) where
  row_eq := by
    intro key' r' hr'
    rw [SortedMap.lookup_insert] at hr'
    split at hr'
    . next heq =>
      cases hr'
      rw [heq, Finmap.lookup_insert]
    . next hne =>
      have hid : rowIdOf key' ≠ rowIdOf key := by
        intro hid
        exact hne (hkey key' (SortedMap.mem_of_lookup hr') hid)
      rw [Finmap.lookup_insert_of_ne _ hid]
      exact h.row_eq key' r' hr'
  noOther := by
    intro rowId hlive
    rw [Finmap.mem_insert] at hlive
    rcases hlive with rfl | hlive
    . exact ⟨key, by simp, rfl⟩
    . obtain ⟨key', hmem, hid⟩ := h.noOther rowId hlive
      exact ⟨key', by simp [hmem], hid⟩
  inj := by
    intro a ha b hb hid
    rw [SortedMap.mem_insert] at ha hb
    rcases ha with rfl | ha
    . rcases hb with rfl | hb
      . rfl
      . exact (hkey b hb hid.symm).symm
    . rcases hb with rfl | hb
      . exact hkey a ha hid
      . exact h.inj a ha b hb hid

theorem erase (h : Mirrors tree live) {key : Int} (hkey : key ∈ tree)
    : Mirrors (tree.erase key) (live.erase (rowIdOf key)) where
  row_eq := by
    intro key' r' hr'
    rw [SortedMap.lookup_erase] at hr'
    split at hr'
    . simp at hr'
    . next hne =>
      have hid : rowIdOf key' ≠ rowIdOf key := by
        intro hid
        exact hne (h.inj key' (SortedMap.mem_of_lookup hr') key hkey hid)
      rw [Finmap.lookup_erase_ne hid]
      exact h.row_eq key' r' hr'
  noOther := by
    intro rowId hlive
    obtain ⟨hne, hlive⟩ := Finmap.mem_erase.mp hlive
    obtain ⟨key', hmem, hid⟩ := h.noOther rowId hlive
    refine ⟨key', ?_, hid⟩
    rw [SortedMap.mem_erase]
    refine ⟨?_, hmem⟩
    rintro rfl
    exact hne hid.symm
  inj := by
    intro a ha b hb hid
    exact h.inj a (SortedMap.mem_erase.mp ha).2 b (SortedMap.mem_erase.mp hb).2 hid

end Mirrors

/--
A table and the B-tree that it follows.
-/
structure Mirror where
  table : DBTable
  tree : BTree SerialRecord

namespace Mirror

/--
The table holds exactly the rows of the B-tree.
-/
def Holds (m : Mirror) : Prop :=
  ∃ live, Mirrors m.tree live ∧ DBTable.Tracked.Inv ⟨m.table, live⟩

def step (pick : List Int → Nat) (m : Mirror) (change : RowChange SerialRecord) : Option Mirror := do
  let table ← applyRecord pick m.table (change.record SerialRecord.data)
  return ⟨table, change.apply m.tree⟩

/--
The updates that a table can do: the record is stored as it is read, has no integers of eight bytes and differs from the
old one in the columns that are said to be updated only.
-/
def CanUpdate (m : Mirror) (key : Int) (r : SerialRecord) (cols : List Nat) : Prop :=
  cols.Pairwise (· < ·) ∧
  (∀ c ∈ cols, c < m.table.schema.fields.length) ∧
  List.Forall₂ Field.Short m.table.schema.fields r.fields ∧
  List.Forall₂ SerialColumn.Faithful m.table.schema.fields r.columns ∧
  (∀ old ∈ m.tree.lookup key, ∀ k < m.table.schema.fields.length, k ∉ cols → old.row[k]? = r.row[k]?) ∧
  ∀ place ∈ m.table.blockMap.lookup (rowKey (rowIdOf key)),
    DBTable.UpdateSafe m.table (rowIdOf key) place cols r.fields

/--
The changes that a table can do. A row that is deleted is the last one of its block, and rebuilding the block does not
move row id 0.
-/
def Applicable (m : Mirror) : RowChange SerialRecord → Prop
  | .insert key r => (∀ key' ∈ m.tree.keys, rowIdOf key' ≠ rowIdOf key) ∧ r.Faithful m.table
  | .update key r updateMetaInfo =>
    key ∈ m.tree ∧ m.CanUpdate key r (updateMetaInfo.map UpdateMetaInfo.colNum)
  | .delete key =>
    key ∈ m.tree ∧
    ∀ info ∈ m.table.blockMap.lookup (rowKey (rowIdOf key)),
      (m.table.getBlock info.blockId).map (fun b => (b.numRows : Int)) = some (info.rowNum + 1) ∧
      (info.rowNum = 0 ∨ rowIdOf key = 0 ∨ (∀ key' ∈ m.tree.keys, rowIdOf key' ≠ 0) ∨
        (m.table.blockMap.lookup 0).map BlockInfo.rowNum = some (info.rowNum - 1))

instance (m : Mirror) (key : Int) (r : SerialRecord) (cols : List Nat) : Decidable (m.CanUpdate key r cols) :=
  inferInstanceAs (Decidable (_ ∧ _ ∧ _ ∧ _ ∧ (∀ _ ∈ _, ∀ _, _) ∧ ∀ _ ∈ _, _))

instance (m : Mirror) (change : RowChange SerialRecord) : Decidable (m.Applicable change) :=
  match change with
  | .insert _ _ => inferInstanceAs (Decidable (_ ∧ _))
  | .update _ _ _ => inferInstanceAs (Decidable (_ ∧ _))
  | .delete _ => inferInstanceAs (Decidable (_ ∧ ∀ _ ∈ _, _))

variable {m : Mirror}

theorem step_insert (hm : m.Holds) (pick : List Int → Nat) {key : Int} {r : SerialRecord}
    (hop : m.Applicable (.insert key r))
    : ∃ m', m.step pick (.insert key r) = some m' ∧ m'.Holds ∧
        m'.table.schema = m.table.schema ∧ m'.table.blockCapacity = m.table.blockCapacity := by
  obtain ⟨live, hmirrors, hinv⟩ := hm
  obtain ⟨hfresh, hfaithful, hfit⟩ := hop
  obtain ⟨-, contents, hrepr⟩ := id hinv
  have hwidths : (recordWidths r.fields).sum = (r.columns.map SerialColumn.size).sum := by
    simp [recordWidths, SerialRecord.fields, Function.comp_def, SerialColumn.field, SerialColumn.byteWidth_eq]
  have hdead : rowIdOf key ∉ live := by
    intro hlive
    obtain ⟨key', hmem, hid⟩ := hmirrors.noOther _ hlive
    exact hfresh key' hmem hid
  obtain ⟨t', contents', i, k, heq, hrepr', hschema, hcap, hmap, hnum, hnone, hrow⟩ :=
    hrepr.insertRecordTable pick (rowIdOf key) (SerialRecord.isRecord_of_faithful hfaithful)
      (by rw [← hwidths] at hfit; exact hfit)
  have hstored := (SerialRecord.storedRow_eq_values_iff hfaithful.length_eq).mpr hfaithful
  dsimp only at hstored hrow
  rw [hstored] at hrow
  have hstep : m.step pick (.insert key r) = some ⟨t', m.tree.insert key r⟩ := by
    dsimp only at heq
    simp [step, RowChange.record, SerialRecord.applyRecord_insert, SerialRecord.fields, heq, RowChange.apply]
  exact ⟨_, hstep, ⟨_, hmirrors.insert r fun key' hmem hid => absurd hid (hfresh key' hmem),
    hinv.inserted hdead hmap hnum hnone hrow ⟨contents', hrepr'⟩⟩, hschema, hcap⟩

theorem step_update (hm : m.Holds) (pick : List Int → Nat) {key : Int} {r : SerialRecord}
    {updateMetaInfo : List UpdateMetaInfo} (hop : m.Applicable (.update key r updateMetaInfo))
    : ∃ m', m.step pick (.update key r updateMetaInfo) = some m' ∧ m'.Holds ∧
        m'.table.schema = m.table.schema ∧ m'.table.blockCapacity = m.table.blockCapacity := by
  obtain ⟨live, hmirrors, hinv⟩ := hm
  obtain ⟨hmem, hsorted, hcols, hshort, hfaithful, hagree, hsafe⟩ := hop
  obtain ⟨href, contents, hrepr⟩ := id hinv
  obtain ⟨old, hold⟩ := SortedMap.mem_iff.mp hmem
  obtain ⟨place, hplace, hrow⟩ := href.holds _ _ (hmirrors.row_eq key old hold)
  dsimp only at hplace hrow hrepr
  have hrecord : recordRow m.table.schema.fields r.fields = r.row := by
    have hstored := (SerialRecord.storedRow_eq_values_iff hfaithful.length_eq).mpr hfaithful
    rw [← storedRow_eq_recordRow hshort]
    exact hstored
  have hlen : old.row.length = m.table.schema.fields.length := by
    obtain ⟨i, k, rows, -, hrows, hk⟩ := hrepr.exists_of_row hrow
    obtain ⟨_, _, _, _, hbrepr⟩ := hrepr.block i rows hrows
    rw [← hbrepr.hasType old.row (List.mem_of_getElem? hk), List.length_map]
  obtain ⟨t', record', place', heq, hupdated, hrepr', hschema, hcap⟩ :=
    DBTable.updateRecordTable_inv hrepr pick hplace hrow hsorted hcols hshort (by
      intro k hk
      rw [hrecord]
      by_cases hlt : k < m.table.schema.fields.length
      . exact hagree old hold k hlt hk
      . have hlen' : r.row.length = m.table.schema.fields.length := by
          simpa [SerialRecord.row] using hfaithful.length_eq.symm
        rw [List.getElem?_eq_none (by omega), List.getElem?_eq_none (by omega)])
      (hsafe place hplace)
  rw [hrecord] at hupdated
  have hstep : m.step pick (.update key r updateMetaInfo) = some ⟨t', m.tree.insert key r⟩ := by
    simp [step, RowChange.record, SerialRecord.applyRecord_update, heq, RowChange.apply]
  refine ⟨_, hstep, ⟨_, hmirrors.insert r fun key' hmem' hid => hmirrors.inj key' hmem' key hmem hid, ?_⟩,
    hschema, hcap⟩
  exact hinv.updated (hmirrors.mem hmem) hplace hupdated hrepr'

theorem step_delete (hm : m.Holds) (pick : List Int → Nat) {key : Int} (hop : m.Applicable (.delete key))
    : ∃ m', m.step pick (.delete key) = some m' ∧ m'.Holds ∧
        m'.table.schema = m.table.schema ∧ m'.table.blockCapacity = m.table.blockCapacity := by
  obtain ⟨live, hmirrors, hinv⟩ := hm
  obtain ⟨hmem, hsafe⟩ := hop
  have hzero : (∀ key' ∈ m.tree.keys, rowIdOf key' ≠ 0) → 0 ∉ live := by
    intro hkeys hlive
    obtain ⟨key', hmem', hid⟩ := hmirrors.noOther 0 hlive
    exact hkeys key' hmem' hid
  obtain ⟨s', hs', -, hinv'⟩ := @DBTable.Tracked.step_delete _ hinv pick (rowIdOf key) <| by
    intro info hinfo
    obtain ⟨hlast, hplace⟩ := hsafe info hinfo
    exact ⟨hmirrors.mem hmem, hlast, hplace.imp_right (.imp_right (.imp_left hzero))⟩
  unfold DBTable.Tracked.step at hs'
  obtain ⟨t', ht', hs'⟩ := Option.bind_eq_some_iff.mp hs'
  cases hs'
  obtain ⟨hschema, hcap⟩ := DBTable.deleteRecordTable_schema ht'
  have hstep : m.step pick (.delete key) = some ⟨t', m.tree.erase key⟩ := by
    dsimp only at ht'
    simp [step, RowChange.record, applyRecord, ht', RowChange.apply]
  exact ⟨_, hstep, ⟨_, hmirrors.erase hmem, hinv'⟩, hschema, hcap⟩

theorem step_holds (hm : m.Holds) (pick : List Int → Nat) {change : RowChange SerialRecord}
    (hop : m.Applicable change)
    : ∃ m', m.step pick change = some m' ∧ m'.Holds ∧
        m'.table.schema = m.table.schema ∧ m'.table.blockCapacity = m.table.blockCapacity := by
  cases change with
  | insert key r => exact step_insert hm pick hop
  | update key r updateMetaInfo => exact step_update hm pick hop
  | delete key => exact step_delete hm pick hop

theorem step_tree {pick : List Int → Nat} {change : RowChange SerialRecord} {m' : Mirror}
    (h : m.step pick change = some m')
    : m'.tree = change.apply m.tree ∧ applyRecord pick m.table (change.record SerialRecord.data) = some m'.table := by
  unfold step at h
  obtain ⟨t, ht, h⟩ := Option.bind_eq_some_iff.mp h
  cases h
  exact ⟨rfl, ht⟩

theorem run_holds (hm : m.Holds) {pick : List Int → Nat} {changes : List (RowChange SerialRecord)}
    (hops : Run.Meets (step pick) Applicable m changes)
    : ∃ t',
        (changes.map (RowChange.record SerialRecord.data)).foldlM (applyRecord pick) m.table = some t' ∧
        Holds ⟨t', changes.foldl RowChange.apply m.tree⟩ := by
  induction changes generalizing m with
  | nil => exact ⟨m.table, rfl, hm⟩
  | cons change changes ih =>
    obtain ⟨m', hm', hholds, -, -⟩ := step_holds hm pick hops.1
    obtain ⟨htree, htable⟩ := step_tree hm'
    obtain ⟨t', ht', hholds'⟩ := ih hholds (hops.2 m' hm')
    refine ⟨t', ?_, ?_⟩
    . rw [List.map_cons, List.foldlM_cons, htable]
      exact ht'
    . rw [List.foldl_cons, ← htree]
      exact hholds'

end Mirror

end Hustle.Memlog
