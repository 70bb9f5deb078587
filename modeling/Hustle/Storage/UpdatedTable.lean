import Hustle.Storage.TableRefinement
import Hustle.Storage.TableUpdate

/-!
This module contains what inserts and updates keep of a table besides its rows, and the comparison with a finite map for
the updates that go well.
-/

namespace Hustle.Storage

theorem storedRow_eq_recordRow {fields : List FieldType} {xs : List Field}
    (h : List.Forall₂ Field.Short fields xs)
    : storedRow fields xs = recordRow fields xs := by
  unfold storedRow recordRow
  induction h with
  | nil => rfl
  | cons hx _ ih => rw [List.zipWith_cons_cons, List.zipWith_cons_cons, hx.stored_eq, ih]

namespace DBTable

theorem deleteRecordTable_schema {t t' : DBTable} {rowId : UInt32} (h : t.deleteRecordTable rowId = some t')
    : t'.schema = t.schema ∧ t'.blockCapacity = t.blockCapacity := by
  unfold deleteRecordTable at h
  split at h
  . cases h
    exact ⟨rfl, rfl⟩
  . obtain ⟨ptr, -, h⟩ := Option.bind_eq_some_iff.mp h
    obtain ⟨block, -, h⟩ := Option.bind_eq_some_iff.mp h
    split at h
    . simp at h
    . obtain ⟨s, -, h⟩ := Option.bind_eq_some_iff.mp h
      cases h
      exact ⟨rfl, rfl⟩

instance (t : DBTable) (rowId : UInt32) (place : BlockInfo) (cols : List Nat) (xs : List Field)
    : Decidable (UpdateSafe t rowId place cols xs) :=
  let fields := t.schema.fields
  let positions := ∀ c ∈ cols, fields[c]? = some .int64 →
    ∀ w ∈ (recordWidths xs)[c]?, 0 ≤ w → ∀ w' ∈ (recordWidths xs).take c, 0 ≤ w'
  let order := ∀ c < fields.length, ∀ x ∈ xs[c]?, fields[c]? = some .int64 →
    reversals fields c cols % 2 = 1 → x.bytes = x.bytes.reverse
  let last := (∃ c ∈ cols, IsString fields c) → t.row ⟨place.blockId, place.rowNum + 1⟩ = none
  let fits := (∃ c ∈ cols, IsString fields c) → (recordWidths xs).sum ≤ t.blockCapacity
  let zero := cols.countP (IsString fields ·) = 0 ∨ rowId = 0 ∨
    (∀ info ∈ t.blockMap.lookup 0, info = place ∨ t.row info = none) ∨
    cols.countP (IsString fields ·) = 1 ∧
      (place.rowNum = 0 ∨ (t.blockMap.lookup 0).map BlockInfo.rowNum = some (place.rowNum - 1))
  decidable_of_iff (positions ∧ order ∧ last ∧ fits ∧ zero)
    ⟨fun ⟨a, b, c, d, e⟩ => ⟨a, b, c, d, e⟩, fun ⟨a, b, c, d, e⟩ => ⟨a, b, c, d, e⟩⟩

theorem updateRecordTable_inv {t : DBTable} {contents : List (List Row)} (hrepr : t.Repr contents)
    (pick : List Int → Nat) {rowId : UInt32} {place : BlockInfo} {row : Row}
    (hmap : t.blockMap.lookup (rowKey rowId) = some place) (hrow : t.row place = some row)
    {infos : List UpdateMetaInfo} (hsorted : (infos.map UpdateMetaInfo.colNum).Pairwise (· < ·))
    (hcols : ∀ c ∈ infos.map UpdateMetaInfo.colNum, c < t.schema.fields.length)
    {xs : List Field} (hxs : List.Forall₂ Field.Short t.schema.fields xs)
    (hagree : ∀ k, k ∉ infos.map UpdateMetaInfo.colNum → row[k]? = (recordRow t.schema.fields xs)[k]?)
    (hsafe : UpdateSafe t rowId place (infos.map UpdateMetaInfo.colNum) xs)
    : ∃ t' record' place',
        t.updateRecordTable pick rowId infos (recordBytes xs) (recordWidths xs) = some (t', record') ∧
        UpdatedAt t t' rowId place place' (recordRow t.schema.fields xs) ∧
        (∃ contents', t'.Repr contents') ∧
        t'.schema = t.schema ∧
        t'.blockCapacity = t.blockCapacity := by
  obtain ⟨i, r, rows, rfl, hrows, hr⟩ := hrepr.exists_of_row hrow
  obtain ⟨ptr, b, hptr, hb, hbrepr⟩ := hrepr.block i rows hrows
  have hlen : row.length = t.schema.fields.length := by
    have htype := hbrepr.hasType row (List.mem_of_getElem? hr)
    rw [← htype, List.length_map]
  have hkept : UpdatedAt t t rowId ⟨i, r⟩ ⟨i, r⟩ row := by
    refine ⟨hmap, .inl rfl, ?_, fun _ _ _ hinfo _ _ => hinfo, rfl⟩
    intro info
    split
    . next hinfo => rw [hinfo, hrow]
    . rfl
  have hinv : UpdateInv t rowId ⟨i, r⟩ ptr r true xs row ⟨i, r⟩ ⟨t, recordBytes xs, 0, 0⟩ :=
    ⟨⟨contents, hrepr⟩, rfl, rfl, hkept, ⟨rfl, hptr⟩, rfl, by simp, hxs⟩
  obtain ⟨s', live', ys', place', heq, hinv'⟩ := hinv.run_inv pick infos rfl
    (hsafe.remaining hsorted hcols _)
  have hreplay : replay t.schema.fields true (infos.map UpdateMetaInfo.colNum) xs row
      = recordRow t.schema.fields xs := by
    apply replay_eq_recordRow hxs hcols (hsorted.imp Nat.ne_of_lt) hlen hagree
    intro c x hc hx
    exact hsafe.order c (List.getElem?_eq_some_iff.mp hc).1 x hx hc
  rw [hreplay] at hinv'
  refine ⟨s'.table, s'.record, place', ?_, hinv'.updated, hinv'.repr, hinv'.schema_eq, hinv'.blockCapacity_eq⟩
  have hneg : ¬((r : Int) < 0) := by omega
  unfold updateRecordTable
  simp only [hmap, hptr, Option.bind_eq_bind, Option.bind_some, hneg, ↓reduceIte, Int.toNat_natCast,
    heq, Option.pure_def]

namespace Tracked

variable {s : Tracked}

/--
A table whose row for a live row id has been replaced refines the map with the new row.
-/
theorem Inv.updated (hinv : s.Inv) {rowId : UInt32} (hlive : rowId ∈ s.live) {place place' : BlockInfo}
    {row : Row} {t' : DBTable} (hplace : s.table.blockMap.lookup (rowKey rowId) = some place)
    (hupdated : UpdatedAt s.table t' rowId place place' row) (hrepr : ∃ contents, t'.Repr contents)
    : Inv ⟨t', s.live.insert rowId row⟩ := by
  obtain ⟨href, -⟩ := hinv
  have hmem : ∀ other, other ∈ s.live.insert rowId row ↔ other ∈ s.live := by
    intro other
    rw [Finmap.mem_insert]
    constructor
    . rintro (rfl | hother)
      . exact hlive
      . exact hother
    . exact .inr
  -- The other live rows are neither at the old place nor at the new one.
  have hother : ∀ other info, other ∈ s.live → other ≠ rowId
      → s.table.blockMap.lookup (rowKey other) = some info
      → t'.blockMap.lookup (rowKey other) = some info ∧ info ≠ place ∧ info ≠ place' := by
    intro other info hother hne hinfo
    obtain ⟨row', hrow'⟩ := Finmap.mem_iff.mp hother
    obtain ⟨info', hinfo', hstored⟩ := href.holds other row' hrow'
    rw [hinfo] at hinfo'
    cases hinfo'
    have hold : info ≠ place := by
      rintro rfl
      exact hne (href.distinct other rowId info hother hlive hinfo hplace)
    refine ⟨hupdated.others other info hne hinfo hold (by simp [hstored]), hold, ?_⟩
    rintro rfl
    rcases hupdated.place_free with hsame | hfree
    . exact hold hsame
    . rw [hfree] at hstored
      simp at hstored
  have hrowOther : ∀ info, info ≠ place → info ≠ place' → t'.row info = s.table.row info := by
    intro info hne hne'
    rw [hupdated.row_eq, if_neg hne', if_neg hne]
  have hentry : ∀ other, other ∈ s.live → other ≠ rowId →
      ∃ info row', s.live.lookup other = some row' ∧ s.table.blockMap.lookup (rowKey other) = some info ∧
        s.table.row info = some row' := by
    intro other hlive' _
    obtain ⟨row', hrow'⟩ := Finmap.mem_iff.mp hlive'
    obtain ⟨info, hinfo, hstored⟩ := href.holds other row' hrow'
    exact ⟨info, row', hrow', hinfo, hstored⟩
  refine ⟨?_, hrepr⟩
  constructor
  . intro other row' hrow'
    dsimp only at hrow' ⊢
    by_cases hid : other = rowId
    . subst hid
      rw [Finmap.lookup_insert] at hrow'
      exact ⟨place', hupdated.lookup_eq, by rw [hupdated.row_eq, if_pos rfl, hrow']⟩
    . rw [Finmap.lookup_insert_of_ne _ hid] at hrow'
      have hlive' := Finmap.mem_of_lookup_eq_some hrow'
      obtain ⟨info, hinfo, hstored⟩ := href.holds other row' hrow'
      obtain ⟨hinfo', hne, hne'⟩ := hother other info hlive' hid hinfo
      exact ⟨info, hinfo', by rw [hrowOther info hne hne', hstored]⟩
  . intro a b info ha hb hainfo hbinfo
    dsimp only at ha hb hainfo hbinfo
    rw [hmem] at ha hb
    by_cases hid : a = rowId
    . by_cases hid' : b = rowId
      . rw [hid, hid']
      . obtain ⟨info', -, -, hinfo', -⟩ := hentry b hb hid'
        obtain ⟨hinfo'', -, hne⟩ := hother b info' hb hid' hinfo'
        rw [hid, hupdated.lookup_eq] at hainfo
        rw [hinfo''] at hbinfo
        cases hainfo
        cases hbinfo
        exact absurd rfl hne
    . obtain ⟨ia, -, -, hia, -⟩ := hentry a ha hid
      obtain ⟨hia', -, hne⟩ := hother a ia ha hid hia
      rw [hia'] at hainfo
      cases hainfo
      by_cases hid' : b = rowId
      . rw [hid', hupdated.lookup_eq] at hbinfo
        cases hbinfo
        exact absurd rfl hne
      . obtain ⟨ib, -, -, hib, -⟩ := hentry b hb hid'
        obtain ⟨hib', -, -⟩ := hother b ib hb hid' hib
        rw [hib'] at hbinfo
        cases hbinfo
        exact href.distinct a b _ ha hb hia hib
  . intro info row' hstored
    dsimp only at hstored ⊢
    rw [hupdated.row_eq] at hstored
    split at hstored
    . next hinfo => exact ⟨rowId, by simp, by rw [hinfo, hupdated.lookup_eq]⟩
    . split at hstored
      . simp at hstored
      . next hne' hne =>
        obtain ⟨other, hlive', hinfo⟩ := href.noOther info row' hstored
        have hid : other ≠ rowId := by
          rintro rfl
          rw [hplace] at hinfo
          cases hinfo
          exact hne rfl
        exact ⟨other, (hmem other).mpr hlive', (hother other info hlive' hid hinfo).1⟩
  . have hkeys : (s.live.insert rowId row).keys = s.live.keys := by
      ext other
      rw [Finmap.mem_keys, Finmap.mem_keys, hmem]
    dsimp only
    rw [hupdated.numRows_eq, href.numRows_eq, hkeys]

end Tracked

end DBTable

end Hustle.Storage
