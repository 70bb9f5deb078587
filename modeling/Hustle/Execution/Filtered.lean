import Hustle.Execution.Engine
import Hustle.Resolver.PlanClauses
import Hustle.Util.Writes

/-!
This module contains what the operators that filter the tables of a query leave for the joins.
-/

namespace Hustle.Execution

open Operators
open Resolver (Operator PredicateTree SelectInv SelectResolver SelectState TableName selectOperator)
open Resolver.SelectResolver (selectOperator_io)

namespace Engine

variable {e : Engine} {schedules : Schedules} {name : TableName} {t : QueryTable} {s : SelectResolver}

theorem bits_eq {out : BooleanArray} {rows : List Storage.Row} {f : Storage.Row → Bool} (h : Select.Marks out rows f)
    : out.bits = rows.map f := by
  rw [BooleanArray.bits, h.length_eq]
  apply List.ext_getElem
  . simp
  . intro i hi hi'
    have hlt : i < rows.length := by simpa using hi'
    have hbit := h.holds i
    simp [hbit, hlt]

/--
`Select` marks the rows that satisfy the tree, in whatever order the blocks are filtered.
-/
theorem select_eq_some (ht : e.table name = some t) {tree : PredicateTree} (htree : t.WellTyped (some (rootOf tree)))
    {blocks : List Nat}
    (hblocks : blocks.Perm (SelectBuildHash.batches e.hardwareConcurrency t.table.blocks.entries.length).flatten)
    : e.select name tree blocks = some ⟨e.pointer name, some (t.marked (rootOf tree)), none, none, none⟩ := by
  have hlen : t.contents.length = t.table.blocks.entries.length := t.repr.numBlocks_eq.symm
  have hpos : 0 < t.table.blocks.entries.length := hlen ▸ List.length_pos_of_ne_nil t.contents_ne
  rw [SelectBuildHash.flatten_batches hpos] at hblocks
  have hblock : ∀ i : Nat, ∃ out, i < t.contents.length → ∃ b, t.table.getBlock (i : Int) = some b ∧
      Select.filter e.compare (e.searchMetadata name i) t.names b (rootOf tree) = some out ∧
      some out.bits = (t.marked (rootOf tree))[i]? := by
    intro i
    by_cases hi : i < t.contents.length
    . obtain ⟨b, hb, hrepr⟩ := t.repr.getBlock_eq (List.getElem?_eq_getElem hi)
      obtain ⟨out, hout, hmarks⟩ := @Select.filter_marks e.compare (e.searchMetadata name i) _ _ _ _ _ _
        e.compare_pointwise hrepr (t.metadata i b hb) (rootOf tree) (htree _ rfl)
      refine ⟨out, fun _ => ⟨b, hb, hout, ?_⟩⟩
      rw [bits_eq hmarks, QueryTable.marked, List.getElem?_map, List.getElem?_eq_getElem hi, Option.map_some]
    . exact ⟨⟨0, []⟩, fun h => absurd h hi⟩
  choose out hout using hblock
  have hfold := @Writes.foldlM_set _ (e.executeBlock name t tree) (fun i => some (out i)) blocks
    (List.replicate t.table.blocks.entries.length none)
    (by
      intro i hi filters
      rw [hblocks.mem_iff, List.mem_range, ← hlen] at hi
      obtain ⟨b, hb, hfilter, -⟩ := hout i hi
      simp [executeBlock, hb, hfilter])
    (by rw [List.length_replicate]; exact hblocks)
  rw [List.length_replicate] at hfold
  have hfilters : ((List.range t.table.blocks.entries.length).map fun i => some (out i)).mapM id
      = some ((List.range t.table.blocks.entries.length).map out) := by
    rw [← Run.mapM_id_map_some, List.map_map]
    rfl
  have hbits : ((List.range t.table.blocks.entries.length).map out).map BooleanArray.bits = t.marked (rootOf tree) := by
    apply List.ext_getElem?
    intro i
    rw [List.map_map, List.getElem?_map]
    by_cases hi : i < t.contents.length
    . obtain ⟨-, -, -, hbits⟩ := hout i hi
      rw [List.getElem?_range (hlen ▸ hi), ← hbits]
      rfl
    . rw [List.getElem?_eq_none (by rw [List.length_range]; omega),
        List.getElem?_eq_none (by rw [QueryTable.marked, List.length_map]; omega)]
      rfl
  simp only [select, ht, hfold, hfilters, hbits, Option.bind_eq_bind, Option.bind_some, Option.pure_def]

/--
The lazy table has the rows of a table that satisfy its tree, and it has the matching rows if it is on the right side of
a join.
-/
structure Filtered (e : Engine) (s : SelectResolver) (name : TableName) (lt : LazyTable) : Prop where
  table_eq : lt.table = e.pointer name
  fresh : lt.Fresh e.db.tables
  passes : ∀ t, e.table name = some t → ∀ r < t.chunkLengths.sum,
    Passes lt.filter r ↔ t.Selects ((s.treeOf name).map rootOf) r
  finds : ∀ p ∈ s.predicates, p.rightTable = some name → ∀ p', e.joinPredicate p = some p' →
    FindsMatching e.db.tables p' lt

/--
A join predicate of the query, its tables, and the predicate on their pointers.
-/
structure JoinOf (e : Engine) (p : Resolver.JoinPredicate) (left right : TableName) (p' : JoinPredicate) : Prop where
  left_eq : p.leftTable = some left
  right_eq : p.rightTable = some right
  joinPredicate_eq : e.joinPredicate p = some p'
  leftTable_eq : p'.leftTable = e.pointer left
  rightTable_eq : p'.rightTable = e.pointer right
  hasColumns : e.db.tables.HasColumns p'
  agrees_iff : ∀ ρ, e.db.tables.Agrees p' ρ ↔ e.Agrees p ρ

theorem Fits.exists_joinOf (hfits : e.Fits s) {p : Resolver.JoinPredicate} (hp : p ∈ s.predicates)
    : ∃ left right p', e.JoinOf p left right p' := by
  obtain ⟨left, tl, hleft, htl, hcoll⟩ := hfits.columns p hp _ (.inl rfl)
  obtain ⟨right, tr, hright, htr, hcolr⟩ := hfits.columns p hp _ (.inr rfl)
  refine ⟨left, right, ⟨e.pointer left, p.leftCol.colName, e.pointer right, p.rightCol.colName⟩, hleft, hright, ?_,
    rfl, rfl, ⟨QueryDatabase.exists_column htl hcoll, QueryDatabase.exists_column htr hcolr⟩, ?_⟩
  . rw [Engine.joinPredicate, hleft, hright]
    rfl
  . intro ρ
    have hcelll : e.cell p.leftCol ρ = tl.cell p.leftCol.colName (ρ (e.pointer left)) := by
      simp only [Engine.cell, hleft, htl, Option.bind_eq_bind, Option.bind_some]
    have hcellr : e.cell p.rightCol ρ = tr.cell p.rightCol.colName (ρ (e.pointer right)) := by
      simp only [Engine.cell, hright, htr, Option.bind_eq_bind, Option.bind_some]
    rw [Engine.Agrees, hcelll, hcellr, Tables.Agrees]
    apply exists_congr
    intro v
    rw [QueryDatabase.value_eq_some_iff htl hcoll, QueryDatabase.value_eq_some_iff htr hcolr]

/--
Every table on the right side of a join predicate is the right table of no other one, and it is the tables on the right
sides that have trees unless there is only one of them.
-/
structure Prepared (s : SelectResolver) : Prop where
  lookup_iff : ∀ name p, s.joinPredicates.lookup name = some p ↔ p ∈ s.predicates ∧ p.rightTable = some name
  trees : ∀ name, (s.treeOf name).isSome → (s.joinPredicates.lookup name).isSome ∨ s.joinPredicates.keys.length ≤ 1

theorem filtered_of_hashTable_none (hfits : e.Fits s) (ht : e.table name = some t) {lt : LazyTable}
    (htable : lt.table = e.pointer name) (hfresh : lt.Fresh e.db.tables) (hhash : lt.hashTable = none)
    (hpasses : ∀ r < t.chunkLengths.sum, Passes lt.filter r ↔ t.Selects ((s.treeOf name).map rootOf) r)
    : e.Filtered s name lt where
  table_eq := htable
  fresh := hfresh
  passes t' ht' := by
    cases ht.symm.trans ht'
    exact hpasses
  finds p hp hright p' hp' := by
    obtain ⟨left, right, p₁, hof⟩ := hfits.exists_joinOf hp
    cases hof.joinPredicate_eq.symm.trans hp'
    cases hof.right_eq.symm.trans hright
    apply findsMatching_of_hasHashTable hfresh _ hof.hasColumns (.inl hhash)
    rw [htable, hof.rightTable_eq]

/-! One operator. -/

def filterTable (e : Engine) (schedules : Schedules) : Operator → Option LazyTable
  | .select name _ output tree => e.select name tree (schedules.select output)
  | .selectBuildHash name _ output tree joinColumn =>
    e.selectBuildHash name tree joinColumn (schedules.selectBuildHash output)
  | .multiwayJoin .. | .filterJoin .. | .hashJoin .. | .hashAggregate .. => none

theorem run_of_filterTable {op : Operator} {lt : LazyTable} (h : e.filterTable schedules op = some lt)
    (results : List OperatorResult)
    : e.run schedules results op = some (results.modify op.output (lt :: ·)) := by
  cases op with
  | select name input output tree =>
    rw [filterTable] at h
    rw [run, h]
    rfl
  | selectBuildHash name input output tree joinColumn =>
    rw [filterTable] at h
    rw [run, h]
    rfl
  | multiwayJoin => cases h
  | filterJoin => cases h
  | hashJoin => cases h
  | hashAggregate => cases h

theorem filterTable_select (hfits : e.Fits s) (ht : e.table name = some t) {tree : PredicateTree}
    (htree : s.treeOf name = some tree) (hwell : t.WellTyped (some (rootOf tree))) {input output : Nat}
    (hscheduled : e.Scheduled schedules (.select name input output tree))
    : ∃ lt, e.filterTable schedules (.select name input output tree) = some lt ∧ e.Filtered s name lt := by
  refine ⟨_, select_eq_some ht hwell (hscheduled t ht), ?_⟩
  apply filtered_of_hashTable_none hfits ht rfl (QueryDatabase.fresh_marked ht _) rfl
  intro r hr
  rw [htree, Option.map_some]
  exact QueryTable.passes_marked _ hr

theorem filterTable_selectBuildHash (hfits : e.Fits s) (hprepared : Prepared s) (ht : e.table name = some t)
    (hwell : t.WellTyped ((s.treeOf name).map rootOf)) {p : Resolver.JoinPredicate}
    (hp : s.joinPredicates.lookup name = some p) {input output : Nat}
    (hscheduled : e.Scheduled schedules (.selectBuildHash name input output (s.treeOf name) p.rightCol))
    : ∃ lt, e.filterTable schedules (.selectBuildHash name input output (s.treeOf name) p.rightCol) = some lt ∧
        e.Filtered s name lt := by
  obtain ⟨hmem, hright⟩ := (hprepared.lookup_iff name p).mp hp
  obtain ⟨name', t', hname', ht', hint⟩ := hfits.columns p hmem _ (.inr rfl)
  have hname : name' = name := by
    rw [Resolver.JoinPredicate.rightTable, hname', Option.some.injEq] at hright
    exact hright
  subst hname
  cases ht.symm.trans ht'
  obtain ⟨state, filter, hstate, hfilter, hfresh, hpasses, hfinds⟩ := @QueryDatabase.selectBuildHash_eq_some e.db
    (e.pointer name') t p.rightCol.colName e.compare (e.searchMetadata name') e.iterate e.compare_pointwise
    e.iterate_perm _ ht hwell hint e.hardwareConcurrency _ (hscheduled t ht)
  refine ⟨⟨e.pointer name', filter, none, none, some state.hashTable⟩, ?_, rfl, hfresh, ?_, ?_⟩
  . simp only [filterTable, selectBuildHash, ht, hstate, hfilter, Option.bind_eq_bind, Option.bind_some,
      Option.pure_def]
  . intro t₁ ht₁
    cases ht.symm.trans ht₁
    exact hpasses
  . intro p₁ hp₁ hright₁ p' hp'
    have hlookup := (hprepared.lookup_iff name' p₁).mpr ⟨hp₁, hright₁⟩
    cases hp.symm.trans hlookup
    obtain ⟨left, tl, hleft, -⟩ := hfits.columns p hmem _ (.inl rfl)
    rw [Engine.joinPredicate, hleft, hname'] at hp'
    cases hp'
    exact hfinds _ rfl rfl

theorem filtered_lazyTable (hfits : e.Fits s) (hkey : some name ∈ s.selectPredicates.keys) {k : Nat}
    (hop : selectOperator s.joinPredicates (s.treeOf name) name k = none)
    : e.Filtered s name (e.lazyTable name) := by
  obtain ⟨t, ht, -⟩ := hfits.stored name hkey
  have htree : s.treeOf name = none := by
    cases htree : s.treeOf name with
    | none => rfl
    | some tree =>
      rw [htree, selectOperator] at hop
      split at hop
      . cases hop
      . split at hop <;> cases hop
  apply filtered_of_hashTable_none hfits ht rfl (QueryDatabase.fresh_all ht) rfl
  intro r hr
  rw [htree]
  constructor
  . intro _
    exact t.selects_none hr
  . intro _
    exact passes_none r

theorem filterTable_selectOperator (hfits : e.Fits s) (hprepared : Prepared s)
    (hkey : some name ∈ s.selectPredicates.keys) {k : Nat} {op : Operator}
    (hop : selectOperator s.joinPredicates (s.treeOf name) name k = some op) (hscheduled : e.Scheduled schedules op)
    : ∃ lt, e.filterTable schedules op = some lt ∧ e.Filtered s name lt := by
  obtain ⟨t, ht, hwell⟩ := hfits.stored name hkey
  have hget : ∀ p, s.joinPredicates.lookup name = some p → s.joinPredicates.get name = p := by
    intro p hp
    rw [Map.get, hp, Option.getD_some]
  unfold selectOperator at hop
  split at hop
  . next hright =>
    obtain ⟨p, hp⟩ := Option.isSome_iff_exists.mp hright.1
    rw [hget p hp] at hop
    cases hop
    exact filterTable_selectBuildHash hfits hprepared ht hwell hp hscheduled
  . cases htree : s.treeOf name with
    | none =>
      rw [htree] at hop
      cases hop
    | some tree =>
      rw [htree] at hop
      dsimp only at hop
      split at hop
      . cases hop
        rw [htree] at hwell
        exact filterTable_select hfits ht htree hwell hscheduled
      . next hright =>
        -- the tree is that of a table on the right side
        have hsome : (s.joinPredicates.lookup name).isSome := by
          rcases hprepared.trees name (by rw [htree]; rfl) with hsome | hle
          . exact hsome
          . by_contra hnone
            exact hright ⟨Option.not_isSome_iff_eq_none.mp hnone ▸ rfl, hle⟩
        obtain ⟨p, hp⟩ := Option.isSome_iff_exists.mp hsome
        rw [hget p hp, ← htree] at hop
        cases hop
        exact filterTable_selectBuildHash hfits hprepared ht hwell hp hscheduled

/-! All operators. -/

theorem nodup_outputs (s : SelectResolver) (tables : List TableName)
    : ((s.selectOperators tables).map Operator.output).Nodup := by
  have hnodup : (tables.zipIdx.map Prod.snd).Nodup := by
    rw [List.zipIdx_map_snd]
    exact List.nodup_range'
  rw [SelectResolver.selectOperators, List.Nodup, List.pairwise_map, List.pairwise_filterMap]
  apply (List.pairwise_map.mp hnodup).imp
  intro entry entry' hne op hop op' hop' heq
  rw [(selectOperator_io hop).1, (selectOperator_io hop').1] at heq
  omega

/--
The results after the operators that filter the tables, in whatever order they are run.
-/
theorem foldlM_run (hfits : e.Fits s) (hprepared : Prepared s) {tables : List TableName}
    (hkeys : ∀ name ∈ tables, some name ∈ s.selectPredicates.keys) {ops : List Operator}
    (hops : ops.Perm (s.selectOperators tables)) (hscheduled : ∀ op ∈ ops, e.Scheduled schedules op)
    {results : List OperatorResult}
    (hresults : ∀ k name, tables[k]? = some name → results[2 * k + 1]?
      = some (if (selectOperator s.joinPredicates (s.treeOf name) name k).isSome then [] else [e.lazyTable name]))
    : ∃ results', ops.foldlM (e.run schedules) results = some results' ∧
        (∀ k name, tables[k]? = some name → ∃ lt, results'[2 * k + 1]? = some [lt] ∧ e.Filtered s name lt) ∧
        ∀ j, 2 * tables.length ≤ j → results'[j]? = results[j]? := by
  have hmem : ∀ op ∈ ops, ∃ k name, tables[k]? = some name ∧
      selectOperator s.joinPredicates (s.treeOf name) name k = some op := by
    intro op hop
    obtain ⟨entry, hentry, hop⟩ := List.mem_filterMap.mp (hops.mem_iff.mp hop)
    exact ⟨entry.2, entry.1, List.mem_zipIdx_iff_getElem?.mp hentry, hop⟩
  have hfilter : ∀ op ∈ ops, ∃ lt, e.filterTable schedules op = some lt := by
    intro op hop
    obtain ⟨k, name, hk, hselect⟩ := hmem op hop
    obtain ⟨lt, hlt, -⟩ := filterTable_selectOperator hfits hprepared (hkeys name (List.mem_of_getElem? hk)) hselect
      (hscheduled op hop)
    exact ⟨lt, hlt⟩
  obtain ⟨results', hrun, -, hwritten, hsame⟩ := @Writes.foldlM_modify _ _ (e.run schedules) Operator.output
    (fun op result => (e.filterTable schedules op).toList ++ result) ops
    (by
      intro op hop results
      obtain ⟨lt, hlt⟩ := hfilter op hop
      rw [run_of_filterTable hlt, hlt]
      rfl)
    ((hops.map _).nodup_iff.mpr (nodup_outputs s tables)) results
  refine ⟨results', hrun, ?_, ?_⟩
  . intro k name hk
    have hkey := hkeys name (List.mem_of_getElem? hk)
    have hresult := hresults k name hk
    cases hselect : selectOperator s.joinPredicates (s.treeOf name) name k with
    | none =>
      refine ⟨_, ?_, filtered_lazyTable hfits hkey hselect⟩
      rw [hsame, hresult, hselect]
      . rfl
      . intro hout
        obtain ⟨op, hop, hout⟩ := List.mem_map.mp hout
        obtain ⟨k', name', hk', hselect'⟩ := hmem op hop
        rw [(selectOperator_io hselect').1] at hout
        have heq : k' = k := by omega
        subst heq
        cases hk.symm.trans hk'
        rw [hselect] at hselect'
        cases hselect'
    | some op =>
      have hop : op ∈ ops := by
        rw [hops.mem_iff]
        exact List.mem_filterMap.mpr ⟨(name, k), List.mem_zipIdx_iff_getElem?.mpr hk, hselect⟩
      obtain ⟨lt, hlt, hfiltered⟩ := filterTable_selectOperator hfits hprepared hkey hselect (hscheduled op hop)
      refine ⟨lt, ?_, hfiltered⟩
      have := hwritten op hop
      rw [(selectOperator_io hselect).1, hresult, hselect, hlt] at this
      exact this
  . intro j hj
    apply hsame
    intro hout
    obtain ⟨op, hop, hout⟩ := List.mem_map.mp hout
    obtain ⟨k, name, hk, hselect⟩ := hmem op hop
    rw [(selectOperator_io hselect).1] at hout
    have := (List.getElem?_eq_some_iff.mp hk).1
    omega

end Engine

end Hustle.Execution
