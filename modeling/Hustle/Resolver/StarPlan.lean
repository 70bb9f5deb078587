import Hustle.Resolver.FilteredTables
import Hustle.Resolver.PlannedJoins

/-!
This module contains when a plan for a star of joins enforces the join predicates of its query.
-/

namespace Hustle.Resolver

open JoinPredicate

/--
The predicates that are handed to the operator for a star of joins.
-/
def Operator.starPredicates : Operator → Option (List JoinPredicate)
  | .multiwayJoin _ _ predicates | .filterJoin _ _ predicates => some predicates
  | .select .. | .selectBuildHash .. | .hashJoin .. | .hashAggregate .. => none

namespace SelectResolver

/--
The plan has one join operator that is handed the join predicates of the query, which have the same left
table, and every table with a hash table has been hashed on the column it is joined on.
-/
structure StarEnforced (s : SelectResolver) (plan : ExecutionPlan) : Prop where
  predicates : ∃ ps, plan.operators.filterMap Operator.starPredicates = [ps] ∧ ps.Perm s.predicates
  center : ∃ center, ∀ ps ∈ plan.operators.filterMap Operator.starPredicates, ∀ p ∈ ps,
    p.leftTable = some center
  hashed : ∀ table input output tree col,
    .selectBuildHash table input output tree col ∈ plan.operators →
      ∃ p ∈ s.predicates, p.rightTable = some table ∧ p.rightCol = col

end SelectResolver

/--
One table is the larger one of all equalities, no table is the smaller one of two of them, and if there
is more than one equality then only tables that are the smaller one are compared with constants.
-/
structure Sqlite3Select.StarSafe (catalog : Catalog) (q : Sqlite3Select) : Prop where
  center : ∃ center, ∀ e ∈ q.pWhere.equalities, larger catalog e = center
  nodup : (q.pWhere.equalities.map (smaller catalog)).Nodup
  filtered : q.pWhere.equalities.length = 1 ∨
    ∀ t ∈ q.pWhere.filteredTables, t ∈ q.pWhere.equalities.map (smaller catalog)

section

variable {ps : List JoinPredicate}

/--
The predicates that are kept by their right table.
-/
def keptByRight (hash : HashOrder TableName) (ps : List JoinPredicate) : List JoinPredicate :=
  (hash.order (ps.foldl SelectResolver.addRight ∅).keys).filterMap
    (ps.foldl SelectResolver.addRight ∅).lookup

theorem map_rightTable_keptByRight (hash : HashOrder TableName) (ps : List JoinPredicate)
    : (keptByRight hash ps).map rightTable
        =
      (hash.order (ps.foldl SelectResolver.addRight ∅).keys).map some := by
  unfold keptByRight
  rw [List.map_filterMap, ← List.filterMap_eq_map]
  apply List.filterMap_congr
  intro t ht
  have hmem := (hash.perm _).mem_iff.mp ht
  rw [← AList.mem_keys, ← AList.lookup_isSome] at hmem
  obtain ⟨p, hp⟩ := Option.isSome_iff_exists.mp hmem
  rw [hp]
  exact congrArg some (SelectResolver.lookup_foldl_addRight hp).2

theorem nodup_map_rightTable_keptByRight (hash : HashOrder TableName) (ps : List JoinPredicate)
    : ((keptByRight hash ps).map rightTable).Nodup := by
  rw [map_rightTable_keptByRight]
  apply List.Nodup.map (Option.some_injective _)
  exact (hash.perm _).nodup_iff.mpr (AList.keys_nodup _)

theorem mem_of_mem_keptByRight {hash : HashOrder TableName} {p : JoinPredicate}
    (h : p ∈ keptByRight hash ps)
    : p ∈ ps := by
  obtain ⟨t, -, hp⟩ := List.mem_filterMap.mp h
  exact (SelectResolver.lookup_foldl_addRight hp).1

theorem keptByRight_perm_iff (hash : HashOrder TableName) (hsome : ∀ p ∈ ps, p.rightTable.isSome)
    : (keptByRight hash ps).Perm ps ↔ (ps.map rightTable).Nodup := by
  have hnodup := nodup_map_rightTable_keptByRight hash ps
  constructor
  . intro hperm
    exact (hperm.map rightTable).nodup_iff.mp hnodup
  . intro hps
    rw [List.perm_ext_iff_of_nodup (List.Nodup.of_map _ hnodup) (List.Nodup.of_map _ hps)]
    intro p
    refine ⟨mem_of_mem_keptByRight, ?_⟩
    intro hp
    obtain ⟨t, ht⟩ := Option.isSome_iff_exists.mp (hsome p hp)
    have hkey := (SelectResolver.mem_keys_foldl_addRight ps t).mpr ⟨p, hp, ht⟩
    have hlookup := hkey
    rw [← AList.mem_keys, ← AList.lookup_isSome] at hlookup
    obtain ⟨p', hp'⟩ := Option.isSome_iff_exists.mp hlookup
    obtain ⟨hmem', hright'⟩ := SelectResolver.lookup_foldl_addRight hp'
    have heq : p' = p := List.inj_on_of_nodup_map hps hmem' hp (hright'.trans ht.symm)
    rw [heq] at hp'
    exact List.mem_filterMap.mpr ⟨t, (hash.perm _).mem_iff.mpr hkey, hp'⟩

end

namespace SelectResolver

variable {catalog : Catalog} {q : Sqlite3Select} {s : SelectResolver}
  {hash hash₂ : HashOrder TableName} {hash' : HashOrder (Option TableName)} {plan : ExecutionPlan}

theorem starPredicates_selectOperators (s : SelectResolver) (tables : List TableName)
    : (s.selectOperators tables).filterMap Operator.starPredicates = [] := by
  rw [List.filterMap_eq_nil_iff]
  intro op hop
  obtain ⟨entry, -, hentry⟩ := List.mem_filterMap.mp hop
  unfold selectOperator at hentry
  split at hentry
  . rw [← Option.some.inj hentry]
    rfl
  . split at hentry
    . simp at hentry
    . split at hentry
      . rw [← Option.some.inj hentry]
        rfl
      . rw [← Option.some.inj hentry]
        rfl

theorem starPredicates_buildJoin (map : Map TableName JoinPredicate) (isPredicateAvail : Bool)
    (selectResult : List ResultPtr) (output : ResultPtr)
    : (buildJoin hash map isPredicateAvail selectResult output).starPredicates
        =
      some ((hash.order map.keys).filterMap map.lookup) := by
  unfold buildJoin
  dsimp only
  split <;> rfl

theorem mem_selectOperators {tables : List TableName} {op : Operator}
    : op ∈ s.selectOperators tables
        ↔
      ∃ table k, tables[k]? = some table ∧
        selectOperator s.joinPredicates (s.selectPredicates.get (some table)) table k = some op := by
  unfold selectOperators
  simp [List.mem_filterMap, List.mem_zipIdx_iff_getElem?]

theorem Accepted.starPlan_operators (hs : Accepted catalog q s)
    (h : createPlan hash hash' catalog s = .ok (some plan)) (hq : q.JoinsFromTables)
    (hstar : s.joinType = .star)
    : ∃ tables,
        hash'.order s.selectPredicates.keys = tables.map some ∧
        plan.operators.filterMap Operator.starPredicates
          = [keptByRight hash (joinsOf catalog q.pWhere)] ∧
        ∀ table input output tree col,
          .selectBuildHash table input output tree col ∈ plan.operators
            ↔ .selectBuildHash table input output tree col ∈ s.selectOperators tables := by
  obtain ⟨tables, avail, results, aggOp, hnames, hagg, hoperators⟩ := hs.createPlan_star h hq hstar
  rw [hoperators]
  refine ⟨tables, hnames, ?_, ?_⟩
  . have haggPreds : (aggOp.map Prod.fst).toList.filterMap Operator.starPredicates = [] := by
      rcases buildAggregate_eq hagg with ⟨-, rfl⟩ | ⟨aggRef, -, rfl⟩
      . rfl
      . rfl
    simp only [List.filterMap_append, haggPreds, starPredicates_selectOperators, List.filterMap_cons,
      starPredicates_buildJoin, List.filterMap_nil, List.nil_append, List.append_nil]
    rw [hs.joinPredicates_eq]
    rfl
  . intro table input output tree col
    have hjoin : ∀ selectResult out, Operator.selectBuildHash table input output tree col ≠
        buildJoin hash s.joinPredicates avail selectResult out := by
      intro selectResult out
      unfold buildJoin
      dsimp only
      split <;> simp
    rcases buildAggregate_eq hagg with ⟨-, rfl⟩ | ⟨aggRef, -, rfl⟩
    . simp [hjoin]
    . simp [hjoin]

theorem selectOperator_joined {map : Map TableName JoinPredicate} {tree tree' : Option PredicateTree}
    {table table' : TableName} {k input output : Nat} {col : ColumnReference} {p : JoinPredicate}
    (hlookup : map.lookup table = some p)
    (h : selectOperator map tree table k = some (.selectBuildHash table' input output tree' col))
    : table' = table ∧ col = p.rightCol := by
  have hget : map.get table = p := by
    unfold Map.get
    rw [hlookup]
    rfl
  unfold selectOperator at h
  rw [hlookup, hget] at h
  split at h
  . cases h
    exact ⟨rfl, rfl⟩
  . split at h
    . simp at h
    . simp only [Option.isNone_some, Bool.false_eq_true, false_and, ↓reduceIte, Option.some.injEq,
        Operator.selectBuildHash.injEq] at h
      exact ⟨h.1.symm, h.2.2.2.2.symm⟩

/--
A table without a join predicate gets a hash table if it has a predicate tree and there are several
tables that have a join predicate. Its column is made up.
-/
theorem selectOperator_unjoined {map : Map TableName JoinPredicate} {tree tree' : Option PredicateTree}
    {table table' : TableName} {k input output : Nat} {col : ColumnReference}
    (hlookup : map.lookup table = none)
    (h : selectOperator map tree table k = some (.selectBuildHash table' input output tree' col))
    : tree.isSome ∧ 1 < map.keys.length := by
  unfold selectOperator at h
  rw [hlookup] at h
  simp only [Option.isSome_none, Bool.false_eq_true, false_and, ↓reduceIte, Option.isNone_none,
    true_and] at h
  split at h
  . simp at h
  . split at h
    . simp at h
    . next hlen => exact ⟨rfl, by omega⟩

theorem selectOperator_madeUp {map : Map TableName JoinPredicate} (tree : PredicateTree)
    {table : TableName} (k : Nat) (hlookup : map.lookup table = none) (hlen : 1 < map.keys.length)
    : selectOperator map (some tree) table k
        =
      some (.selectBuildHash table (2 * k) (2 * k + 1) (some tree) ⟨none, ""⟩) := by
  have hget : map.get table = default := by
    unfold Map.get
    rw [hlookup]
    rfl
  have hlen' : ¬map.keys.length ≤ 1 := by omega
  unfold selectOperator
  rw [hlookup, hget]
  simp only [Option.isSome_none, Bool.false_eq_true, false_and, ↓reduceIte, hlen', and_false]
  rfl

theorem HasTree.mem_keys {t : TableName} (h : s.HasTree t)
    : some t ∈ s.selectPredicates.keys := by
  unfold HasTree Map.get at h
  rw [← AList.mem_keys, ← AList.lookup_isSome]
  cases hlookup : s.selectPredicates.lookup (some t) with
  | none =>
    rw [hlookup] at h
    cases h
  | some tree => rfl

theorem Accepted.hashed_iff (hs : Accepted catalog q s) {tables : List TableName}
    (hnames : hash'.order s.selectPredicates.keys = tables.map some)
    : (∀ table input output tree col,
        .selectBuildHash table input output tree col ∈ s.selectOperators tables →
          ∃ p ∈ joinsOf catalog q.pWhere, p.rightTable = some table ∧ p.rightCol = col)
        ↔
      s.joinPredicates.keys.length ≤ 1 ∨ ∀ t, s.HasTree t → t ∈ s.joinPredicates.keys := by
  have hlookup : ∀ {t p}, s.joinPredicates.lookup t = some p →
      p ∈ joinsOf catalog q.pWhere ∧ p.rightTable = some t := by
    intro t p hp
    rw [hs.joinPredicates_eq] at hp
    exact lookup_foldl_addRight hp
  constructor
  . intro hashed
    by_contra hcon
    rw [not_or] at hcon
    obtain ⟨hlen, hcon⟩ := hcon
    obtain ⟨t, hcon⟩ := not_forall.mp hcon
    obtain ⟨htree, hkey⟩ := Classical.not_imp.mp hcon
    obtain ⟨tree, htree'⟩ := Option.isSome_iff_exists.mp htree
    rw [← AList.mem_keys, ← AList.lookup_eq_none] at hkey
    have hmem := (hash'.perm _).mem_iff.mpr htree.mem_keys
    rw [hnames, List.mem_map_of_injective (Option.some_injective _)] at hmem
    obtain ⟨k, hk⟩ := List.mem_iff_getElem?.mp hmem
    have hop := selectOperator_madeUp tree k hkey (by omega)
    rw [← htree'] at hop
    obtain ⟨p, hp, hright, hcol⟩ := hashed _ _ _ _ _ (mem_selectOperators.mpr ⟨t, k, hk, hop⟩)
    unfold rightTable at hright
    rw [hcol] at hright
    cases hright
  . intro hsafe table input output tree col hmem
    obtain ⟨table', k, hk, hop⟩ := mem_selectOperators.mp hmem
    cases hlook : s.joinPredicates.lookup table' with
    | some p =>
      obtain ⟨rfl, rfl⟩ := selectOperator_joined hlook hop
      obtain ⟨hp, hright⟩ := hlookup hlook
      exact ⟨p, hp, hright, rfl⟩
    | none =>
      obtain ⟨htree, hlen⟩ := selectOperator_unjoined hlook hop
      rcases hsafe with hle | hsafe
      . omega
      . have hkey := hsafe table' htree
        rw [← AList.mem_keys, ← AList.lookup_isSome, hlook] at hkey
        cases hkey

section

variable (hknown : q.TablesIn catalog) (hq : q.JoinsFromTables)

include hknown hq

theorem center_iff (center : TableName)
    : (∀ p ∈ joinsOf catalog q.pWhere, p.leftTable = some center)
        ↔
      ∀ e ∈ q.pWhere.equalities, larger catalog e = center := by
  constructor
  . intro hp e he
    have hleft := hp _ (List.mem_map_of_mem he)
    rw [(tables_of_mem hknown hq he).1] at hleft
    exact Option.some.inj hleft
  . intro he p hp
    obtain ⟨e, hmem, rfl⟩ := List.mem_map.mp hp
    rw [(tables_of_mem hknown hq hmem).1, he e hmem]

theorem nodup_rightTable_iff
    : ((joinsOf catalog q.pWhere).map rightTable).Nodup
        ↔
      (q.pWhere.equalities.map (smaller catalog)).Nodup := by
  rw [map_rightTable_joinsOf hknown hq, List.nodup_map_iff (Option.some_injective _)]

theorem isSome_rightTable : ∀ p ∈ joinsOf catalog q.pWhere, p.rightTable.isSome := by
  intro p hp
  obtain ⟨e, he, rfl⟩ := List.mem_map.mp hp
  rw [(tables_of_mem hknown hq he).2]
  rfl

theorem Accepted.mem_keys_joinPredicates (hs : Accepted catalog q s) (t : TableName)
    : t ∈ s.joinPredicates.keys ↔ t ∈ q.pWhere.equalities.map (smaller catalog) := by
  rw [hs.joinPredicates_eq, mem_keys_foldl_addRight, ← List.mem_map, map_rightTable_joinsOf hknown hq,
    List.mem_map_of_injective (Option.some_injective _)]

theorem Accepted.length_keys_joinPredicates (hs : Accepted catalog q s)
    (hnodup : (q.pWhere.equalities.map (smaller catalog)).Nodup)
    : s.joinPredicates.keys.length ≤ 1 ↔ q.pWhere.equalities.length = 1 := by
  have hperm := (List.perm_ext_iff_of_nodup (AList.keys_nodup _) hnodup).mpr
    (hs.mem_keys_joinPredicates hknown hq)
  have hne : q.pWhere.equalities ≠ [] := by
    intro hnil
    apply (hs.classified hknown hq).1
    unfold joinsOf
    rw [hnil]
    rfl
  have hpos := List.length_pos_of_ne_nil hne
  rw [hperm.length_eq, List.length_map]
  omega

end

/--
A plan for a star enforces the join predicates if and only if the sizes of the tables agree with the
shape of the query.
-/
theorem createPlan_starEnforced (hq : q.JoinsFromTables)
    (hresolve : resolveSelectTree catalog hash q new = .ok (some s)) (hstar : s.joinType = .star)
    (hplan : createPlan hash₂ hash' catalog s = .ok (some plan))
    : s.StarEnforced plan ↔ q.StarSafe catalog := by
  have hs := resolveSelectTree_accepted hresolve
  have hknown := hs.tablesIn hplan
  obtain ⟨tables, hnames, hpreds, hops⟩ := hs.starPlan_operators hplan hq hstar
  have hjoins : s.predicates = joinsOf catalog q.pWhere := by
    rcases (hs.classified hknown hq).2 with ⟨-, heq⟩ | ⟨hlinear, -⟩
    . exact heq
    . rw [hstar] at hlinear
      cases hlinear
  have hperm := keptByRight_perm_iff hash₂ (isSome_rightTable hknown hq)
  rw [nodup_rightTable_iff hknown hq] at hperm
  have hhashed := hs.hashed_iff hnames
  simp only [hs.mem_keys_joinPredicates hknown hq, resolveSelectTree_hasTree hresolve] at hhashed
  constructor
  . rintro ⟨⟨ps, hps, hpermOf⟩, ⟨center, hcenter⟩, hashed⟩
    rw [hpreds] at hps hcenter
    cases hps
    rw [hjoins] at hpermOf hashed
    have hnodup := hperm.mp hpermOf
    refine ⟨⟨center, (center_iff hknown hq center).mp ?_⟩, hnodup, ?_⟩
    . intro p hp
      exact hcenter _ List.mem_cons_self p (hpermOf.mem_iff.mpr hp)
    . rw [← hs.length_keys_joinPredicates hknown hq hnodup]
      apply hhashed.mp
      intro table input output tree col hmem
      exact hashed table input output tree col ((hops _ _ _ _ _).mpr hmem)
  . rintro ⟨⟨center, hcenter⟩, hnodup, hfiltered⟩
    rw [← hs.length_keys_joinPredicates hknown hq hnodup] at hfiltered
    refine ⟨⟨_, hpreds, hjoins ▸ hperm.mpr hnodup⟩, ⟨center, ?_⟩, ?_⟩
    . rw [hpreds]
      intro ps hps p hp
      rw [List.mem_singleton.mp hps] at hp
      exact (center_iff hknown hq center).mpr hcenter p (mem_of_mem_keptByRight hp)
    . intro table input output tree col hmem
      rw [hjoins]
      exact hhashed.mpr hfiltered table input output tree col ((hops _ _ _ _ _).mp hmem)

section

def sales : TableName := ⟨"sales", by decide⟩

def customer : TableName := ⟨"customer", by decide⟩

def product : TableName := ⟨"product", by decide⟩

def salesQuery : Sqlite3Select :=
  .ofWhere ⟨0, sales, 1, "amount"⟩ [sales, customer, product]
    (.and
      (.compare .equal (.column ⟨0, sales, 2, "customer_id"⟩) (.column ⟨1, customer, 0, "id"⟩))
      (.compare .equal (.column ⟨0, sales, 3, "product_id"⟩) (.column ⟨2, product, 0, "id"⟩)))

def salesCatalog (numSales : Int) : Catalog :=
  AList.insert sales numSales (AList.insert customer 2 (AList.insert product 5 ∅))

theorem createPlan_starEnforced_salesQuery
    : ∃ s plan,
        resolveSelectTree (salesCatalog 100) (.listed _) salesQuery new = .ok (some s) ∧
        createPlan (.listed _) (.listed _) (salesCatalog 100) s = .ok (some plan) ∧
        s.StarEnforced plan := by
  obtain ⟨s, plan, hresolve, hstar, hplan⟩ : ∃ s plan,
      resolveSelectTree (salesCatalog 100) (.listed _) salesQuery new = .ok (some s) ∧
      s.joinType = .star ∧
      createPlan (.listed _) (.listed _) (salesCatalog 100) s = .ok (some plan) :=
    ⟨_, _, rfl, rfl, rfl⟩
  refine ⟨s, plan, hresolve, hplan, ?_⟩
  apply (createPlan_starEnforced (by decide) hresolve hstar hplan).mpr
  refine ⟨⟨sales, by decide⟩, by decide, ?_⟩
  right
  decide

/--
There are fewer sales than products, so the two predicates have different left tables.
-/
theorem not_createPlan_starEnforced
    : ¬∀ (catalog : Catalog) (hash hash₂ : HashOrder TableName) (hash' : HashOrder (Option TableName))
        (q : Sqlite3Select) (s : SelectResolver) (plan : ExecutionPlan),
        q.JoinsFromTables →
        resolveSelectTree catalog hash q new = .ok (some s) →
        s.joinType = .star →
        createPlan hash₂ hash' catalog s = .ok (some plan) →
        s.StarEnforced plan := by
  intro h
  obtain ⟨-, ⟨center, hcenter⟩, -⟩ :=
    h (salesCatalog 3) (.listed _) (.listed _) (.listed _) salesQuery _ _ (by decide) rfl rfl rfl
  have hsales := hcenter [
    ⟨⟨some product, "id"⟩, .equal, ⟨some sales, "product_id"⟩⟩,
    ⟨⟨some sales, "customer_id"⟩, .equal, ⟨some customer, "id"⟩⟩] (by decide)
    ⟨⟨some sales, "customer_id"⟩, .equal, ⟨some customer, "id"⟩⟩ (by decide)
  have hproduct := hcenter [
    ⟨⟨some product, "id"⟩, .equal, ⟨some sales, "product_id"⟩⟩,
    ⟨⟨some sales, "customer_id"⟩, .equal, ⟨some customer, "id"⟩⟩] (by decide)
    ⟨⟨some product, "id"⟩, .equal, ⟨some sales, "product_id"⟩⟩ (by decide)
  rw [← hsales] at hproduct
  revert hproduct
  decide

end

end SelectResolver

end Hustle.Resolver
