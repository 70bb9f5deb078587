import Hustle.Execution.Joined
import Hustle.Execution.Layers
import Hustle.Operators.PairJoin

/-!
This module contains what a plan for the join of two tables computes.
-/

namespace Hustle.Execution

open Operators
open Resolver (AggregateReference Catalog ColumnReference ExecutionPlan HashOrder Operator SelectInv SelectResolver
  SelectState Sqlite3Select TableName buildJoin)
open Resolver.SelectResolver (Accepted addRight joinsOf purchase purchaseCatalog selectInput shop)

namespace Engine

variable {e : Engine} {schedules : Schedules} {s : SelectResolver} {tables : List TableName}
  {lts : TableName → LazyTable}

/-! What `MultiwayJoin` reads. -/

theorem map_selectInput (hnodup : tables.Nodup)
    : (List.range tables.length).map (2 * · + 1) = tables.map (selectInput tables) := by
  apply List.ext_getElem
  . simp
  . intro k hk hk'
    have hlt : k < tables.length := by simpa using hk
    simp [selectInput, hnodup.idxOf_getElem k hlt]

theorem take_selectResult (hnodup : tables.Nodup) {results : List OperatorResult}
    (hresults : ∀ name ∈ tables, results[selectInput tables name]? = some [lts name])
    : ∃ prevResultVec, take results ((List.range tables.length).map (2 * · + 1)) = some prevResultVec ∧
        prevResultVec.flatten = tables.map lts := by
  refine ⟨tables.map fun name => [lts name], ?_, ?_⟩
  . rw [map_selectInput hnodup, take, List.mapM_map]
    exact Run.mapM_eq_some hresults
  . rw [← List.flatMap_def]
    exact List.flatMap_pure_eq_map lts tables

theorem filter_lazyTables (hnodup : tables.Nodup) (htable : ∀ name ∈ tables, (lts name).table = e.pointer name)
    (hinj : ∀ u ∈ tables, ∀ w ∈ tables, e.pointer u = e.pointer w → u = w) {name : TableName} (hname : name ∈ tables)
    : (tables.map lts).filter (fun t => t.table = e.pointer name) = [lts name] := by
  have hfilter : tables.filter ((fun t : LazyTable => decide (t.table = e.pointer name)) ∘ lts)
      = tables.filter fun name' => decide (name' = name) := by
    apply List.filter_congr
    intro name' hname'
    rw [Function.comp_apply, htable name' hname', decide_eq_decide]
    exact ⟨fun h => hinj name' hname' name hname h, fun h => by rw [h]⟩
  rw [List.filter_map, hfilter, List.filter_eq, List.count_eq_one_of_mem hnodup hname]
  rfl

theorem getTable_lazyTables (hnodup : tables.Nodup) (htable : ∀ name ∈ tables, (lts name).table = e.pointer name)
    (hinj : ∀ u ∈ tables, ∀ w ∈ tables, e.pointer u = e.pointer w → u = w) {name : TableName} (hname : name ∈ tables)
    : OperatorResult.getTable (tables.map lts) (e.pointer name) = some (lts name) := by
  rw [OperatorResult.getTable, ← List.head?_filter, filter_lazyTables hnodup htable hinj hname]
  rfl

theorem preparedJoins_pair {p : JoinPredicate} (hnodup : tables.Nodup)
    (htable : ∀ name ∈ tables, (lts name).table = e.pointer name)
    (hinj : ∀ u ∈ tables, ∀ w ∈ tables, e.pointer u = e.pointer w → u = w) {left right : TableName}
    (hleft : left ∈ tables) (hright : right ∈ tables) (hl : p.leftTable = e.pointer left)
    (hr : p.rightTable = e.pointer right) (hne : left ≠ right)
    : MultiwayJoin.preparedJoins (tables.map lts) [p] = some [p] := by
  have hlefts : MultiwayJoin.lefts (tables.map lts) [p] = [lts left] := by
    rw [MultiwayJoin.lefts, List.flatMap_singleton, hl, filter_lazyTables hnodup htable hinj hleft]
  have hrights : MultiwayJoin.rights (tables.map lts) [p] = [lts right] := by
    rw [MultiwayJoin.rights, List.flatMap_singleton, ← filter_lazyTables hnodup htable hinj hright]
    apply List.filter_congr
    intro t _
    rw [decide_eq_decide, hl, hr, and_iff_right_iff_imp]
    intro heq hl'
    exact hne (hinj left hleft right hright (hl'.symm.trans heq))
  simp [MultiwayJoin.preparedJoins, MultiwayJoin.preparedJoin, hlefts, hrights, htable left hleft,
    htable right hright, ← hl, ← hr]

theorem layered_one {aggOp : Option (Operator × Resolver.ResultPtr)} {join : Operator} {selects : List Operator}
    {result : Option Nat} {cols : List ColumnReference} (hagg : ∀ agg ∈ aggOp, agg.1.isAggregate = true)
    (hjoin : join.isAggregate = false) (hselects : ∀ op ∈ selects, op.isAggregate = false)
    : ExecutionPlan.Layered
        {
          operators := (aggOp.map Prod.fst).toList ++ [join] ++ selects
          links :=
            let join := (aggOp.map Prod.fst).toList.length
            (List.range' (join + 1) selects.length).map (·, join) ++ (aggOp.map fun _ => (join, 0)).toList
          operatorResult := result
          resultColumns := cols
        } (aggOp.map Prod.fst).toList [join] selects where
  operators_eq := rfl
  length_aggs_le := by cases aggOp <;> simp
  joins_ne := List.cons_ne_nil _ _
  isAggregate_aggs op hop := by
    rw [Option.mem_toList, Option.map_eq_some_iff] at hop
    obtain ⟨agg, hsome, rfl⟩ := hop
    exact hagg agg hsome
  isAggregate_joins op hop := by
    rw [List.mem_singleton.mp hop]
    exact hjoin
  isAggregate_selects := hselects
  select_links i hi := by
    simp only [List.length_singleton, List.mem_append, List.mem_map, List.mem_range'_1, Prod.mk.injEq, and_true]
    left
    exact ⟨_, by omega, rfl⟩
  join_links i hi := by simp at hi
  aggregate_link hne := by
    cases aggOp with
    | none => exact absurd rfl hne
    | some agg => simp

section

variable {catalog : Catalog} {q : Sqlite3Select} {hash : HashOrder TableName} {hash' : HashOrder (Option TableName)}
  {plan : ExecutionPlan} {order : List Nat} {p : Resolver.JoinPredicate}

theorem joinPredicates_pair (hs : Accepted catalog q s) (hstar : s.predicates = joinsOf catalog q.pWhere)
    (hone : s.predicates = [p]) {right : TableName} (hright : p.rightTable = some right)
    : s.joinPredicates.keys = [right] ∧ s.joinPredicates.lookup right = some p := by
  rw [hs.joinPredicates_eq, ← hstar, hone, List.foldl_cons, List.foldl_nil, addRight, hright]
  exact ⟨rfl, AList.lookup_insert ∅⟩

theorem buildJoin_pair (isPredicateAvail : Bool) (selectResult : List Nat) (output : Nat) {right : TableName}
    (hkeys : s.joinPredicates.keys = [right]) (hlookup : s.joinPredicates.lookup right = some p)
    : buildJoin hash s.joinPredicates isPredicateAvail selectResult output = .multiwayJoin selectResult output [p] := by
  have horder : hash.order s.joinPredicates.keys = [right] := by
    have := hash.perm s.joinPredicates.keys
    rw [hkeys] at this ⊢
    exact List.perm_singleton.mp this
  simp [buildJoin, horder, hlookup]

/--
What the join leaves, from what the selects leave.
-/
theorem run_pair (hfits : e.Fits s) (hone : s.predicates = [p]) {left right : TableName} {p' : JoinPredicate}
    (hof : e.JoinOf p left right p') (hne : left ≠ right) (hnodup : tables.Nodup)
    (hkeys : ∀ name ∈ tables, some name ∈ s.selectPredicates.keys) (hleft : left ∈ tables) (hright : right ∈ tables)
    {results : List OperatorResult} {output : Nat} (hout : results[output]? = some [])
    (hfiltered : ∀ name ∈ tables, ∃ lt, results[selectInput tables name]? = some [lt] ∧ e.Filtered s name lt)
    : ∃ results' out tuples,
        e.run schedules results (.multiwayJoin ((List.range tables.length).map (2 * · + 1)) output [p]) = some results' ∧
        results'[output]? = some out ∧
        e.Computes s out tuples := by
  have : Nonempty LazyTable := ⟨e.lazyTable left⟩
  choose! lts hlts using hfiltered
  have htable : ∀ name ∈ tables, (lts name).table = e.pointer name := fun name hname => (hlts name hname).2.table_eq
  have hinj : ∀ u ∈ tables, ∀ w ∈ tables, e.pointer u = e.pointer w → u = w :=
    fun u hu w hw => hfits.pointer_inj u w (hkeys u hu) (hkeys w hw)
  obtain ⟨prevResultVec, htake, hflat⟩ := take_selectResult hnodup fun name hname => (hlts name hname).1
  have hgetl := getTable_lazyTables hnodup htable hinj hleft
  have hgetr := getTable_lazyTables hnodup htable hinj hright
  rw [← hof.leftTable_eq] at hgetl
  rw [← hof.rightTable_eq] at hgetr
  have hmem : p ∈ s.predicates := by
    rw [hone]
    exact List.mem_singleton_self p
  have hnep : p'.leftTable ≠ p'.rightTable := by
    rw [hof.leftTable_eq, hof.rightTable_eq]
    exact fun heq => hne (hinj left hleft right hright heq)
  obtain ⟨out, tuples, hexecute, hhasJoined, henumerates⟩ :=
    @MultiwayJoin.execute_enumerates_pairs e.db.tables e.size p' _ _ _ hgetl hgetr
    (hlts left hleft).2.fresh (hlts right hright).2.fresh hof.hasColumns hnep
    ((hlts right hright).2.finds p hmem hof.right_eq p' hof.joinPredicate_eq)
  have hjoined : s.joinedTables = [left, right] := by
    simp [SelectResolver.joinedTables, hone, hof.left_eq, hof.right_eq]
  refine ⟨results.modify output (· ++ out), out, tuples, ?_, ?_, ?_⟩
  . simp only [run, multiwayJoin, htake, hflat, List.mapM_cons, List.mapM_nil, hof.joinPredicate_eq,
      preparedJoins_pair hnodup htable hinj hleft hright hof.leftTable_eq hof.rightTable_eq hne, hexecute,
      Option.bind_eq_bind, Option.bind_some, Option.pure_def]
  . rw [List.getElem?_modify_eq, hout]
    rfl
  . have hjoins := @joins_iff e s
      (by
        intro name hname
        rw [hjoined, List.mem_pair] at hname
        rcases hname with rfl | rfl
        . exact (hfits.stored _ (hkeys _ hleft)).imp fun t ht => ht.1
        . exact (hfits.stored _ (hkeys _ hright)).imp fun t ht => ht.1)
      lts
      (by
        intro name hname
        rw [hjoined, List.mem_pair] at hname
        rcases hname with rfl | rfl
        . exact (hlts _ hleft).2
        . exact (hlts _ hright).2)
      (fun _ => p')
      (by
        intro p₁ hp₁
        rw [hone, List.mem_singleton] at hp₁
        exact ⟨left, right, hp₁ ▸ hof⟩)
    constructor
    . rw [hjoined, List.map_cons, List.map_singleton, ← hof.leftTable_eq, ← hof.rightTable_eq]
      exact hhasJoined
    . rw [hjoined, List.map_cons, List.map_singleton, ← hof.leftTable_eq, ← hof.rightTable_eq]
      apply henumerates.congr
      intro ρ
      rw [← hjoins, hjoined, hone]
      simp [hof.leftTable_eq, hof.rightTable_eq]

/--
What the join of a plan for two tables leaves.
-/
theorem pairPlan_computes (hresolve : SelectResolver.resolveSelectTree catalog hash q .new = .ok (some s))
    (hq : q.JoinsFromTables) (hstar : s.joinType = .star) (hone : s.predicates = [p])
    (hne : p.leftTable ≠ p.rightTable) (hplan : Resolver.createPlan hash hash' catalog s = .ok (some plan))
    (hfits : e.Fits s) (hscheduled : ∀ op ∈ plan.operators, e.Scheduled schedules op) (horder : plan.IsOrder order)
    : ∃ start results joined out tuples, e.start hash hash' catalog s = .ok start ∧
        e.runPlan schedules plan order start = some results ∧
        plan.joinResult = some joined ∧
        results[joined]? = some out ∧
        e.Computes s out tuples := by
  have hs := Resolver.SelectResolver.resolveSelectTree_accepted hresolve
  obtain ⟨st, joins, joinResultOut, results, aggOp, hselect, hjoins, haggOp, hassemble⟩ := Resolver.createPlan_eq hplan
  obtain ⟨tables, hnames, hknown, hinv⟩ := hs.buildSelect_tables hselect
  have hpredicates : s.predicates = joinsOf catalog q.pWhere := by
    rcases (hs.classified hknown hq).2 with ⟨-, heq⟩ | ⟨hlinear, -⟩
    . exact heq
    . rw [hstar] at hlinear
      cases hlinear
  obtain ⟨left, right, p', hof⟩ := hfits.exists_joinOf (p := p) (by rw [hone]; exact List.mem_singleton_self p)
  obtain ⟨hkeys, hlookup⟩ := joinPredicates_pair hs hpredicates hone hof.right_eq
  have hbuildJoins := hs.buildJoins_star hash hknown hq hinv hstar
  rw [buildJoin_pair _ _ _ hkeys hlookup] at hbuildJoins
  cases hjoins.symm.trans hbuildJoins
  rw [Resolver.assemblePlan_one] at hassemble
  cases hassemble
  -- the tables
  have hnodup : tables.Nodup := by
    apply List.Nodup.of_map some
    rw [← hnames]
    exact (hash'.perm _).nodup_iff.mpr (AList.keys_nodup _)
  have hkeysOf : ∀ name ∈ tables, some name ∈ s.selectPredicates.keys := by
    intro name hname
    rw [← (hash'.perm _).mem_iff, hnames]
    exact List.mem_map_of_mem hname
  have hmem : ∀ name, Multigraph.Incident Resolver.JoinPredicate.leftTable Resolver.JoinPredicate.rightTable p
      (some name) → name ∈ tables := by
    intro name hname
    have hp : p ∈ joinsOf catalog q.pWhere := by
      rw [← hpredicates, hone]
      exact List.mem_singleton_self p
    obtain ⟨equality, hequality, rfl⟩ := List.mem_map.mp hp
    exact hs.mem_tables hnames name
      (Resolver.SelectResolver.mem_fromTables_of_incident hknown hq hequality hname)
  have hprepared := @prepared_of_perm s catalog q hs (by rw [hpredicates])
    (by
      intro p₁ hp₁ p₂ hp₂ _ _
      rw [hone, List.mem_singleton] at hp₁ hp₂
      rw [hp₁, hp₂])
    (fun name _ => .inr (by rw [hkeys]; exact Nat.le_refl 1))
  -- the plan
  have haggregate : ∀ agg ∈ aggOp, agg.1.isAggregate = true := by
    intro agg hagg
    rcases Resolver.SelectResolver.buildAggregate_eq haggOp with ⟨-, rfl⟩ | ⟨aggRef, -, rfl⟩
    . cases hagg
    . cases hagg
      rfl
  obtain ⟨n, hn, hstart⟩ : ∃ n, 0 < n ∧ e.start hash hash' catalog s
      = .ok (e.lazyTables (st.results ++ List.replicate n [])) := by
    rw [start, hselect]
    dsimp only
    rw [hbuildJoins]
    dsimp only [bind, Except.bind]
    by_cases hagg : s.aggReferences = []
    . rw [if_pos hagg]
      exact ⟨1, Nat.one_pos, rfl⟩
    . rw [if_neg hagg, Resolver.Results.new, List.append_assoc]
      exact ⟨2, Nat.two_pos, rfl⟩
  obtain ⟨ops, hops, hrun⟩ := @runPlan_eq e schedules _ _ _ _ order
    (layered_one haggregate rfl
      (by
        intro op hop
        rw [hinv.selectOperators_eq] at hop
        exact isAggregate_selectOperators hop))
    horder (e.lazyTables (st.results ++ List.replicate n []))
  obtain ⟨results, hselects, hfiltered, hout⟩ := foldlM_selectOperators hfits hprepared hnames hinv hops
    (fun op hop => hscheduled op (List.mem_append_right _ hop)) n
  have hempty := hout 0 hn
  rw [Nat.add_zero, hinv.length_results] at hempty
  obtain ⟨results', out, tuples, hjoinsRun, hresult, hcomputes⟩ :=
    @run_pair e schedules s tables p hfits hone left right p' hof
    (by
      rintro rfl
      exact hne (hof.left_eq.trans hof.right_eq.symm))
    hnodup hkeysOf (hmem left (.inl hof.left_eq)) (hmem right (.inr hof.right_eq)) results (2 * tables.length) hempty
    hfiltered
  refine ⟨_, results', 2 * tables.length, out, tuples, hstart, ?_, ?_, hresult, hcomputes⟩
  . rw [hrun, hselects, Option.bind_some, List.foldlM_cons, hjoinsRun]
    rfl
  . rcases Resolver.SelectResolver.buildAggregate_eq haggOp with ⟨-, rfl⟩ | ⟨aggRef, -, rfl⟩
    . rfl
    . rfl

/--
A plan for the join of two tables computes the join, whatever the order of its operators and of their tasks is. Any of
the tables may have a tree.
-/
theorem pairPlan_enumeratesRows (hresolve : SelectResolver.resolveSelectTree catalog hash q .new = .ok (some s))
    (hq : q.JoinsFromTables) (hstar : s.joinType = .star) (hone : s.predicates = [p])
    (hne : p.leftTable ≠ p.rightTable) (hplan : Resolver.createPlan hash hash' catalog s = .ok (some plan))
    (hfits : e.Fits s) (hscheduled : ∀ op ∈ plan.operators, e.Scheduled schedules op) (horder : plan.IsOrder order)
    : ∃ start results joined out, e.start hash hash' catalog s = .ok start ∧
        e.runPlan schedules plan order start = some results ∧
        plan.joinResult = some joined ∧
        results[joined]? = some out ∧
        out.EnumeratesRows (s.joinedTables.map e.pointer) (e.Joins s) := by
  obtain ⟨start, results, joined, out, tuples, hstart, hrun, hjoined, hout, hcomputes⟩ :=
    pairPlan_computes hresolve hq hstar hone hne hplan hfits hscheduled horder
  exact ⟨start, results, joined, out, hstart, hrun, hjoined, hout, hcomputes.enumeratesRows⟩

end

/--
`SELECT amount FROM purchase, shop WHERE purchase.shop_id = shop.id AND amount > 4`.
-/
def largePurchaseQuery : Sqlite3Select :=
  .ofWhere ⟨0, purchase, 1, "amount"⟩ [purchase, shop]
    (.and (.compare .equal (.column ⟨0, purchase, 2, "shop_id"⟩) (.column ⟨1, shop, 0, "id"⟩))
      (.compare .greater (.column ⟨0, purchase, 1, "amount"⟩) (.integer 4 0)))

def purchaseRows : List (List Storage.Row) :=
  [[[.int64 1, .int64 7, .int64 1], [.int64 2, .int64 3, .int64 2]], [[.int64 3, .int64 9, .int64 1]]]

def shopRows : List (List Storage.Row) :=
  [[[.int64 1, .string [97]], [.int64 2, .string [98]]]]

theorem purchaseFields_ne_nil : ([.int64, .int64, .int64] : List Storage.FieldType) ≠ [] := by
  decide

def purchaseSchema : Storage.Schema :=
  ⟨[.int64, .int64, .int64], purchaseFields_ne_nil⟩

def purchaseJoin : Resolver.JoinPredicate :=
  ⟨⟨some purchase, "shop_id"⟩, .equal, ⟨some shop, "id"⟩⟩

theorem fits_purchases {t₀ t₁ : QueryTable} {tree : Resolver.PredicateTree}
    (hnames₀ : t₀.names = ["id", "amount", "shop_id"]) (hschema₀ : t₀.table.schema = purchaseSchema)
    (hnames₁ : t₁.names = ["id", "city"]) (hschema₁ : t₁.table.schema = Select.stockSchema)
    (hone : s.predicates = [purchaseJoin]) (hkeys : s.selectPredicates.keys = [some purchase, some shop])
    (htree₀ : s.treeOf purchase = some tree) (htree₁ : s.treeOf shop = none)
    (hroot : rootOf tree = .predicate ⟨"amount", .greater, .int64 4⟩)
    : (ofTables [purchase, shop] [t₀, t₁]).Fits s := by
  have htable₀ : (ofTables [purchase, shop] [t₀, t₁]).table purchase = some t₀ := rfl
  have htable₁ : (ofTables [purchase, shop] [t₀, t₁]).table shop = some t₁ := rfl
  constructor
  . intro name hname
    rw [hkeys, List.mem_pair, Option.some.injEq, Option.some.injEq] at hname
    rcases hname with rfl | rfl
    . refine ⟨t₀, htable₀, ?_⟩
      rintro node hnode
      rw [htree₀, Option.map_some, hroot, Option.some.injEq] at hnode
      rw [← hnode, hnames₀, hschema₀]
      exact ⟨by decide, 1, by decide, by decide⟩
    . refine ⟨t₁, htable₁, ?_⟩
      rintro node hnode
      rw [htree₁] at hnode
      cases hnode
  . intro name name' hname hname' heq
    rw [hkeys, List.mem_pair, Option.some.injEq, Option.some.injEq] at hname hname'
    rcases hname with rfl | rfl <;> rcases hname' with rfl | rfl
    . rfl
    . exact absurd (show [purchase, shop].idxOf purchase = [purchase, shop].idxOf shop from heq) (by decide)
    . exact absurd (show [purchase, shop].idxOf shop = [purchase, shop].idxOf purchase from heq) (by decide)
    . rfl
  . intro p hp c hc
    rw [hone, List.mem_singleton] at hp
    subst hp
    rcases hc with rfl | rfl
    . exact ⟨purchase, t₀, rfl, htable₀, 2, by rw [hnames₀]; decide, by rw [hschema₀]; decide⟩
    . exact ⟨shop, t₁, rfl, htable₁, 0, by rw [hnames₁]; decide, by rw [hschema₁]; decide⟩

theorem pairPlan_enumeratesRows_largePurchaseQuery
    : ∃ (e : Engine) (s : SelectResolver) (plan : ExecutionPlan) (start results : List OperatorResult) (joined : Nat)
        (out : OperatorResult),
        e.db.map QueryTable.contents = [purchaseRows, shopRows] ∧
        SelectResolver.resolveSelectTree purchaseCatalog (.listed _) largePurchaseQuery .new = .ok (some s) ∧
        Resolver.createPlan (.listed _) (.listed _) purchaseCatalog s = .ok (some plan) ∧
        e.start (.listed _) (.listed _) purchaseCatalog s = .ok start ∧
        e.runPlan ⟨fun _ => [1, 0], fun _ => []⟩ plan [1, 0] start = some results ∧
        plan.joinResult = some joined ∧
        results[joined]? = some out ∧
        out.EnumeratesRows [0, 1] (e.Joins s) := by
  obtain ⟨t₀, -, hnames₀, hcontents₀, hschema₀, hblocks₀⟩ := @QueryTable.exists_ofBatches purchaseSchema
    ["id", "amount", "shop_id"] purchaseRows (by decide) (by decide) (by decide) (by decide) (by decide) (by decide)
  obtain ⟨t₁, -, hnames₁, hcontents₁, hschema₁, hblocks₁⟩ := @QueryTable.exists_ofBatches Select.stockSchema ["id", "city"]
    shopRows (by decide) (by decide) (by decide) (by decide) (by decide) (by decide)
  obtain ⟨s, plan, tree, hresolve, hplan, hstar, hone, hkeys, htree₀, htree₁, hroot, hjoined, hoperators, horder⟩ :
      ∃ s plan tree,
        SelectResolver.resolveSelectTree purchaseCatalog (.listed _) largePurchaseQuery .new = .ok (some s) ∧
        Resolver.createPlan (.listed _) (.listed _) purchaseCatalog s = .ok (some plan) ∧
        s.joinType = .star ∧
        s.predicates = [purchaseJoin] ∧
        s.selectPredicates.keys = [some purchase, some shop] ∧
        s.treeOf purchase = some tree ∧
        s.treeOf shop = none ∧
        rootOf tree = .predicate ⟨"amount", .greater, .int64 4⟩ ∧
        s.joinedTables = [purchase, shop] ∧
        plan.operators = [.multiwayJoin [1, 3] 4 [purchaseJoin], .select purchase 0 1 tree] ∧
        plan.IsOrder [1, 0] :=
    ⟨_, _, _, rfl, rfl, rfl, rfl, rfl, rfl, rfl, rfl, rfl, rfl, ⟨by decide, by decide⟩⟩
  have hfits := fits_purchases hnames₀ hschema₀ hnames₁ hschema₁ hone hkeys htree₀ htree₁ hroot
  have hscheduled : ∀ op ∈ plan.operators,
      (ofTables [purchase, shop] [t₀, t₁]).Scheduled ⟨fun _ => [1, 0], fun _ => []⟩ op := by
    rw [hoperators, List.forall_mem_cons, List.forall_mem_singleton]
    refine ⟨trivial, ?_⟩
    intro t ht
    cases ht.symm.trans (show _ = some t₀ from rfl)
    rw [hblocks₀]
    show [1, 0].Perm (SelectBuildHash.batches 2 purchaseRows.length).flatten
    decide
  obtain ⟨start, results, joined, out, hstart, hrun, hresult, hout, henumerates⟩ :=
    pairPlan_enumeratesRows hresolve (by decide) hstar hone (by decide) hplan hfits hscheduled horder
  rw [hjoined] at henumerates
  refine ⟨ofTables [purchase, shop] [t₀, t₁], s, plan, start, results, joined, out, ?_, hresolve, hplan,
    hstart, hrun, hresult, hout,
    henumerates⟩
  show [t₀.contents, t₁.contents] = _
  rw [hcontents₀, hcontents₁]

end Engine

end Hustle.Execution
