import Hustle.Resolver.JoinSupport
import Hustle.Resolver.Plan

/-!
This module contains what is left in a resolver by a query that it accepts: which clause of the query
ends up in which of its fields.
-/

namespace Hustle.Resolver

namespace Expr

/--
The equalities of two columns in a `WHERE` clause, in the order in which they are found.
-/
def equalities : Expr → List (Column × Column)
  | .compare .equal (.column l) (.column r) => [(l, r)]
  | .compare .equal _ _ => []
  | .compare _ left right | .and left right | .or left right | .arith _ left right | .other left right =>
    equalities left ++ equalities right
  | .between left _ _ => equalities left
  | .null | .integer _ _ | .string _ | .column _ | .aggColumn _ | .aggFunction _ _ => []

end Expr

namespace SelectResolver

variable {catalog : Catalog} {hash : HashOrder TableName} {s s' : SelectResolver}

def joinsOf (catalog : Catalog) (pWhere : Expr) : List JoinPredicate :=
  pWhere.equalities.map fun e => joinPredicate catalog e.1 e.2

theorem resolveJoinPredExpr_eq (e : Expr) (s : SelectResolver)
    : resolveJoinPredExpr catalog e s = (joinsOf catalog e).foldl addJoinPredicate s := by
  unfold joinsOf
  fun_induction resolveJoinPredExpr catalog e s with
  | case8 s left right hne =>
    rw [Expr.equalities]
    . rfl
    . exact hne
  | _ => simp_all [Expr.equalities, List.foldl_append]

/--
Resolving the predicates on single tables changes the trees of the tables only. Tables that are known
stay known.
-/
structure SameClauses (s s' : SelectResolver) : Prop where
  joinPredicates_eq : s'.joinPredicates = s.joinPredicates
  joinGraph_eq : s'.joinGraph = s.joinGraph
  predicates_eq : s'.predicates = s.predicates
  aggReferences_eq : s'.aggReferences = s.aggReferences
  groupByReferences_eq : s'.groupByReferences = s.groupByReferences
  orderByReferences_eq : s'.orderByReferences = s.orderByReferences
  projectReferences_eq : s'.projectReferences = s.projectReferences
  keys : ∀ k ∈ s.selectPredicates.keys, k ∈ s'.selectPredicates.keys

theorem SameClauses.refl (s : SelectResolver) : SameClauses s s :=
  ⟨rfl, rfl, rfl, rfl, rfl, rfl, rfl, fun _ h => h⟩

theorem SameClauses.trans {s'' : SelectResolver} (h : SameClauses s s') (h' : SameClauses s' s'')
    : SameClauses s s'' :=
  ⟨
    h'.joinPredicates_eq.trans h.joinPredicates_eq,
    h'.joinGraph_eq.trans h.joinGraph_eq,
    h'.predicates_eq.trans h.predicates_eq,
    h'.aggReferences_eq.trans h.aggReferences_eq,
    h'.groupByReferences_eq.trans h.groupByReferences_eq,
    h'.orderByReferences_eq.trans h.orderByReferences_eq,
    h'.projectReferences_eq.trans h.projectReferences_eq,
    fun k hk => h'.keys k (h.keys k hk)
  ⟩

theorem makeTree_sameClauses (s : SelectResolver) (root : Node) (tableId : Option Int)
    (tableName : Option TableName)
    : SameClauses s (s.makeTree root tableId tableName).2 :=
  ⟨rfl, rfl, rfl, rfl, rfl, rfl, rfl, fun _ h => h⟩

theorem setPredicate_sameClauses (s : SelectResolver) (name : Option TableName) (tree : PredicateTree)
    : SameClauses s (s.setPredicate name tree) := by
  refine ⟨rfl, rfl, rfl, rfl, rfl, rfl, rfl, ?_⟩
  intro k hk
  unfold setPredicate
  rw [← AList.mem_keys, AList.mem_insert]
  exact Or.inr (AList.mem_keys.mpr hk)

theorem getPredicate_sameClauses (s : SelectResolver) (name : Option TableName)
    : SameClauses s (s.getPredicate name).2 := by
  refine ⟨rfl, rfl, rfl, rfl, rfl, rfl, rfl, ?_⟩
  intro k hk
  unfold getPredicate Map.touch
  dsimp only
  split
  . exact hk
  . rw [← AList.mem_keys, AList.mem_insert]
    exact Or.inr (AList.mem_keys.mpr hk)

theorem mergePredicate_sameClauses {cur : PredicateTree} {tree : Option PredicateTree}
    (h : s.mergePredicate cur = .ok (tree, s'))
    : SameClauses s s' := by
  have hget := getPredicate_sameClauses s cur.tableName
  unfold mergePredicate at h
  dsimp only at h
  split at h
  . simp only [Except.ok.injEq, Prod.mk.injEq] at h
    rw [← h.2]
    exact hget
  . split at h
    . simp at h
    . simp only [Except.ok.injEq, Prod.mk.injEq] at h
      rw [← h.2]
      exact (hget.trans (makeTree_sameClauses _ _ _ _)).trans (setPredicate_sameClauses _ _ _)

theorem combinePredicates_sameClauses {op : FilterOperator} {l r : Expr}
    {lTree rTree tree : Option PredicateTree}
    (h : s.combinePredicates op l r lTree rTree = .ok (tree, s'))
    : SameClauses s s' := by
  have hsame : ∀ {tree : Option PredicateTree}, (Except.ok (none, s) : Except Failure _) = .ok (tree, s')
      → SameClauses s s' := by
    intro tree h
    simp only [Except.ok.injEq, Prod.mk.injEq] at h
    rw [← h.2]
    exact SameClauses.refl s
  unfold combinePredicates at h
  split at h
  . exact hsame h
  . split at h
    . exact mergePredicate_sameClauses h
    . exact hsame h
  . split at h
    . exact mergePredicate_sameClauses h
    . exact hsame h
  . split at h
    . split at h
      . simp only [Except.ok.injEq, Prod.mk.injEq] at h
        rw [← h.2]
        exact (makeTree_sameClauses _ _ _ _).trans (setPredicate_sameClauses _ _ _)
      . split at h
        . simp at h
        . exact hsame h
    . simp at h

theorem resolveStatus_sameClauses (s : SelectResolver) (b : Bool)
    : SameClauses s { s with resolveStatus := b } :=
  ⟨rfl, rfl, rfl, rfl, rfl, rfl, rfl, fun _ h => h⟩

theorem addComparison_sameClauses (s : SelectResolver) (op : CompareOperator) (c : Column) (value : Datum)
    : SameClauses s (s.addComparison catalog op c value).2 := by
  unfold addComparison
  dsimp only
  split
  . exact ((makeTree_sameClauses _ _ _ _).trans (getPredicate_sameClauses _ _)).trans
      (setPredicate_sameClauses _ _ _)
  . exact (makeTree_sameClauses _ _ _ _).trans (getPredicate_sameClauses _ _)

theorem resolveComparison_sameClauses (s : SelectResolver) (op : CompareOperator) (l r : Expr)
    : SameClauses s (s.resolveComparison catalog op l r).2 := by
  unfold resolveComparison
  split
  . apply addComparison_sameClauses
  . apply addComparison_sameClauses
  . exact SameClauses.refl s
  . exact resolveStatus_sameClauses s false

theorem resolveBetween_sameClauses (s : SelectResolver) (e lo hi : Expr)
    : SameClauses s (s.resolveBetween catalog e lo hi).2 := by
  unfold resolveBetween
  split
  . exact (makeTree_sameClauses s _ _ _).trans (setPredicate_sameClauses _ _ _)
  . exact SameClauses.refl s

theorem bind_eq_ok {α β : Type} {x : Except Failure α} {f : α → Except Failure β} {b : β}
    (h : (x >>= f) = .ok b)
    : ∃ a, x = .ok a ∧ f a = .ok b := by
  cases x with
  | error e => cases h
  | ok a => exact ⟨a, rfl, h⟩

theorem resolvePredExpr_sameClauses {e : Expr} {tree : Option PredicateTree}
    (h : resolvePredExpr catalog e s = .ok (tree, s'))
    : SameClauses s s' := by
  induction e generalizing s s' tree with
  | and l r ihl ihr | or l r ihl ihr =>
    rw [resolvePredExpr] at h
    obtain ⟨⟨lTree, s₁⟩, hl, h⟩ := bind_eq_ok h
    obtain ⟨⟨rTree, s₂⟩, hr, h⟩ := bind_eq_ok h
    exact ((ihl hl).trans (ihr hr)).trans (combinePredicates_sameClauses h)
  | compare op l r =>
    rw [resolvePredExpr, Except.ok.injEq] at h
    have hs : _ = s' := congrArg Prod.snd h
    rw [← hs]
    apply resolveComparison_sameClauses
  | between e lo hi =>
    rw [resolvePredExpr, Except.ok.injEq] at h
    have hs : _ = s' := congrArg Prod.snd h
    rw [← hs]
    apply resolveBetween_sameClauses
  | arith op l r | other l r =>
    rw [resolvePredExpr, Except.ok.injEq, Prod.mk.injEq] at h
    rw [← h.2]
    exact resolveStatus_sameClauses s false
  | _ =>
    rw [resolvePredExpr, Except.ok.injEq, Prod.mk.injEq] at h
    rw [← h.2]
    exact SameClauses.refl s

def isAggregate (item : ExprListItem) : Bool :=
  match item.pExpr with
  | .aggFunction _ _ => true
  | _ => false

theorem addAggregate_eq {name zEName : String} {colRef : ColumnReference} {exprRef : ExprReference}
    (h : s.addAggregate name zEName colRef exprRef = some s')
    : ∃ aggRef projectRef,
        s' = {
          s with
            aggReferences := s.aggReferences ++ [aggRef]
            projectReferences := s.projectReferences ++ [projectRef]
        } := by
  unfold addAggregate at h
  cases hkernel : aggregateKernel name with
  | none => simp [hkernel] at h
  | some kernel =>
    simp only [hkernel, Option.bind_eq_bind, Option.bind_some, Option.pure_def, Option.some.injEq] at h
    exact ⟨_, _, h.symm⟩

theorem resolveResultColumn_eq {item : ExprListItem}
    (h : s.resolveResultColumn catalog item = .ok (some s'))
    : ∃ aggRefs projectRef,
        aggRefs.length = (if isAggregate item then 1 else 0) ∧
        s' = {
          s with
            aggReferences := s.aggReferences ++ aggRefs
            projectReferences := s.projectReferences ++ [projectRef]
        } := by
  unfold resolveResultColumn at h
  unfold isAggregate
  split at h
  . next name arg hexpr =>
    have hagg : ∃ colRef exprRef, s.addAggregate name item.zEName colRef exprRef = some s' := by
      split at h
      . simp at h
      . split at h
        . obtain ⟨colRef, -, h⟩ := bind_eq_ok h
          exact ⟨_, _, Except.ok.inj h⟩
        . split at h
          . simp at h
          . exact ⟨_, _, Except.ok.inj h⟩
    obtain ⟨colRef, exprRef, hagg⟩ := hagg
    obtain ⟨aggRef, projectRef, heq⟩ := addAggregate_eq hagg
    exact ⟨[aggRef], projectRef, by simp [hexpr], heq⟩
  . next c hexpr =>
    split at h
    . simp at h
    . simp only [Except.ok.injEq, Option.some.injEq] at h
      exact ⟨[], _, by simp [hexpr], by rw [← h, List.append_nil]⟩
  . next c hexpr =>
    split at h
    . simp at h
    . simp only [Except.ok.injEq, Option.some.injEq] at h
      exact ⟨[], _, by simp [hexpr], by rw [← h, List.append_nil]⟩
  . simp at h

theorem resolveResultColumns_eq {items : List ExprListItem}
    (h : s.resolveResultColumns catalog items = .ok (some s'))
    : ∃ aggRefs projectRefs,
        aggRefs.length = items.countP isAggregate ∧
        projectRefs.length = items.length ∧
        s' = {
          s with
            aggReferences := s.aggReferences ++ aggRefs
            projectReferences := s.projectReferences ++ projectRefs
        } := by
  induction items generalizing s with
  | nil =>
    rw [resolveResultColumns, Except.ok.injEq, Option.some.injEq] at h
    exact ⟨[], [], rfl, rfl, by rw [← h, List.append_nil, List.append_nil]⟩
  | cons item items ih =>
    rw [resolveResultColumns] at h
    obtain ⟨res, hitem, h⟩ := bind_eq_ok h
    cases res with
    | none => simp at h
    | some s₁ =>
      obtain ⟨aggRefs, projectRef, hlen, rfl⟩ := resolveResultColumn_eq hitem
      obtain ⟨aggRefs', projectRefs, hlen', hlen'', rfl⟩ := ih h
      refine ⟨aggRefs ++ aggRefs', projectRef :: projectRefs, ?_, ?_, ?_⟩
      . rw [List.length_append, List.countP_cons, hlen, hlen', Nat.add_comm]
      . rw [List.length_cons, List.length_cons, hlen'']
      . simp

def groupByRef (catalog : Catalog) : Expr → Option ColumnReference
  | .column c | .aggColumn c => if 0 ≤ c.iColumn then some (columnRef catalog c) else none
  | _ => none

theorem resolveGroupBy_eq {expr : Expr} (h : s.resolveGroupBy catalog expr = .ok s')
    : s' = { s with groupByReferences := s.groupByReferences ++ (groupByRef catalog expr).toList } := by
  unfold resolveGroupBy at h
  cases expr with
  | column c | aggColumn c =>
    simp only [Expr.iColumn] at h
    split at h
    . next hcol =>
      simp only [exprColumnRef, ok_bind, pure_eq_ok, Except.ok.injEq] at h
      rw [← h]
      simp [groupByRef, hcol]
    . next hcol =>
      rw [pure_eq_ok, Except.ok.injEq] at h
      rw [← h]
      simp [groupByRef, hcol]
  | null => simp [Expr.iColumn] at h
  | _ =>
    simp only [Expr.iColumn, exprColumnRef] at h
    cases h

theorem foldlM_resolveGroupBy_eq {exprs : List Expr}
    (h : exprs.foldlM (resolveGroupBy catalog) s = .ok s')
    : s' = { s with groupByReferences := s.groupByReferences ++ exprs.filterMap (groupByRef catalog) } := by
  induction exprs generalizing s with
  | nil =>
    rw [List.foldlM_nil, pure_eq_ok, Except.ok.injEq] at h
    rw [← h]
    simp
  | cons expr exprs ih =>
    rw [List.foldlM_cons] at h
    obtain ⟨s₁, h₁, h⟩ := bind_eq_ok h
    rw [ih h, resolveGroupBy_eq h₁]
    simp only [List.filterMap_cons, List.append_assoc]
    cases groupByRef catalog expr <;> rfl

/--
The references for an `ORDER BY` clause. An aggregate is found by the name of the result column.
-/
def orderByRef (catalog : Catalog) (projectRefs : List ProjectReference) (item : OrderByItem)
    : Option OrderByReference :=
  if 0 < item.iOrderByCol then
    match item.pExpr with
    | .column c | .aggColumn c =>
      if 0 ≤ c.iColumn then some ⟨columnRef catalog c, item.desc⟩ else none
    | .aggFunction _ _ =>
      (projectRefs[item.iOrderByCol - 1]?).map fun projectRef => ⟨⟨none, projectRef.aliasName⟩, item.desc⟩
    | _ => none
  else
    none

theorem resolveOrderBy_eq {item : OrderByItem} (h : s.resolveOrderBy catalog item = .ok s')
    : s' = {
        s with
          orderByReferences :=
            s.orderByReferences ++ (orderByRef catalog s.projectReferences item).toList
      } := by
  unfold resolveOrderBy at h
  unfold orderByRef
  by_cases hcol : 0 < item.iOrderByCol
  . rw [if_pos hcol] at h
    rw [if_pos hcol]
    cases hexpr : item.pExpr with
    | column c | aggColumn c =>
      simp only [hexpr, Expr.iColumn] at h
      split at h
      . next hnn =>
        simp only [exprColumnRef, ok_bind, pure_eq_ok, Except.ok.injEq] at h
        rw [← h]
        simp [hnn]
      . next hnn =>
        rw [pure_eq_ok, Except.ok.injEq] at h
        rw [← h]
        simp [hnn]
    | aggFunction name arg =>
      simp only [hexpr, Expr.iColumn, le_refl, ↓reduceIte] at h
      cases hproject : s.projectReferences[item.iOrderByCol - 1]? with
      | none =>
        simp only [hproject] at h
        cases h
      | some projectRef =>
        simp only [hproject, ok_bind, pure_eq_ok, Except.ok.injEq] at h
        rw [← h]
        simp
    | null => simp [hexpr, Expr.iColumn] at h
    | _ =>
      simp only [hexpr, Expr.iColumn, le_refl, ↓reduceIte, exprColumnRef] at h
      cases h
  . rw [if_neg hcol, pure_eq_ok, Except.ok.injEq] at h
    rw [if_neg hcol, ← h]
    simp

theorem foldlM_resolveOrderBy_eq {items : List OrderByItem}
    (h : items.foldlM (resolveOrderBy catalog) s = .ok s')
    : s' = {
        s with
          orderByReferences :=
            s.orderByReferences ++ items.filterMap (orderByRef catalog s.projectReferences)
      } := by
  induction items generalizing s with
  | nil =>
    rw [List.foldlM_nil, pure_eq_ok, Except.ok.injEq] at h
    rw [← h]
    simp
  | cons item items ih =>
    rw [List.foldlM_cons] at h
    obtain ⟨s₁, h₁, h⟩ := bind_eq_ok h
    rw [ih h, resolveOrderBy_eq h₁]
    simp only [List.filterMap_cons, List.append_assoc]
    cases orderByRef catalog s.projectReferences item <;> rfl

theorem resolvePredExprs_eq {items : List ExprListItem}
    (h : s.resolveResultColumns catalog items = .ok (some s'))
    : ∀ s₀ : SelectResolver, s₀.resolvePredExprs catalog items = .ok s₀ := by
  intro s₀
  unfold resolvePredExprs
  induction items generalizing s with
  | nil => rfl
  | cons item items ih =>
    rw [resolveResultColumns] at h
    obtain ⟨res, hitem, h⟩ := bind_eq_ok h
    cases res with
    | none => simp at h
    | some s₁ =>
      have hexpr : resolvePredExpr catalog item.pExpr s₀ = .ok (none, s₀) := by
        unfold resolveResultColumn at hitem
        split at hitem
        . next hitem' => rw [hitem', resolvePredExpr]
        . next hitem' => rw [hitem', resolvePredExpr]
        . next hitem' => rw [hitem', resolvePredExpr]
        . simp at hitem
      rw [List.foldlM_cons, hexpr]
      exact ih h

theorem resolveWhere_eq {pWhere : Expr} (h : resolveWhere catalog pWhere s = .ok (some s'))
    : ∃ tree s₁,
        resolvePredExpr catalog pWhere s = .ok (tree, s₁) ∧
        (pWhere = .null ∨ s₁.resolveStatus = true) ∧
        s' = (joinsOf catalog pWhere).foldl addJoinPredicate s₁ := by
  unfold resolveWhere at h
  obtain ⟨⟨tree, s₁⟩, hpred, h⟩ := bind_eq_ok h
  dsimp only at h
  split at h
  . simp at h
  . next hstatus =>
    rw [pure_eq_ok, Except.ok.injEq, Option.some.injEq, resolveJoinPredExpr_eq] at h
    refine ⟨tree, s₁, hpred, ?_, h.symm⟩
    by_cases hnull : pWhere = .null
    . exact Or.inl hnull
    . right
      simpa [hnull] using hstatus

/--
The fields of a resolver after it has accepted a query.
-/
theorem resolveSelectTree_eq {q : Sqlite3Select} {s₀ : SelectResolver}
    (h : resolveSelectTree catalog hash q s₀ = .ok (some s))
    : ∃ pTabList aggRefs projectRefs tree s₁ s₂,
        q.pSrc = some pTabList ∧
        aggRefs.length = q.pEList.countP isAggregate ∧
        projectRefs.length = q.pEList.length ∧
        resolvePredExpr catalog q.pWhere {
          s₀.addTables pTabList with
            aggReferences := s₀.aggReferences ++ aggRefs
            projectReferences := s₀.projectReferences ++ projectRefs
        } = .ok (tree, s₁) ∧
        (q.pWhere = .null ∨ s₁.resolveStatus = true) ∧
        ((joinsOf catalog q.pWhere).foldl addJoinPredicate s₁).checkJoinSupport hash = .ok (true, s₂) ∧
        s = {
          s₂ with
            groupByReferences := s₂.groupByReferences ++ q.pGroupBy.filterMap (groupByRef catalog)
            orderByReferences :=
              s₂.orderByReferences ++ q.pOrderBy.filterMap (orderByRef catalog s₂.projectReferences)
        } := by
  unfold resolveSelectTree at h
  split at h
  . simp at h
  . next pTabList hsrc =>
    split at h
    . simp at h
    . obtain ⟨s₁, h₁, h⟩ := bind_eq_ok h
      obtain ⟨res, h₂, h⟩ := bind_eq_ok h
      cases res with
      | none => simp at h
      | some s₂ =>
        rw [resolvePredExprs_eq h₂, Except.ok.injEq] at h₁
        obtain ⟨aggRefs, projectRefs, hagg, hproject, rfl⟩ := resolveResultColumns_eq h₂
        dsimp only at h
        split at h
        . simp at h
        . obtain ⟨res, h₃, h⟩ := bind_eq_ok h
          cases res with
          | none => simp at h
          | some s₃ =>
            obtain ⟨⟨supported, s₄⟩, h₄, h⟩ := bind_eq_ok h
            dsimp only at h
            split at h
            . simp at h
            . next hsupported =>
              have hsupported' : supported = true := by simpa using hsupported
              subst hsupported'
              obtain ⟨s₅, h₅, h⟩ := bind_eq_ok h
              obtain ⟨s₆, h₆, hs⟩ := bind_eq_ok h
              rw [pure_eq_ok, Except.ok.injEq, Option.some.injEq] at hs
              obtain ⟨tree, s', hpred, hstatus, rfl⟩ := resolveWhere_eq h₃
              subst h₁
              refine ⟨pTabList, aggRefs, projectRefs, tree, s', s₄, hsrc, hagg, hproject, hpred, hstatus,
                h₄, ?_⟩
              rw [← hs, foldlM_resolveOrderBy_eq h₆, foldlM_resolveGroupBy_eq h₅]

/--
The join predicates by their right table, where a later one replaces an earlier one.
-/
def addRight (m : Map TableName JoinPredicate) (p : JoinPredicate) : Map TableName JoinPredicate :=
  match p.rightTable with
  | some table => m.insert table p
  | none => m

theorem addJoinPredicate_joinPredicates (s : SelectResolver) (p : JoinPredicate)
    : (s.addJoinPredicate p).joinPredicates = addRight s.joinPredicates p := by
  unfold addJoinPredicate addRight JoinPredicate.rightTable
  cases p.rightCol.table <;> cases p.leftCol.table <;> rfl

theorem foldl_addJoinPredicate_joinPredicates (s : SelectResolver) (ps : List JoinPredicate)
    : (ps.foldl addJoinPredicate s).joinPredicates = ps.foldl addRight s.joinPredicates := by
  induction ps generalizing s with
  | nil => rfl
  | cons p ps ih =>
    rw [List.foldl_cons, List.foldl_cons, ih, addJoinPredicate_joinPredicates]

/--
The join predicates go to fields of their own.
-/
structure SameSelects (s s' : SelectResolver) : Prop where
  selectPredicates_eq : s'.selectPredicates = s.selectPredicates
  aggReferences_eq : s'.aggReferences = s.aggReferences
  groupByReferences_eq : s'.groupByReferences = s.groupByReferences
  orderByReferences_eq : s'.orderByReferences = s.orderByReferences
  projectReferences_eq : s'.projectReferences = s.projectReferences

theorem addJoinPredicate_sameSelects (s : SelectResolver) (p : JoinPredicate)
    : SameSelects s (s.addJoinPredicate p) := by
  unfold addJoinPredicate addToGraph
  cases p.rightCol.table <;> cases p.leftCol.table <;> exact ⟨rfl, rfl, rfl, rfl, rfl⟩

theorem foldl_addJoinPredicate_sameSelects (s : SelectResolver) (ps : List JoinPredicate)
    : SameSelects s (ps.foldl addJoinPredicate s) := by
  induction ps generalizing s with
  | nil => exact ⟨rfl, rfl, rfl, rfl, rfl⟩
  | cons p ps ih =>
    have h := addJoinPredicate_sameSelects s p
    have h' := ih (s.addJoinPredicate p)
    exact ⟨
      h'.selectPredicates_eq.trans h.selectPredicates_eq,
      h'.aggReferences_eq.trans h.aggReferences_eq,
      h'.groupByReferences_eq.trans h.groupByReferences_eq,
      h'.orderByReferences_eq.trans h.orderByReferences_eq,
      h'.projectReferences_eq.trans h.projectReferences_eq
    ⟩

theorem checkJoinSupport_eq {supported : Bool} (h : s.checkJoinSupport hash = .ok (supported, s'))
    : s' = { s with predicates := s'.predicates, joinType := s'.joinType } := by
  unfold checkJoinSupport at h
  dsimp only at h
  split at h
  . simp only [Except.ok.injEq, Prod.mk.injEq] at h
    rw [← h.2]
  . split at h
    . simp only [Except.ok.injEq, Prod.mk.injEq] at h
      rw [← h.2]
    . obtain ⟨res, -, h⟩ := bind_eq_ok h
      cases res with
      | none =>
        simp only [pure_eq_ok, Except.ok.injEq, Prod.mk.injEq] at h
        rw [← h.2]
      | some path =>
        simp only [pure_eq_ok, Except.ok.injEq, Prod.mk.injEq] at h
        rw [← h.2]

end SelectResolver

namespace Sqlite3Select

def fromTables (q : Sqlite3Select) : List TableName :=
  (q.pSrc.getD []).map SrcItem.zName

end Sqlite3Select

namespace SelectResolver

variable {catalog : Catalog} {hash : HashOrder TableName} {s s' : SelectResolver}

theorem mem_keys_emplace (m : Map (Option TableName) (Option PredicateTree)) (k k' : Option TableName)
    : k' ∈ (m.emplace k none).keys ↔ k' = k ∨ k' ∈ m.keys := by
  unfold Map.emplace
  split
  . next tree hk =>
    have : k ∈ m.keys := by
      rw [← AList.mem_keys, ← AList.lookup_isSome, hk]
      rfl
    constructor
    . exact Or.inr
    . rintro (rfl | hk')
      . exact this
      . exact hk'
  . rw [← AList.mem_keys, AList.mem_insert, AList.mem_keys]

theorem mem_keys_addTables (s : SelectResolver) (items : List SrcItem) (k : Option TableName)
    : k ∈ (s.addTables items).selectPredicates.keys
        ↔
      (∃ item ∈ items, k = some item.zName) ∨ k ∈ s.selectPredicates.keys := by
  unfold addTables
  dsimp only
  generalize s.selectPredicates = m
  induction items generalizing m with
  | nil => simp
  | cons item items ih =>
    rw [List.foldl_cons, ih, mem_keys_emplace]
    simp only [List.exists_mem_cons_iff]
    rw [or_left_comm, or_assoc]

/--
What an accepted query leaves in the resolver.
-/
structure Accepted (catalog : Catalog) (q : Sqlite3Select) (s : SelectResolver) : Prop where
  fromTables : ∀ t ∈ q.fromTables, some t ∈ s.selectPredicates.keys
  joinPredicates_eq : s.joinPredicates = (joinsOf catalog q.pWhere).foldl addRight ∅
  joinType : (∀ p ∈ joinsOf catalog q.pWhere, p.leftTable.isSome ∧ p.rightTable.isSome) →
    joinsOf catalog q.pWhere ≠ [] ∧
    (s.joinType = .star ∧ s.predicates = joinsOf catalog q.pWhere ∨
      s.joinType = .linear ∧ InPathOrder (joinsOf catalog q.pWhere) s.predicates)
  length_aggReferences : s.aggReferences.length = q.pEList.countP isAggregate
  length_projectReferences : s.projectReferences.length = q.pEList.length
  groupByReferences_eq : s.groupByReferences = q.pGroupBy.filterMap (groupByRef catalog)
  orderByReferences_eq :
    s.orderByReferences = q.pOrderBy.filterMap (orderByRef catalog s.projectReferences)

theorem resolveSelectTree_accepted {q : Sqlite3Select}
    (h : resolveSelectTree catalog hash q new = .ok (some s))
    : Accepted catalog q s := by
  obtain ⟨pTabList, aggRefs, projectRefs, tree, s₁, s₂, hsrc, hagg, hproject, hpred, -, hcheck, rfl⟩ :=
    resolveSelectTree_eq h
  have h₁ := resolvePredExpr_sameClauses hpred
  have h₂ := foldl_addJoinPredicate_sameSelects s₁ (joinsOf catalog q.pWhere)
  have hs₂ := checkJoinSupport_eq hcheck
  have hselect : s₂.selectPredicates = s₁.selectPredicates := by
    rw [hs₂]
    exact h₂.selectPredicates_eq
  have hprojects : s₂.projectReferences = projectRefs := by
    rw [hs₂]
    exact h₂.projectReferences_eq.trans h₁.projectReferences_eq
  constructor
  . intro t ht
    dsimp only
    rw [hselect]
    apply h₁.keys
    dsimp only
    rw [mem_keys_addTables]
    left
    unfold Sqlite3Select.fromTables at ht
    rw [hsrc] at ht
    obtain ⟨item, hitem, rfl⟩ := List.mem_map.mp ht
    exact ⟨item, hitem, rfl⟩
  . dsimp only
    rw [hs₂]
    dsimp only
    rw [foldl_addJoinPredicate_joinPredicates, h₁.joinPredicates_eq]
    rfl
  . intro hsome
    have hfound : ((joinsOf catalog q.pWhere).foldl addJoinPredicate s₁).Found (joinsOf catalog q.pWhere) :=
      (found_nil h₁.predicates_eq h₁.joinGraph_eq).foldl fun p hp => (hsome p hp).2
    have hne : joinsOf catalog q.pWhere ≠ [] := by
      intro hnil
      rw [hnil] at hfound
      rw [hnil, hfound.checkJoinSupport_nil] at hcheck
      simp at hcheck
    refine ⟨hne, ?_⟩
    dsimp only
    rcases hfound.checkJoinSupport hsome hne hash with
      ⟨-, heq⟩ | ⟨-, ⟨path, hpath, heq⟩ | ⟨-, heq⟩⟩
    . rw [heq] at hcheck
      simp only [Except.ok.injEq, Prod.mk.injEq, true_and] at hcheck
      rw [← hcheck]
      exact Or.inl ⟨rfl, hfound.predicates_eq⟩
    . rw [heq] at hcheck
      simp only [Except.ok.injEq, Prod.mk.injEq, true_and] at hcheck
      rw [← hcheck]
      exact Or.inr ⟨rfl, hpath⟩
    . rw [heq] at hcheck
      simp at hcheck
  . dsimp only
    rw [hs₂]
    dsimp only
    rw [h₂.aggReferences_eq, h₁.aggReferences_eq]
    exact hagg
  . dsimp only
    rw [hprojects, hproject]
  . have hgroup : s₂.groupByReferences = [] := by
      rw [hs₂]
      exact h₂.groupByReferences_eq.trans h₁.groupByReferences_eq
    simp [hgroup]
  . have horder : s₂.orderByReferences = [] := by
      rw [hs₂]
      exact h₂.orderByReferences_eq.trans h₁.orderByReferences_eq
    simp [horder]

end SelectResolver

end Hustle.Resolver
