import Hustle.Resolver.Accepted

/-!
This module contains which tables of a query have a tree of predicates.
-/

namespace Hustle.Resolver

namespace Expr

def filteredTables : Expr → List TableName
  | .and left right | .or left right => filteredTables left ++ filteredTables right
  | .compare _ (.column c) (.integer _ _) | .compare _ (.column c) (.string _)
  | .between (.column c) (.integer _ _) (.integer _ _) => [c.tableName]
  | _ => []

end Expr

namespace SelectResolver

variable {catalog : Catalog} {s s' : SelectResolver}

def HasTree (s : SelectResolver) (table : TableName) : Prop :=
  (s.selectPredicates.get (some table)).isSome

theorem get_setPredicate (s : SelectResolver) (name name' : Option TableName) (tree : PredicateTree)
    : (s.setPredicate name tree).selectPredicates.get name'
        =
      if name' = name then some tree else s.selectPredicates.get name' := by
  unfold setPredicate Map.get
  dsimp only
  rw [Map.lookup_insert_eq]
  split <;> rfl

theorem get_getPredicate (s : SelectResolver) (name name' : Option TableName)
    : (s.getPredicate name).2.selectPredicates.get name' = s.selectPredicates.get name' := by
  unfold getPredicate Map.touch Map.get
  dsimp only
  split
  . rfl
  . next hnone =>
    rw [Map.lookup_insert_eq]
    split
    . next heq =>
      rw [heq, hnone]
      rfl
    . rfl

/--
A tree that is returned belongs to a table that has a tree.
-/
def TreeKnown (s : SelectResolver) (tree : Option PredicateTree) : Prop :=
  ∀ T ∈ tree, ∀ t, T.tableName = some t → s.HasTree t

theorem mergePredicate_hasTree {cur : PredicateTree} {tree : Option PredicateTree}
    (h : s.mergePredicate cur = .ok (tree, s'))
    : (∀ t, s'.HasTree t ↔ s.HasTree t) ∧ s'.TreeKnown tree := by
  unfold mergePredicate at h
  dsimp only at h
  split at h
  . simp only [Except.ok.injEq, Prod.mk.injEq] at h
    rw [← h.1, ← h.2]
    refine ⟨?_, by simp [TreeKnown]⟩
    intro t
    unfold HasTree
    rw [get_getPredicate]
  . split at h
    . simp at h
    . next prev hprev =>
      simp only [Except.ok.injEq, Prod.mk.injEq] at h
      rw [← h.1, ← h.2]
      constructor
      . intro t
        unfold HasTree
        rw [get_setPredicate]
        split
        . next heq =>
          have hget : s.selectPredicates.get (some t) = some prev := heq ▸ hprev
          simp [hget]
        . exact Iff.of_eq (by rw [← get_getPredicate s cur.tableName (some t)]; rfl)
      . intro T hT t ht
        rw [Option.mem_some] at hT
        rw [← hT] at ht
        simp [makeTree] at ht

theorem combinePredicates_hasTree {op : FilterOperator} {l r : Expr}
    {lTree rTree tree : Option PredicateTree} (hl : s.TreeKnown lTree)
    (h : s.combinePredicates op l r lTree rTree = .ok (tree, s'))
    : (∀ t, s'.HasTree t ↔ s.HasTree t) ∧ s'.TreeKnown tree := by
  have hsame : ∀ {tree : Option PredicateTree}, (Except.ok (none, s) : Except Failure _) = .ok (tree, s')
      → (∀ t, s'.HasTree t ↔ s.HasTree t) ∧ s'.TreeKnown tree := by
    intro tree h
    simp only [Except.ok.injEq, Prod.mk.injEq] at h
    rw [← h.1, ← h.2]
    exact ⟨fun _ => Iff.rfl, by simp [TreeKnown]⟩
  unfold combinePredicates at h
  split at h
  . exact hsame h
  . split at h
    . exact mergePredicate_hasTree h
    . exact hsame h
  . split at h
    . exact mergePredicate_hasTree h
    . exact hsame h
  . next L R =>
    split at h
    . split at h
      . simp only [Except.ok.injEq, Prod.mk.injEq] at h
        rw [← h.1, ← h.2]
        constructor
        . intro t
          unfold HasTree
          rw [get_setPredicate]
          split
          . next heq =>
            have := hl L rfl t heq.symm
            unfold HasTree at this
            simp [this]
          . rfl
        . intro T hT t ht
          rw [Option.mem_some] at hT
          rw [← hT] at ht
          unfold HasTree
          rw [get_setPredicate, if_pos ht.symm]
          rfl
      . split at h
        . simp at h
        . exact hsame h
    . simp at h

theorem addComparison_hasTree (s : SelectResolver) (op : CompareOperator) (c : Column) (value : Datum)
    : (∀ t, (s.addComparison catalog op c value).2.HasTree t ↔ s.HasTree t ∨ t = c.tableName) ∧
      (s.addComparison catalog op c value).2.TreeKnown (s.addComparison catalog op c value).1 := by
  have hget : ∀ t, (s.addComparison catalog op c value).2.HasTree t ↔ s.HasTree t ∨ t = c.tableName := by
    intro t
    unfold addComparison HasTree
    dsimp only
    split
    . rw [get_setPredicate, get_getPredicate]
      split
      . next heq => simp [Option.some.inj heq]
      . next hne =>
        have hne' : ¬t = c.tableName := fun heq => hne (by rw [heq])
        simp [hne', makeTree]
    . next prev hprev =>
      rw [get_getPredicate]
      constructor
      . exact Or.inl
      . rintro (hold | rfl)
        . exact hold
        . have : s.selectPredicates.get (some c.tableName) = some prev := hprev
          simp [makeTree, this]
  refine ⟨hget, ?_⟩
  intro T hT t ht
  have hname : T.tableName = some c.tableName := by
    unfold addComparison at hT
    dsimp only at hT
    split at hT
    . rw [← Option.some.inj hT]
      rfl
    . rw [← Option.some.inj hT]
      rfl
  rw [hname] at ht
  exact (hget t).mpr (Or.inr (Option.some.inj ht).symm)

theorem resolveComparison_hasTree (catalog : Catalog) (s : SelectResolver) (op : CompareOperator) (l r : Expr)
    : (∀ t, (s.resolveComparison catalog op l r).2.HasTree t
        ↔ s.HasTree t ∨ t ∈ (Expr.compare op l r).filteredTables) ∧
      (s.resolveComparison catalog op l r).2.TreeKnown (s.resolveComparison catalog op l r).1 := by
  unfold resolveComparison
  split
  . simpa [Expr.filteredTables] using addComparison_hasTree s op _ _
  . simpa [Expr.filteredTables] using addComparison_hasTree s op _ _
  . simp [Expr.filteredTables, TreeKnown]
  . next hint hstring _ =>
    have hnil : (Expr.compare op l r).filteredTables = [] := by
      unfold Expr.filteredTables
      split
      . next heq => cases heq
      . next heq => cases heq
      . next heq =>
        cases heq
        exact (hint _ _ _ rfl rfl).elim
      . next heq =>
        cases heq
        exact (hstring _ _ rfl rfl).elim
      . next heq => cases heq
      . rfl
    rw [hnil]
    exact ⟨fun t => by simp [HasTree], by simp [TreeKnown]⟩

theorem resolveBetween_hasTree (catalog : Catalog) (s : SelectResolver) (e lo hi : Expr)
    : (∀ t, (s.resolveBetween catalog e lo hi).2.HasTree t
        ↔ s.HasTree t ∨ t ∈ (Expr.between e lo hi).filteredTables) ∧
      (s.resolveBetween catalog e lo hi).2.TreeKnown (s.resolveBetween catalog e lo hi).1 := by
  unfold resolveBetween
  split
  . next c value token value' token' =>
    dsimp only
    constructor
    . intro t
      unfold HasTree
      rw [get_setPredicate]
      split
      . next heq => simp [Expr.filteredTables, Option.some.inj heq]
      . next hne =>
        have hne' : ¬t = c.tableName := fun heq => hne (by rw [heq])
        simp [Expr.filteredTables, hne', makeTree]
    . intro T hT t ht
      rw [← Option.some.inj hT] at ht
      have hname : some c.tableName = some t := ht
      unfold HasTree
      rw [get_setPredicate, if_pos hname.symm]
      rfl
  . next hcolumn =>
    have hnil : (Expr.between e lo hi).filteredTables = [] := by
      unfold Expr.filteredTables
      split
      . next heq => cases heq
      . next heq => cases heq
      . next heq => cases heq
      . next heq => cases heq
      . next heq =>
        cases heq
        exact (hcolumn _ _ _ _ _ rfl rfl rfl).elim
      . rfl
    rw [hnil]
    exact ⟨fun t => by simp, by simp [TreeKnown]⟩

theorem resolvePredExpr_hasTree {e : Expr} {tree : Option PredicateTree}
    (h : resolvePredExpr catalog e s = .ok (tree, s'))
    : (∀ t, s'.HasTree t ↔ s.HasTree t ∨ t ∈ e.filteredTables) ∧ s'.TreeKnown tree := by
  induction e generalizing s s' tree with
  | and l r ihl ihr | or l r ihl ihr =>
    rw [resolvePredExpr] at h
    obtain ⟨⟨lTree, s₁⟩, hl, h⟩ := bind_eq_ok h
    obtain ⟨⟨rTree, s₂⟩, hr, h⟩ := bind_eq_ok h
    obtain ⟨htree₁, hknown₁⟩ := ihl hl
    obtain ⟨htree₂, -⟩ := ihr hr
    have hknown : s₂.TreeKnown lTree := fun T hT t ht => (htree₂ t).mpr (Or.inl (hknown₁ T hT t ht))
    obtain ⟨htree₃, hknown₃⟩ := combinePredicates_hasTree hknown h
    refine ⟨?_, hknown₃⟩
    intro t
    rw [htree₃, htree₂, htree₁, Expr.filteredTables, List.mem_append, or_assoc]
  | compare op l r =>
    rw [resolvePredExpr, Except.ok.injEq] at h
    have := resolveComparison_hasTree catalog s op l r
    rw [h] at this
    exact this
  | between e lo hi =>
    rw [resolvePredExpr, Except.ok.injEq] at h
    have := resolveBetween_hasTree catalog s e lo hi
    rw [h] at this
    exact this
  | _ =>
    rw [resolvePredExpr, Except.ok.injEq, Prod.mk.injEq] at h
    rw [← h.1, ← h.2]
    exact ⟨fun t => by simp [Expr.filteredTables, HasTree], by simp [TreeKnown]⟩

theorem get_addTables (s : SelectResolver) (items : List SrcItem) (k : Option TableName)
    : (s.addTables items).selectPredicates.get k = s.selectPredicates.get k := by
  unfold addTables
  dsimp only
  generalize s.selectPredicates = m
  induction items generalizing m with
  | nil => rfl
  | cons item items ih =>
    rw [List.foldl_cons, ih]
    unfold Map.emplace Map.get
    split
    . rfl
    . next hnone =>
      rw [Map.lookup_insert_eq]
      split
      . next heq =>
        rw [heq, hnone]
        rfl
      . rfl

theorem resolveSelectTree_hasTree {hash : HashOrder TableName} {q : Sqlite3Select}
    (h : resolveSelectTree catalog hash q new = .ok (some s)) (t : TableName)
    : s.HasTree t ↔ t ∈ q.pWhere.filteredTables := by
  obtain ⟨pTabList, aggRefs, projectRefs, tree, s₁, s₂, -, -, -, hpred, -, hcheck, rfl⟩ :=
    resolveSelectTree_eq h
  have hselect : s₂.selectPredicates = s₁.selectPredicates := by
    rw [checkJoinSupport_eq hcheck]
    exact (foldl_addJoinPredicate_sameSelects _ _).selectPredicates_eq
  have htree := (resolvePredExpr_hasTree hpred).1 t
  have hnew : ¬HasTree {
      new.addTables pTabList with
        aggReferences := new.aggReferences ++ aggRefs
        projectReferences := new.projectReferences ++ projectRefs
    } t := by
    unfold HasTree
    dsimp only
    rw [get_addTables]
    have hdefault : new.selectPredicates.get (some t) = none := rfl
    simp [hdefault]
  rw [or_iff_right hnew] at htree
  unfold HasTree at htree ⊢
  dsimp only
  rw [hselect, htree]

end SelectResolver

end Hustle.Resolver
