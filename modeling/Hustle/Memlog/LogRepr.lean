import Mathlib.Logic.Function.Basic
import Hustle.Memlog.Log

/-!
This module contains the representation invariant of a memlog and what its functions do in terms of the
records that are pending for every root page.
-/

namespace Hustle.Memlog

namespace HustleMemLog

open SList (ptrs)

/--
The lists of the memlog consist of the given nodes and do not share any.
-/
structure Repr (log : HustleMemLog) (cells : List (List (SList.Ptr × DBRecord))) : Prop where
  length_eq : log.recordList.length = cells.length
  list : ∀ (i : Nat) cs, cells[i]? = some cs →
    ∃ l, log.recordList[i]? = some l ∧ SList.Repr log.heap l cs
  disjoint : ∀ (i j : Nat) cs cs' p, cells[i]? = some cs → cells[j]? = some cs' →
    p ∈ ptrs cs → p ∈ ptrs cs' → i = j
  fresh : ∀ (i : Nat) cs p, cells[i]? = some cs → p ∈ ptrs cs → p < log.nextPtr

variable {log log' : HustleMemLog} {cells : List (List (SList.Ptr × DBRecord))}

theorem replicate_repr (heap : SList.Heap DBRecord) (nextPtr : SList.Ptr) (n : Nat)
    : Repr ⟨heap, nextPtr, List.replicate n SList.Header.empty⟩ (List.replicate n []) where
  length_eq := by simp
  list := by
    intro i cs hi
    rw [List.getElem?_replicate] at hi ⊢
    split at hi
    . next hlt =>
      injection hi with hi
      rw [if_pos hlt, ← hi]
      exact ⟨_, rfl, SList.empty_repr heap⟩
    . simp at hi
  disjoint := by
    intro i j cs cs' p hi
    rw [List.getElem?_replicate] at hi
    split at hi
    . injection hi with hi
      simp [← hi]
    . simp at hi
  fresh := by
    intro i cs p hi
    rw [List.getElem?_replicate] at hi
    split at hi
    . injection hi with hi
      simp [← hi]
    . simp at hi

theorem Repr.grow (h : log.Repr cells) (tableId : Nat)
    : ∃ n, (log.grow tableId).Repr (cells ++ List.replicate n []) ∧
        (0 < cells.length → tableId < cells.length + n) := by
  unfold HustleMemLog.grow
  by_cases hle : log.recordList.length ≤ tableId
  . rw [if_pos hle]
    have hlen := h.length_eq
    have hnew := replicate_repr log.heap log.nextPtr (2 * tableId - log.recordList.length)
    refine ⟨2 * tableId - log.recordList.length, ?_, by omega⟩
    constructor
    . simp [hlen]
    . intro i cs hi
      dsimp only
      by_cases hlt : i < cells.length
      . rw [List.getElem?_append_left hlt] at hi
        rw [List.getElem?_append_left (by omega)]
        exact h.list i cs hi
      . rw [List.getElem?_append_right (by omega)] at hi
        rw [List.getElem?_append_right (by omega)]
        exact hnew.list _ cs (by rw [hlen]; rw [hlen] at hi; exact hi)
    . intro i j cs cs' p hi hj hp hp'
      have hmem : ∀ (k : Nat) cs'', (cells ++ List.replicate (2 * tableId - log.recordList.length) [])[k]?
          = some cs'' → p ∈ ptrs cs'' → cells[k]? = some cs'' := by
        intro k cs'' hk hp''
        by_cases hlt : k < cells.length
        . rw [List.getElem?_append_left hlt] at hk
          exact hk
        . rw [List.getElem?_append_right (by omega), List.getElem?_replicate] at hk
          split at hk
          . injection hk with hk
            simp [← hk] at hp''
          . simp at hk
      exact h.disjoint i j cs cs' p (hmem i cs hi hp) (hmem j cs' hj hp') hp hp'
    . intro i cs p hi hp
      by_cases hlt : i < cells.length
      . rw [List.getElem?_append_left hlt] at hi
        exact h.fresh i cs p hi hp
      . rw [List.getElem?_append_right (by omega)] at hi
        exact hnew.fresh _ cs p hi hp
  . rw [if_neg hle]
    have hlen := h.length_eq
    exact ⟨0, by simpa using h, by omega⟩

/--
Replacing one list by another one, whose nodes are new or were in the old one.
-/
theorem Repr.set (h : log.Repr cells) {i : Nat} {cs cs' : List (SList.Ptr × DBRecord)} {l : SList.Header}
    (hi : cells[i]? = some cs) (hlists : log'.recordList = log.recordList.set i l)
    (hptr : log.nextPtr ≤ log'.nextPtr) (hrepr : SList.Repr log'.heap l cs')
    (hnew : ∀ p ∈ ptrs cs', p ∈ ptrs cs ∨ log.nextPtr ≤ p ∧ p < log'.nextPtr)
    (hframe : ∀ p, p < log.nextPtr → p ∉ ptrs cs → log'.heap.lookup p = log.heap.lookup p)
    : log'.Repr (cells.set i cs') := by
  have hlt : i < cells.length := (List.getElem?_eq_some_iff.mp hi).1
  -- The nodes of the new list are not in any other list.
  have hother : ∀ (j : Nat) cs'' p, i ≠ j → cells[j]? = some cs'' → p ∈ ptrs cs'' → p ∉ ptrs cs' := by
    intro j cs'' p hij hj hp hp'
    cases hnew p hp' with
    | inl hold => exact hij (h.disjoint i j cs cs'' p hi hj hold hp)
    | inr hfresh => exact Nat.not_lt.mpr hfresh.1 (h.fresh j cs'' p hj hp)
  constructor
  . rw [hlists, List.length_set, List.length_set, h.length_eq]
  . intro j cs'' hj
    rw [hlists]
    rw [List.getElem?_set] at hj ⊢
    have hlen := h.length_eq
    by_cases hij : i = j
    . subst hij
      rw [if_pos rfl, if_pos hlt] at hj
      rw [if_pos rfl, if_pos (by omega)]
      injection hj with hj
      exact ⟨l, rfl, hj ▸ hrepr⟩
    . rw [if_neg hij] at hj ⊢
      obtain ⟨l', hl', hrepr'⟩ := h.list j cs'' hj
      refine ⟨l', hl', hrepr'.congr ?_⟩
      intro p hp
      apply hframe p (h.fresh j cs'' p hj hp)
      intro hold
      exact hij (h.disjoint i j cs cs'' p hi hj hold hp)
  . intro j k cs₁ cs₂ p hj hk hp hp'
    rw [List.getElem?_set] at hj hk
    simp only [hlt, ↓reduceIte] at hj hk
    split at hj
    . next hij =>
      injection hj with hj
      split at hk
      . next hik => omega
      . next hik => exact absurd (hj ▸ hp) (hother k cs₂ p hik hk hp')
    . next hij =>
      split at hk
      . next hik =>
        injection hk with hk
        exact absurd (hk ▸ hp') (hother j cs₁ p hij hj hp)
      . exact h.disjoint j k cs₁ cs₂ p hj hk hp hp'
  . intro j cs₁ p hj hp
    rw [List.getElem?_set] at hj
    simp only [hlt, ↓reduceIte] at hj
    split at hj
    . injection hj with hj
      cases hnew p (hj ▸ hp) with
      | inl hold => exact Nat.lt_of_lt_of_le (h.fresh i cs p hi hold) hptr
      | inr hfresh => exact hfresh.2
    . exact Nat.lt_of_lt_of_le (h.fresh j cs₁ p hj hp) hptr

/--
The records in the list of a root page, none if there is no list.
-/
def records (cells : List (List (SList.Ptr × DBRecord))) (i : Nat) : List DBRecord :=
  (cells[i]?.getD []).map Prod.snd

theorem records_append_replicate (cells : List (List (SList.Ptr × DBRecord))) (n i : Nat)
    : records (cells ++ List.replicate n []) i = records cells i := by
  unfold records
  by_cases hlt : i < cells.length
  . rw [List.getElem?_append_left hlt]
  . rw [List.getElem?_append_right (by omega), List.getElem?_eq_none (l := cells) (by omega),
      List.getElem?_replicate]
    split <;> rfl

theorem records_set {cells : List (List (SList.Ptr × DBRecord))} {i : Nat} (hi : i < cells.length)
    (cs : List (SList.Ptr × DBRecord)) (j : Nat)
    : records (cells.set i cs) j = if i = j then cs.map Prod.snd else records cells j := by
  unfold records
  rw [List.getElem?_set]
  split
  . simp
  . rfl

theorem Repr.insertRecord (h : log.Repr cells) (hpos : 0 < cells.length) (record : DBRecord)
    (tableId : Nat)
    : ∃ log' cells', log.insertRecord record tableId = some log' ∧
        log'.Repr cells' ∧
        0 < cells'.length ∧
        ∀ i, records cells' i
          = if tableId = i then records cells i ++ [record] else records cells i := by
  obtain ⟨n, hgrow, hlt⟩ := h.grow tableId
  generalize hlog₁ : log.grow tableId = log₁ at hgrow
  have hlt' : tableId < (cells ++ List.replicate n []).length := by
    have := hlt hpos
    simpa using this
  obtain ⟨l, hl, hrepr⟩ := hgrow.list tableId _ (List.getElem?_eq_getElem hlt')
  have hfresh : ∀ p, p ∈ ptrs (cells ++ List.replicate n [])[tableId] → p ≠ log₁.nextPtr := by
    intro p hp heq
    have := hgrow.fresh tableId _ p (List.getElem?_eq_getElem hlt') hp
    rw [heq] at this
    exact absurd this (Nat.lt_irrefl _)
  have hrepr' : SList.Repr (log₁.heap.insert log₁.nextPtr ⟨record, none⟩) l
      (cells ++ List.replicate n [])[tableId] := by
    refine hrepr.congr ?_
    intro p hp
    rw [AList.lookup_insert_ne (hfresh p hp)]
  obtain ⟨heap', l', hpush, hnew, hframe, -⟩ :=
    hrepr'.push (AList.lookup_insert _) (fun hp => hfresh _ hp rfl)
  unfold HustleMemLog.insertRecord
  simp only [hlog₁, hl, hpush, Option.bind_eq_bind, Option.bind_some]
  refine ⟨_, _, rfl, hgrow.set (List.getElem?_eq_getElem hlt') rfl (Nat.le_succ _) hnew ?_ ?_, ?_, ?_⟩
  . intro p hp
    rw [SList.ptrs_append, List.mem_append] at hp
    cases hp with
    | inl hold => exact Or.inl hold
    | inr hp =>
      have hp' : p = log₁.nextPtr := by simpa using hp
      right
      rw [hp']
      exact ⟨Nat.le_refl _, Nat.lt_succ_self _⟩
  . intro p hp hold
    rw [hframe p hold, AList.lookup_insert_ne (Nat.ne_of_lt hp)]
  . simp
    omega
  . intro i
    rw [records_set hlt', records_append_replicate]
    split
    . next hi =>
      subst hi
      rw [← records_append_replicate cells n]
      simp [records, List.getElem?_eq_getElem hlt']
    . rfl

section

variable {σ : Type}

theorem Repr.drainTable (h : log.Repr cells) {i : Nat} (hi : i < cells.length) (f : σ → DBRecord → σ)
    (isFree : Bool) (s : σ)
    : ∃ log', log.drainTable i f isFree s = some (log', (records cells i).foldl f s) ∧
        log'.Repr (cells.set i []) ∧
        log'.recordList.length = log.recordList.length := by
  obtain ⟨l, hl, hrepr⟩ := h.list i _ (List.getElem?_eq_getElem hi)
  obtain ⟨heap', hdrain, hframe⟩ :=
    hrepr.chain.drain hrepr.nodup f isFree s hrepr.length_le
  have hrecords : records cells i = cells[i].map Prod.snd := by
    simp [records, List.getElem?_eq_getElem hi]
  unfold HustleMemLog.drainTable
  simp only [hl, hdrain, Option.bind_eq_bind, Option.bind_some, hrecords]
  refine ⟨_, rfl, h.set (List.getElem?_eq_getElem hi) rfl (Nat.le_refl _) (SList.empty_repr _) ?_ ?_, ?_⟩
  . simp
  . intro p _ hp
    exact hframe p hp
  . simp

variable (apply : σ → TablePtr → DBRecord → σ) (tableMap : TableMap) (catalog : Catalog) (isFree : Bool)

/--
The records that are due for the first `n` root pages, each with the table it goes to.
-/
def due (pending : Nat → List DBRecord) (n : Nat) : List (TablePtr × DBRecord) :=
  (List.range n).flatMap fun i =>
    match resolve tableMap catalog i with
    | some table => (pending i).map fun record => (table, record)
    | none => []

def applyAll (tables : σ) (records : List (TablePtr × DBRecord)) : σ :=
  records.foldl (fun tables (table, record) => apply tables table record) tables

theorem applyAll_due_succ (tables : σ) (pending : Nat → List DBRecord) (n : Nat)
    : applyAll apply tables (due tableMap catalog pending (n + 1))
        =
      match resolve tableMap catalog n with
      | some table =>
        (pending n).foldl (fun tables record => apply tables table record)
          (applyAll apply tables (due tableMap catalog pending n))
      | none => applyAll apply tables (due tableMap catalog pending n) := by
  unfold applyAll due
  rw [List.range_succ, List.flatMap_append, List.foldl_append]
  simp only [List.flatMap_cons, List.flatMap_nil, List.append_nil]
  split
  . rw [List.foldl_map]
  . rfl

/--
The root pages below `n` that have a table have been emptied.
-/
def kept (pending : Nat → List DBRecord) (n i : Nat) : List DBRecord :=
  if i < n ∧ (resolve tableMap catalog i).isSome then [] else pending i

theorem Repr.foldlM_updateTable (h : log.Repr cells) (tables : σ) (n : Nat) (hn : n ≤ cells.length)
    : ∃ log' cells',
        (List.range n).foldlM (updateTable apply tableMap catalog isFree) (log, tables)
          = some (log', applyAll apply tables (due tableMap catalog (records cells) n)) ∧
        log'.Repr cells' ∧
        cells'.length = cells.length ∧
        ∀ i, records cells' i = kept tableMap catalog (records cells) n i := by
  induction n with
  | zero =>
    refine ⟨log, cells, rfl, h, rfl, ?_⟩
    intro i
    simp [kept]
  | succ n ih =>
    obtain ⟨log₁, cells₁, heq, hrepr, hlen, hrecords⟩ := ih (by omega)
    rw [List.range_succ, List.foldlM_append, heq, applyAll_due_succ]
    simp only [Option.bind_eq_bind, Option.bind_some, List.foldlM_cons, List.foldlM_nil, updateTable]
    cases hres : resolve tableMap catalog n with
    | none =>
      refine ⟨log₁, cells₁, rfl, hrepr, hlen, ?_⟩
      intro i
      rw [hrecords]
      unfold kept
      by_cases hi : i = n
      . simp [hi, hres]
      . congr 1
        simp only [eq_iff_iff, and_congr_left_iff]
        omega
    | some table =>
      obtain ⟨log₂, hdrain, hrepr₂, -⟩ := hrepr.drainTable (i := n) (by omega)
        (fun tables record => apply tables table record) isFree
        (applyAll apply tables (due tableMap catalog (records cells) n))
      have hn : records cells₁ n = records cells n := by
        rw [hrecords]
        simp [kept]
      simp only [hdrain, hn, Option.pure_def, Option.bind_some]
      refine ⟨log₂, cells₁.set n [], rfl, hrepr₂, by simpa using hlen, ?_⟩
      intro i
      rw [records_set (by omega), hrecords]
      unfold kept
      by_cases hi : n = i
      . subst hi
        simp [hres]
      . rw [if_neg hi]
        congr 1
        simp only [eq_iff_iff, and_congr_left_iff]
        omega

end

theorem Repr.foldlM_clear (h : log.Repr cells) (n : Nat) (hn : n ≤ cells.length)
    : ∃ log' cells',
        (List.range n).foldlM (fun log tableIndex => do
          let (log, _) ← HustleMemLog.drainTable log tableIndex (fun (s : Unit) _ => s) true ()
          return log) log = some log' ∧
        log'.Repr cells' ∧
        cells'.length = cells.length ∧
        ∀ i, records cells' i = if i < n then [] else records cells i := by
  induction n with
  | zero => exact ⟨log, cells, rfl, h, rfl, by simp⟩
  | succ n ih =>
    obtain ⟨log₁, cells₁, heq, hrepr, hlen, hrecords⟩ := ih (by omega)
    obtain ⟨log₂, hdrain, hrepr₂, -⟩ :=
      hrepr.drainTable (i := n) (by omega) (fun (s : Unit) _ => s) true ()
    rw [List.range_succ, List.foldlM_append, heq]
    simp only [Option.bind_eq_bind, Option.bind_some, List.foldlM_cons, List.foldlM_nil, hdrain,
      Option.pure_def]
    refine ⟨log₂, cells₁.set n [], rfl, hrepr₂, by simpa using hlen, ?_⟩
    intro i
    rw [records_set (by omega), hrecords]
    by_cases hi : n = i
    . simp [hi]
    . rw [if_neg hi]
      congr 1
      simp only [eq_iff_iff]
      omega

/--
The memlog is well formed and holds exactly the given records for every root page.
-/
def Holds (log : HustleMemLog) (pending : Nat → List DBRecord) : Prop :=
  ∃ cells, log.Repr cells ∧ 0 < cells.length ∧ pending = records cells

variable {pending : Nat → List DBRecord}

theorem new_holds {initialSize : Nat} (h : new initialSize = some log) : log.Holds fun _ => [] := by
  unfold new at h
  split at h
  . simp at h
  . next hpos =>
    injection h with h
    subst h
    refine ⟨_, replicate_repr _ _ _, ?_, ?_⟩
    . simpa using Nat.pos_of_ne_zero hpos
    . funext i
      unfold records
      rw [List.getElem?_replicate]
      split <;> rfl

theorem Holds.insertRecord (h : log.Holds pending) (record : DBRecord) (tableId : Nat)
    : ∃ log', log.insertRecord record tableId = some log' ∧
        log'.Holds (Function.update pending tableId (pending tableId ++ [record])) := by
  obtain ⟨cells, hrepr, hpos, rfl⟩ := h
  obtain ⟨log', cells', heq, hrepr', hpos', hrecords⟩ := hrepr.insertRecord hpos record tableId
  refine ⟨log', heq, cells', hrepr', hpos', ?_⟩
  funext i
  rw [hrecords]
  by_cases hi : tableId = i
  . subst hi
    simp
  . rw [if_neg hi, Function.update_of_ne (Ne.symm hi)]

theorem records_of_length_le {i : Nat} (h : cells.length ≤ i) : records cells i = [] := by
  unfold records
  rw [List.getElem?_eq_none h]
  rfl

theorem Holds.updateDb {σ : Type} (h : log.Holds pending) (apply : σ → TablePtr → DBRecord → σ)
    (tableMap : TableMap) (catalog : Catalog) (isFree : Bool) (tables : σ)
    : ∃ log',
        log.updateDb apply tableMap catalog isFree tables
          = some (log', applyAll apply tables (due tableMap catalog pending log.recordList.length)) ∧
        log'.Holds (fun i => if (resolve tableMap catalog i).isSome then [] else pending i) ∧
        ∀ i, log.recordList.length ≤ i → pending i = [] := by
  obtain ⟨cells, hrepr, hpos, rfl⟩ := h
  have hlen := hrepr.length_eq
  obtain ⟨log', cells', heq, hrepr', hlen', hrecords⟩ :=
    hrepr.foldlM_updateTable apply tableMap catalog isFree tables cells.length (Nat.le_refl _)
  rw [← hlen] at heq
  refine ⟨log', heq, ⟨cells', hrepr', by omega, ?_⟩, ?_⟩
  . funext i
    rw [hrecords]
    unfold kept
    by_cases hi : i < cells.length
    . simp [hi]
    . simp [hi, records_of_length_le (Nat.le_of_not_lt hi)]
  . intro i hi
    exact records_of_length_le (by omega)

theorem Holds.clear (h : log.Holds pending)
    : ∃ log', log.clear = some log' ∧ log'.Holds fun _ => [] := by
  obtain ⟨cells, hrepr, hpos, rfl⟩ := h
  have hlen := hrepr.length_eq
  obtain ⟨log', cells', heq, hrepr', hlen', hrecords⟩ :=
    hrepr.foldlM_clear cells.length (Nat.le_refl _)
  rw [← hlen] at heq
  refine ⟨log', heq, cells', hrepr', by omega, ?_⟩
  funext i
  rw [hrecords]
  split
  . rfl
  . next hi => rw [records_of_length_le (by omega)]

theorem Holds.head_isSome_iff (h : log.Holds pending) (i : Nat)
    : (log.recordList[i]?.bind SList.Header.head).isSome ↔ pending i ≠ [] := by
  obtain ⟨cells, hrepr, -, rfl⟩ := h
  have hlen := hrepr.length_eq
  by_cases hi : i < cells.length
  . obtain ⟨l, hl, hlrepr⟩ := hrepr.list i _ (List.getElem?_eq_getElem hi)
    have hchain := hlrepr.chain
    rw [hl]
    unfold records
    rw [List.getElem?_eq_getElem hi]
    cases hcells : cells[i] with
    | nil =>
      rw [hcells] at hchain
      simp [show l.head = none from hchain]
    | cons cell cs =>
      rw [hcells] at hchain
      simp [hchain.1]
  . rw [List.getElem?_eq_none (by omega), records_of_length_le (by omega)]
    simp

section

variable {σ : Type}

theorem drainTable_empty {i : Nat} (h : log.recordList[i]? = some SList.Header.empty)
    (f : σ → DBRecord → σ) (isFree : Bool) (s : σ)
    : log.drainTable i f isFree s = some (log, s) := by
  have hset : log.recordList.set i SList.Header.empty = log.recordList := by
    obtain ⟨hlt, heq⟩ := List.getElem?_eq_some_iff.mp h
    rw [← heq, List.set_getElem_self]
  have hdrain : SList.drain f isFree log.heap.keys.length log.heap SList.Header.empty.head s
      = some (log.heap, s) := by
    cases log.heap.keys.length <;> rfl
  unfold HustleMemLog.drainTable
  simp only [h, hdrain, Option.bind_eq_bind, Option.bind_some, hset, Option.pure_def]

theorem Repr.recordList_of_records_nil (h : log.Repr cells) {i : Nat} (hi : i < cells.length)
    (hnil : records cells i = [])
    : log.recordList[i]? = some SList.Header.empty := by
  obtain ⟨l, hl, hrepr⟩ := h.list i _ (List.getElem?_eq_getElem hi)
  have hcells : cells[i] = [] := by
    simpa [records, List.getElem?_eq_getElem hi] using hnil
  rw [hcells] at hrepr
  rw [hl, hrepr.eq_empty]

theorem Holds.updateDb_congr (h : log.Holds pending) (apply : σ → TablePtr → DBRecord → σ)
    {tableMap tableMap' : TableMap} {catalog : Catalog}
    (hres : ∀ i, pending i ≠ [] → resolve tableMap catalog i = resolve tableMap' catalog i)
    (isFree : Bool) (tables : σ)
    : log.updateDb apply tableMap catalog isFree tables
        =
      log.updateDb apply tableMap' catalog isFree tables := by
  obtain ⟨cells, hrepr, -, rfl⟩ := h
  have hstep : ∀ n, n ≤ cells.length
      → (List.range n).foldlM (updateTable apply tableMap catalog isFree) (log, tables)
        = (List.range n).foldlM (updateTable apply tableMap' catalog isFree) (log, tables) := by
    intro n hn
    induction n with
    | zero => rfl
    | succ n ih =>
      obtain ⟨log₁, cells₁, heq, hrepr₁, hlen, hrecords⟩ :=
        hrepr.foldlM_updateTable apply tableMap' catalog isFree tables n (by omega)
      rw [List.range_succ, List.foldlM_append, List.foldlM_append, ih (by omega), heq]
      simp only [Option.bind_eq_bind, Option.bind_some, List.foldlM_cons, List.foldlM_nil]
      by_cases hnil : records cells n = []
      . have hempty := hrepr₁.recordList_of_records_nil (i := n) (by omega) (by
          rw [hrecords]
          simp [kept, hnil])
        unfold updateTable
        simp only [drainTable_empty hempty]
        split <;> split <;> rfl
      . rw [updateTable, updateTable, hres n hnil]
  have hlen := hrepr.length_eq
  unfold HustleMemLog.updateDb
  rw [hlen]
  exact hstep cells.length (Nat.le_refl _)

end

end HustleMemLog

end Hustle.Memlog
