import Mathlib.Logic.Function.Iterate
import Hustle.Storage.Record

/-!
This module contains what an update does to a row and to the record that is written, column by column
and without the table around them. The integers of the record are reversed in place every time they are
read, so what ends up in the row depends on how often that happens before the last string is updated.
-/

namespace Hustle.Storage

namespace Field

def value (type : FieldType) (x : Field) : Cell :=
  match type with
  | .int64 =>
    if x.byteWidth = -(zeroTypeEncoding : Int) then
      .int64 0
    else if x.byteWidth = -(oneTypeEncoding : Int) then
      .int64 1
    else
      .int64 (BitVec.ofNat 64 (Bytes.beNat x.bytes))
  | .string => .string x.bytes

/--
The fields that are considered: integers of less than eight bytes, the constants and text.
-/
def Short (type : FieldType) (x : Field) : Prop :=
  x.WellFormed type ∧
    match type with
    | .int64 =>
      x.byteWidth < fieldSize ∧
      (x.byteWidth < 0 →
        x.byteWidth = -(zeroTypeEncoding : Int) ∨ x.byteWidth = -(oneTypeEncoding : Int))
    | .string => True

instance : Decidable (Short type x) :=
  match type with
  | .int64 => inferInstanceAs (Decidable (_ ∧ _ ∧ (_ → _)))
  | .string => inferInstanceAs (Decidable (_ ∧ _))

theorem Short.stored_eq (h : Short type x) : x.stored type = x.value type := by
  cases type with
  | string => rfl
  | int64 =>
    obtain ⟨hwf, hlt, hneg⟩ := h
    simp only [stored, storedInt, value]
    rw [if_neg (by omega)]
    split
    . next hlt0 =>
      rcases hneg hlt0 with hzero | hone
      . rw [hzero]
        rfl
      . rw [hone]
        rfl
    . next hge =>
      rw [if_neg (by simp [zeroTypeEncoding]; omega), if_neg (by simp [oneTypeEncoding]; omega)]

theorem Short.inserted_inserted (h : Short type x) : (x.inserted type).inserted type = x := by
  cases type with
  | string => rfl
  | int64 =>
    obtain ⟨-, hlt, -⟩ := h
    have hne : ¬x.byteWidth = fieldSize := by omega
    simp [inserted, hne]

theorem Short.inserted (h : Short type x) : Short type (x.inserted type) := by
  refine ⟨inserted_wellFormed h.1, ?_⟩
  cases type with
  | string => trivial
  | int64 =>
    rw [inserted_byteWidth]
    exact h.2

theorem inserted_of_reverse (type : FieldType) {x : Field} (h : x.bytes = x.bytes.reverse)
    : x.inserted type = x := by
  cases type with
  | string => rfl
  | int64 =>
    simp only [Field.inserted]
    split
    . rfl
    . rw [← h]

/--
A field that has been reversed `n` times.
-/
theorem Short.iterate_inserted (h : Short type x) (n : Nat) (hx : n % 2 = 1 → x.bytes = x.bytes.reverse)
    : (Field.inserted type)^[n] x = x := by
  have htwo : ∀ k, (Field.inserted type)^[2 * k] x = x := by
    intro k
    induction k with
    | zero => rfl
    | succ k ih =>
      rw [Nat.mul_succ, Function.iterate_add_apply]
      simp only [Function.iterate_succ, Function.iterate_zero, Function.comp_apply, id_eq,
        h.inserted_inserted, ih]
  by_cases hodd : n % 2 = 1
  . have hn : n = 2 * (n / 2) + 1 := by omega
    rw [hn, Function.iterate_succ_apply, inserted_of_reverse type (hx hodd), htwo]
  . have hn : n = 2 * (n / 2) := by omega
    rw [hn, htwo]

theorem iterate_inserted_string (n : Nat) (x : Field) : (Field.inserted .string)^[n] x = x := by
  induction n with
  | zero => rfl
  | succ n ih => exact ih

end Field

def recordRow (fields : List FieldType) (xs : List Field) : Row :=
  List.zipWith Field.value fields xs

def IsString (fields : List FieldType) (c : Nat) : Prop :=
  fields[c]? = some .string

instance : Decidable (IsString fields c) :=
  inferInstanceAs (Decidable (_ = _))

/--
How often the bytes of the integer in column `c` are reversed before the record is inserted for the
last time. Every update of a string inserts the record and thereby reverses all integers, every update
of an integer reverses that one.
-/
def reversals (fields : List FieldType) (c : Nat) : List Nat → Nat
  | [] => 0
  | d :: cols =>
    (if (∃ s ∈ cols, IsString fields s) ∧ (IsString fields d ∨ d = c) then 1 else 0)
      + reversals fields c cols

/--
What an update does to the row and to the record, where `live` says whether integers are still patched
in the block that holds the row.
-/
def replay (fields : List FieldType) : Bool → List Nat → List Field → Row → Row
  | _, [], _, row => row
  | live, c :: cols, ys, row =>
    if IsString fields c then
      replay fields false cols (insertedRecord fields ys) (storedRow fields ys)
    else
      match ys[c]? with
      | some y =>
        replay fields live cols (ys.set c (y.inserted .int64))
          (if live then row.set c (y.stored .int64) else row)
      | none => row

section

variable {fields : List FieldType} {k : Nat} {type : FieldType} {y : Field}

theorem storedRow_getElem? {ys : List Field} (hk : fields[k]? = some type) (hy : ys[k]? = some y)
    : (storedRow fields ys)[k]? = some (y.stored type) := by
  simp [storedRow, List.getElem?_zipWith, hk, hy]

theorem insertedRecord_getElem? {ys : List Field} (hk : fields[k]? = some type) (hy : ys[k]? = some y)
    : (insertedRecord fields ys)[k]? = some (y.inserted type) := by
  simp [insertedRecord, List.getElem?_zipWith, hk, hy]

theorem length_insertedRecord {ys : List Field} (hlen : ys.length = fields.length)
    : (insertedRecord fields ys).length = fields.length := by
  simp [insertedRecord, hlen]

theorem length_replay (live : Bool) (cols : List Nat) {ys : List Field} {row : Row}
    (hlen : ys.length = fields.length) (hrow : row.length = fields.length)
    : (replay fields live cols ys row).length = fields.length := by
  induction cols generalizing live ys row with
  | nil => exact hrow
  | cons c cols ih =>
    unfold replay
    split
    . apply ih
      . exact length_insertedRecord hlen
      . simp [storedRow, hlen]
    . split
      . apply ih
        . simpa using hlen
        . split
          . simpa using hrow
          . exact hrow
      . exact hrow

theorem reversals_eq_zero {cols : List Nat} (h : ∀ s ∈ cols, ¬IsString fields s) (c : Nat)
    : reversals fields c cols = 0 := by
  induction cols with
  | nil => rfl
  | cons d cols ih =>
    have hcols : ∀ s ∈ cols, ¬IsString fields s := fun s hs => h s (List.mem_cons_of_mem d hs)
    rw [reversals, ih hcols, if_neg]
    rintro ⟨⟨s, hs, hstring⟩, -⟩
    exact hcols s hs hstring

theorem replay_stale {cols : List Nat} (h : ∀ s ∈ cols, ¬IsString fields s) (ys : List Field) (row : Row)
    : replay fields false cols ys row = row := by
  induction cols generalizing ys with
  | nil => rfl
  | cons d cols ih =>
    unfold replay
    rw [if_neg (h d (by simp))]
    split
    . simp only [Bool.false_eq_true, ↓reduceIte]
      exact ih (fun s hs => h s (List.mem_cons_of_mem d hs)) _
    . rfl

/--
With a string the row is what the record has become by the last one.
-/
theorem replay_string {live : Bool} {cols : List Nat} (hstring : ∃ s ∈ cols, IsString fields s)
    (hcols : ∀ c ∈ cols, c < fields.length) {ys : List Field} (hlen : ys.length = fields.length)
    (row : Row) (hk : fields[k]? = some type) (hy : ys[k]? = some y)
    : (replay fields live cols ys row)[k]?
        =
      some (((Field.inserted type)^[reversals fields k cols] y).stored type) := by
  induction cols generalizing live ys row y with
  | nil => simp at hstring
  | cons d cols ih =>
    have hcols' : ∀ c ∈ cols, c < fields.length := fun c hc => hcols c (List.mem_cons_of_mem d hc)
    unfold replay reversals
    by_cases hd : IsString fields d
    . rw [if_pos hd]
      by_cases hrest : ∃ s ∈ cols, IsString fields s
      . rw [if_pos ⟨hrest, Or.inl hd⟩, Nat.add_comm, Function.iterate_succ_apply]
        exact ih hrest hcols' (length_insertedRecord hlen) _ (insertedRecord_getElem? hk hy)
      . have hnone : ∀ s ∈ cols, ¬IsString fields s := fun s hs hstr => hrest ⟨s, hs, hstr⟩
        rw [if_neg (fun h => hrest h.1), reversals_eq_zero hnone, replay_stale hnone]
        exact storedRow_getElem? hk hy
    . have hrest : ∃ s ∈ cols, IsString fields s := by
        obtain ⟨s, hs, hstr⟩ := hstring
        cases List.mem_cons.mp hs with
        | inl heq => exact absurd (heq ▸ hstr) hd
        | inr hmem => exact ⟨s, hmem, hstr⟩
      have hlt := hcols d (by simp)
      obtain ⟨z, hz⟩ : ∃ z, ys[d]? = some z := ⟨_, List.getElem?_eq_getElem (by omega)⟩
      rw [if_neg hd, hz]
      dsimp only
      by_cases hdk : d = k
      . subst hdk
        have htype : type = .int64 := by
          cases type with
          | int64 => rfl
          | string => exact absurd hk hd
        rw [hy] at hz
        injection hz with hz
        subst hz htype
        have hcond : (∃ s ∈ cols, IsString fields s) ∧ (IsString fields d ∨ d = d) :=
          ⟨hrest, Or.inr rfl⟩
        rw [if_pos hcond, Nat.add_comm 1, Function.iterate_succ_apply]
        exact ih hrest hcols' (by simpa using hlen) _ (by simp [hlt, hlen])
      . have hcond : ¬((∃ s ∈ cols, IsString fields s) ∧ (IsString fields d ∨ d = k)) := by
          rintro ⟨-, h | h⟩
          . exact hd h
          . exact hdk h
        rw [if_neg hcond, Nat.zero_add]
        exact ih hrest hcols' (by simpa using hlen) _ (by rw [List.getElem?_set_ne hdk, hy])

theorem replay_patches {cols : List Nat} (hnone : ∀ s ∈ cols, ¬IsString fields s) (hnodup : cols.Nodup)
    (hcols : ∀ c ∈ cols, c < fields.length) {ys : List Field} (hlen : ys.length = fields.length)
    {row : Row} (hrow : row.length = fields.length) (hk : fields[k]? = some type) (hy : ys[k]? = some y)
    : (replay fields true cols ys row)[k]?
        =
      if k ∈ cols then some (y.stored type) else row[k]? := by
  induction cols generalizing ys row y with
  | nil => simp [replay]
  | cons d cols ih =>
    have hd := hnone d (by simp)
    have hlt := hcols d (by simp)
    obtain ⟨hfresh, hnodup'⟩ := List.nodup_cons.mp hnodup
    obtain ⟨z, hz⟩ : ∃ z, ys[d]? = some z := ⟨_, List.getElem?_eq_getElem (by omega)⟩
    have hnone' : ∀ s ∈ cols, ¬IsString fields s := fun s hs => hnone s (List.mem_cons_of_mem d hs)
    have hcols' : ∀ c ∈ cols, c < fields.length := fun c hc => hcols c (List.mem_cons_of_mem d hc)
    unfold replay
    rw [if_neg hd, hz]
    simp only [↓reduceIte, List.mem_cons]
    by_cases hdk : d = k
    . subst hdk
      have htype : type = .int64 := by
        cases type with
        | int64 => rfl
        | string => exact absurd hk hd
      rw [hy] at hz
      injection hz with hz
      subst hz htype
      rw [ih hnone' hnodup' hcols' (by simpa using hlen) (by simpa using hrow) (y := y.inserted .int64)
        (by simp [hlt, hlen])]
      simp [hfresh, hrow, hlt]
    . rw [ih hnone' hnodup' hcols' (by simpa using hlen) (by simpa using hrow) (y := y)
        (by rw [List.getElem?_set_ne hdk, hy])]
      have : ¬k = d := fun h => hdk h.symm
      simp [this, List.getElem?_set_ne hdk]

end

theorem recordRow_getElem? {fields : List FieldType} {xs : List Field} {k : Nat} {type : FieldType}
    {x : Field} (hk : fields[k]? = some type) (hx : xs[k]? = some x)
    : (recordRow fields xs)[k]? = some (x.value type) := by
  simp [recordRow, List.getElem?_zipWith, hk, hx]

/--
The row ends up as the record says if every integer is reversed an even number of times or does not
mind.
-/
theorem replay_eq_recordRow {fields : List FieldType} {xs : List Field} {cols : List Nat} {row : Row}
    (hshort : List.Forall₂ Field.Short fields xs) (hcols : ∀ c ∈ cols, c < fields.length)
    (hnodup : cols.Nodup) (hrow : row.length = fields.length)
    (hagree : ∀ k, k ∉ cols → row[k]? = (recordRow fields xs)[k]?)
    (horder : ∀ k x, fields[k]? = some .int64 → xs[k]? = some x → reversals fields k cols % 2 = 1 →
      x.bytes = x.bytes.reverse)
    : replay fields true cols xs row = recordRow fields xs := by
  have hlen : xs.length = fields.length := hshort.length_eq.symm
  apply List.ext_getElem?
  intro k
  by_cases hk : k < fields.length
  . obtain ⟨type, htype⟩ : ∃ type, fields[k]? = some type := ⟨_, List.getElem?_eq_getElem hk⟩
    obtain ⟨x, hx⟩ : ∃ x, xs[k]? = some x := ⟨_, List.getElem?_eq_getElem (by omega)⟩
    have hshort' : x.Short type := by
      obtain ⟨hk', rfl⟩ := List.getElem?_eq_some_iff.mp htype
      obtain ⟨hx', rfl⟩ := List.getElem?_eq_some_iff.mp hx
      exact hshort.get hk' hx'
    rw [recordRow_getElem? htype hx, ← hshort'.stored_eq]
    by_cases hstring : ∃ s ∈ cols, IsString fields s
    . rw [replay_string hstring hcols hlen row htype hx]
      cases type with
      | int64 => rw [hshort'.iterate_inserted _ (horder k x htype hx)]
      | string => rw [Field.iterate_inserted_string]
    . have hnone : ∀ s ∈ cols, ¬IsString fields s := fun s hs hstr => hstring ⟨s, hs, hstr⟩
      rw [replay_patches hnone hnodup hcols hlen hrow htype hx]
      split
      . rfl
      . next hmem => rw [hagree k hmem, recordRow_getElem? htype hx, hshort'.stored_eq]
  . rw [List.getElem?_eq_none (by rw [length_replay true cols hlen hrow]; omega)]
    rw [List.getElem?_eq_none (by simp [recordRow, hlen]; omega)]

end Hustle.Storage
