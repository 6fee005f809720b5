import Umink.Library.HashTable
import Umink.Library.SqlNumeric
import Umink.Library.Trace
import Umink.Umdb.UserAuth

/-!
# The store of custom user data

`umdb_mngr_store_init` declares both columns of a store with the type `STRING`,
which names no other affinity, so that they have NUMERIC affinity. A store keeps
texts exactly as long as no key looks like a number and no value changes when it
is read as a number and printed again.

## Implementation notes

The functions work on one store; their table name only selects it.
-/

namespace Umink.Umdb

open Umink.Library SqlNumeric

/-- A row of a store. -/
structure StoreRow (ρ : Type*) where
  k : SqlValue ρ
  v : SqlValue ρ

/-- The rows of a store, unique by key. -/
abbrev Store (ρ : Type*) := List (StoreRow ρ)

section Functions

variable {ρ : Type*} [DecidableEq ρ] (R : RealConv ρ)

/-- `SQL_STORAGE_SET`. -/
def sqlStorageSet (s : Store ρ) (k v : CStr) : Store ρ :=
  let k := applyNumeric R k
  match HashTable.find StoreRow.k s k with
  | some _ => HashTable.modify StoreRow.k s k fun row => { row with v := applyNumeric R v }
  | none => HashTable.add s ⟨k, applyNumeric R v⟩

/-- The row of `SQL_STORAGE_GET`. -/
def sqlStorageGet (s : Store ρ) (k : CStr) : Option (SqlValue ρ) :=
  (HashTable.find StoreRow.k s (applyNumeric R k)).map StoreRow.v

/-- `umdb_mngr_store_set`: the code and the store. -/
def umdbMngrStoreSet (m : Option (Store ρ)) (sql : SqlCalls) (k v : Option CStr) :
    Nat × Option (Store ρ) :=
  match m, k, v with
  | some s, some k, some v =>
      if !sql.prepare then (2, m)
      else if !sql.bind 1 then (3, m)
      else if !sql.bind 2 then (4, m)
      else if !sql.bind 3 then (5, m)
      else
        let m := some (if sql.step then sqlStorageSet R s k v else s)
        if !sql.clearBindings then (6, m)
        else if !sql.reset then (7, m)
        else if !sql.finalize then (8, m)
        else if !sql.step then (9, m)
        else (0, m)
  | _, _, _ => (1, m)

/-- `umdb_mngr_store_get`: the code, `*out` and `*out_sz`. -/
def umdbMngrStoreGet (m : Option (Store ρ)) (sql : SqlCalls) (k : Option CStr)
    (out : Option CStr) (outSz : Int) : Nat × Option CStr × Int :=
  match m, k with
  | some s, some k =>
      if !sql.prepare then (3, out, outSz)
      else if !sql.bind 1 then (4, out, outSz)
      else
        -- get value
        let row := if sql.step then sqlStorageGet R s k else none
        let (r, out, outSz) : Int × Option CStr × Int :=
          match row with
          | some v =>
              let v := columnText R v
              (int32 v.length, some v, int32 v.length + 1)
          | none => (0, out, 0)
        if !sql.clearBindings then (5, out, outSz)
        else if !sql.reset then (6, out, outSz)
        else if !sql.finalize then (7, out, outSz)
        else (if r > 0 then 0 else 8, out, outSz)
  | _, _ => (1, out, outSz)

/-- A call of `umdb_mngr_store_set`. SQLite binds only texts of less than 2^31 bytes. -/
structure SetCall where
  sql : SqlCalls
  k : CStr
  v : CStr
  nonempty : 0 < v.length
  bound : v.length < 2 ^ 31

/-- A successful call. -/
def Store.step (s : Store ρ) (a : SetCall) : Option (Store ρ) :=
  match umdbMngrStoreSet R (some s) a.sql (some a.k) (some a.v) with
  | (0, s) => s
  | _ => none

end Functions

/-- The last value that was set for every key string. -/
abbrev Texts := CStr → Option CStr

def note {ρ : Type*} (_ : Store ρ) (m : Texts) (a : SetCall) : Texts :=
  Function.update m a.k (some a.v)

/-- Every query of a key string that succeeds returns the text of the last value
that was set for it, and error 8 when there is none. -/
def Exact {ρ : Type*} [DecidableEq ρ] (R : RealConv ρ) (s : Store ρ) (m : Texts) : Prop :=
  ∀ (k : CStr) (sql : SqlCalls) (out : Option CStr) (outSz : Int), sql.Ok →
    umdbMngrStoreGet R (some s) sql (some k) out outSz =
      match m k with
      | some v => (0, some v, v.length + 1)
      | none => (8, out, 0)

/-- The key does not look like a number, and the value is not changed by the
conversion to a number and back. -/
def SetCall.Plain {ρ : Type*} (R : RealConv ρ) (a : SetCall) : Prop :=
  parseNum a.k.bytes = none ∧ KeepsText R a.v

section Effects

variable {ρ : Type*} [DecidableEq ρ] {R : RealConv ρ} {s s' : Store ρ} {m : Texts}

/-- A call that returns 0 has set the row: its statement was run, and no later error
took its place. -/
theorem umdbMngrStoreSet_of_zero {sql : SqlCalls} {k v : CStr} {t : Option (Store ρ)}
    (h : umdbMngrStoreSet R (some s) sql (some k) (some v) = (0, t)) :
    t = some (sqlStorageSet R s k v) := by
  unfold umdbMngrStoreSet at h
  cases hstep : sql.step with
  | true =>
      simp only [hstep, if_true, Bool.not_true, Bool.false_eq_true, if_false] at h
      split_ifs at h
      all_goals
        obtain ⟨hcode, rfl⟩ := Prod.mk.inj h
        first
        | rfl
        | cases hcode
  | false =>
      simp only [hstep, Bool.not_false, Bool.false_eq_true, if_true, if_false] at h
      split_ifs at h <;> cases (Prod.mk.inj h).1

/-- A successful call sets the row. -/
theorem step_eq {a : SetCall} (h : s.step R a = some s') : s' = sqlStorageSet R s a.k a.v := by
  unfold Store.step at h
  split at h
  · next t hcall =>
    have ht := umdbMngrStoreSet_of_zero hcall
    exact Option.some.inj (h.symm.trans ht)
  · cases h

/-- What the rows of a store are under every key. -/
theorem sqlStorageGet_set (s : Store ρ) (k v k' : CStr) :
    sqlStorageGet R (sqlStorageSet R s k v) k' =
      if applyNumeric R k' = applyNumeric R k then some (applyNumeric R v)
      else sqlStorageGet R s k' := by
  unfold sqlStorageGet sqlStorageSet
  dsimp only
  cases hfind : HashTable.find StoreRow.k s (applyNumeric R k) with
  | some row =>
      have hmodify := @HashTable.find_modify _ _ _ StoreRow.k s (applyNumeric R k)
        (fun row => { row with v := applyNumeric R v }) (fun _ h => h) (applyNumeric R k')
      dsimp only
      rw [hmodify, hfind]
      split_ifs <;> rfl
  | none =>
      dsimp only
      rw [HashTable.find_add]
      by_cases heq : applyNumeric R k' = applyNumeric R k
      · rw [if_pos heq, if_pos heq.symm]
        rfl
      · rw [if_neg heq, if_neg fun h => heq h.symm]

/-- What a query that succeeds returns. -/
theorem umdbMngrStoreGet_of_ok {sql : SqlCalls} (hsql : sql.Ok) (k : CStr) (out : Option CStr)
    (outSz : Int) :
    umdbMngrStoreGet R (some s) sql (some k) out outSz =
      match sqlStorageGet R s k with
      | some v => (if int32 (columnText R v).length > 0 then 0 else 8, some (columnText R v),
          int32 (columnText R v).length + 1)
      | none => (8, out, 0) := by
  obtain ⟨hprepare, h₁, -, -, hclear, hreset, hfinalize⟩ := hsql
  have hstep := sql.step_of_reset hreset
  simp only [umdbMngrStoreGet, hprepare, h₁, hstep, hclear, hreset, hfinalize, if_true,
    Bool.not_true, Bool.false_eq_true, if_false]
  cases sqlStorageGet R s k <;> rfl

/-- The rows are those of the texts that were set, all of them kept by the
conversion. -/
structure Inv (R : RealConv ρ) (s : Store ρ) (m : Texts) : Prop where
  stored : ∀ k, sqlStorageGet R s k = (m k).map (applyNumeric R)
  key : ∀ k v, m k = some v → parseNum k.bytes = none
  value : ∀ k v, m k = some v → KeepsText R v ∧ 0 < v.length ∧ v.length < 2 ^ 31

theorem inv_init : Inv R [] fun _ => none where
  stored _ := rfl
  key := by simp
  value := by simp

theorem int32_of_lt {n : Nat} (h : n < 2 ^ 31) : int32 n = n := by
  unfold int32
  omega

theorem Inv.exact (h : Inv R s m) : Exact R s m := by
  intro k sql out outSz hsql
  rw [umdbMngrStoreGet_of_ok hsql, h.stored k]
  cases hm : m k with
  | none => rfl
  | some v =>
      obtain ⟨hkeeps, hpos, hbound⟩ := h.value k v hm
      simp only [Option.map_some, (columnText_applyNumeric_iff v).mpr hkeeps, int32_of_lt hbound]
      rw [if_pos (by omega)]

/-- A call that sets a kept value under a key that is no number keeps the rows
of all other keys. -/
theorem Inv.step (h : Inv R s m) {a : SetCall} (hplain : a.Plain R) :
    Inv R (sqlStorageSet R s a.k a.v) (note s m a) := by
  refine ⟨?_, ?_, ?_⟩
  · intro k
    rw [sqlStorageGet_set, note, Function.update_apply, h.stored k]
    by_cases hk : k = a.k
    · rw [if_pos hk, if_pos (congrArg _ hk), Option.map_some]
    · rw [if_neg hk, if_neg fun heq => hk ((applyNumeric_eq_iff hplain.1 k).mp heq)]
  · intro k v hkv
    rw [note, Function.update_apply] at hkv
    split_ifs at hkv with hk
    · exact hk ▸ hplain.1
    · exact h.key k v hkv
  · intro k v hkv
    rw [note, Function.update_apply] at hkv
    split_ifs at hkv with hk
    · obtain rfl := Option.some.inj hkv
      exact ⟨hplain.2, a.nonempty, a.bound⟩
    · exact h.value k v hkv

/-- No value was set for a number with a space before it. -/
theorem Inv.free_of_number (h : Inv R s m) {k : CStr} (hnum : parseNum k.bytes ≠ none) :
    m (padded k) = none := by
  cases hm : m (padded k) with
  | none => rfl
  | some v => exact absurd (h.key _ v hm) hnum

/-- After a call whose key looks like a number, the same key with a space before
it is answered too; after one whose value changes, the key itself is not
answered with the value. -/
theorem Inv.plain_of_exact (h : Inv R s m) {a : SetCall}
    (hexact : Exact R (sqlStorageSet R s a.k a.v) (note s m a)) : a.Plain R := by
  have hkey : parseNum a.k.bytes = none := by
    by_contra hnum
    have hget := hexact (padded a.k) .success none 0 (by decide)
    rw [umdbMngrStoreGet_of_ok (by decide), sqlStorageGet_set,
      if_pos (applyNumeric_padded hnum), note, Function.update_of_ne (padded_ne a.k),
      h.free_of_number hnum] at hget
    simp at hget
  refine ⟨hkey, ?_⟩
  have hget := hexact a.k .success none 0 (by decide)
  rw [umdbMngrStoreGet_of_ok (by decide), sqlStorageGet_set, if_pos rfl, note,
    Function.update_self] at hget
  simp only [Prod.mk.injEq, Option.some.injEq] at hget
  exact (columnText_applyNumeric_iff a.v).mp hget.2.1

end Effects

/-- The store answers every key string with the text that was last set for it,
after each of a sequence of successful calls, exactly when no call sets a key
that looks like a number or a value that the conversion to a number changes. -/
theorem store_exact_iff {ρ : Type*} [DecidableEq ρ] (R : RealConv ρ) (calls : List SetCall) :
    Trace.Along (Trace.ghost (Store.step R) note) (fun _ _ t => Exact R t.1 t.2)
        ([], fun _ => none) calls ↔
      Trace.Along (Store.step R) (fun _ a _ => a.Plain R) [] calls := by
  rw [← Trace.along_ghost_iff note (fun _ => none)]
  refine (Trace.along_iff_of_invariant (I := fun s => Inv R s.1 s.2) ?_ ?_ inv_init calls).symm
  · rintro s a t hs hst
    obtain ⟨hstep, hnote⟩ := Trace.ghost_eq_some_iff.mp hst
    rw [step_eq hstep, ← hnote]
    exact ⟨fun hplain => (hs.step hplain).exact, fun hexact => hs.plain_of_exact hexact⟩
  · rintro s a t hs hplain hst
    obtain ⟨hstep, hnote⟩ := Trace.ghost_eq_some_iff.mp hst
    rw [step_eq hstep, ← hnote]
    exact hs.step hplain

/-- Floating point that knows one number, 0.5. -/
def halfConv : RealConv Unit where
  ofLit _ := ()
  toInt _ := none
  toText _ := ⟨[48, 46, 53], by decide⟩

/-- The value `"007"` is returned as `"7"`, and a value set for the key `"01"` is
returned for the key `"1"`. -/
theorem store_drops_zeros :
    ∃ s s' : Store Unit,
      Store.step halfConv [] ⟨.success, ⟨[97], by decide⟩, ⟨[48, 48, 55], by decide⟩, by decide,
        by decide⟩ = some s ∧
      umdbMngrStoreGet halfConv (some s) .success (some ⟨[97], by decide⟩) none 0 =
        (0, some ⟨[55], by decide⟩, 2) ∧
      Store.step halfConv [] ⟨.success, ⟨[48, 49], by decide⟩, ⟨[120], by decide⟩, by decide,
        by decide⟩ = some s' ∧
      umdbMngrStoreGet halfConv (some s') .success (some ⟨[49], by decide⟩) none 0 =
        (0, some ⟨[120], by decide⟩, 2) :=
  ⟨_, _, rfl, by decide, rfl, by decide⟩

end Umink.Umdb
