import Mathlib.Data.List.Induction
import Mathlib.Logic.Function.Basic
import Mathlib.Tactic.Common
import Umink.Library.CString

/-!
# Plugin data as Lua tables

`M.get_args` and `M.cmd_call` give a script plugin data as a table of rows. Both
leave out columns without a value and store a named column under its name. A
column without a name is stored under its position by the one and under 1 by the
other, where the next such column overwrites it.

## Implementation notes

The functions read the data through the number of rows, the number of columns of
a row and a column at two indices, as the source does. Indices do not overflow.
-/

namespace Umink.Lua

open Umink.Library

/-- A key of a Lua table. -/
inductive LuaKey where
  | num (n : Nat)
  | str (s : CStr)
  deriving DecidableEq

/-- The entries of a Lua table. -/
abbrev LuaTable (α : Type) := LuaKey → Option α

/-- `lua_settable`. -/
def LuaTable.set {α : Type} (t : LuaTable α) (k : LuaKey) (v : α) : LuaTable α :=
  Function.update t k (some v)

/-- `lua_newtable`. -/
def newTable {α : Type} : LuaTable α := fun _ => none

/-- `umplg_data_std_item_t`. -/
structure StddItem where
  name : CStr
  value : Option CStr

/-- `umplg_data_std_items_t`: the items in the order of the hash table. -/
abbrev StddItems := List StddItem

/-- `umplg_data_std_t`. -/
abbrev Stdd := List StddItems

/-- `mink_cdata_column_t`. -/
structure MinkCdataColumn where
  key : Option CStr
  value : Option CStr

/-- `mink_lua_cmd_data_sz`. -/
def minkLuaCmdDataSz (p : Stdd) : Nat := p.length

/-- `mink_lua_cmd_data_row_sz`. -/
def minkLuaCmdDataRowSz (r : Nat) (p : Stdd) : Nat :=
  match p[r]? with
  | none => 0
  | some row => row.length

/-- `mink_lua_cmd_data_get_column`. -/
def minkLuaCmdDataGetColumn (r c : Nat) (p : Stdd) : MinkCdataColumn :=
  match p[r]? with
  | none => ⟨none, none⟩
  | some row =>
      match row[c]? with
      | none => ⟨none, none⟩
      | some column => ⟨some column.name, column.value⟩

/-- The key of a column whose positional key is `k`. -/
def columnKey (key : Option CStr) (k : Nat) : LuaKey :=
  match key with
  | some s => if 0 < s.length then .str s else .num k
  | none => .num k

/-- A column of a row of `mink_lua_get_args`, with the positional key of the column
before it. -/
def getArgsColumn (t : LuaTable CStr × Nat) (c : MinkCdataColumn) : LuaTable CStr × Nat :=
  match c.value with
  | none => t
  | some v => (t.1.set (columnKey c.key (t.2 + 1)) v, t.2 + 1)

/-- A column of a row of `mink_lua_do_cmd_call`. -/
def cmdCallColumn (t : LuaTable CStr) (c : MinkCdataColumn) : LuaTable CStr :=
  match c.value with
  | none => t
  | some v => t.set (columnKey c.key 1) v

/-- A row of `mink_lua_get_args`. -/
def getArgsRow (d : Stdd) (i : Nat) : LuaTable CStr :=
  ((List.range (minkLuaCmdDataRowSz i d)).foldl
    (fun t j => getArgsColumn t (minkLuaCmdDataGetColumn i j d)) (newTable, 0)).1

/-- A row of `mink_lua_do_cmd_call`. -/
def cmdCallRow (d : Stdd) (i : Nat) : LuaTable CStr :=
  (List.range (minkLuaCmdDataRowSz i d)).foldl
    (fun t j => cmdCallColumn t (minkLuaCmdDataGetColumn i j d)) newTable

/-- The table of `mink_lua_get_args`. -/
def getArgsTable (d : Stdd) : LuaTable (LuaTable CStr) :=
  (List.range (minkLuaCmdDataSz d)).foldl (fun t i => t.set (.num (i + 1)) (getArgsRow d i))
    newTable

/-- The table of `mink_lua_do_cmd_call`. -/
def cmdCallTable (d : Stdd) : LuaTable (LuaTable CStr) :=
  (List.range (minkLuaCmdDataSz d)).foldl (fun t i => t.set (.num (i + 1)) (cmdCallRow d i))
    newTable

/-- The item is a column with a value. -/
def StddItem.delivered (x : StddItem) : Bool := x.value.isSome

/-- The item has a name. -/
def StddItem.Named (x : StddItem) : Prop := 0 < x.name.length

/-- Every column after the first one with a value has a name or no value. -/
def RestNamed (row : StddItems) : Prop :=
  ∀ x ∈ (row.filter StddItem.delivered).tail, x.Named

instance (x : StddItem) : Decidable x.Named := inferInstanceAs (Decidable (_ < _))

instance (row : StddItems) : Decidable (RestNamed row) :=
  inferInstanceAs (Decidable (∀ x ∈ (row.filter StddItem.delivered).tail, x.Named))

/-- The column of an item. -/
def StddItem.column (x : StddItem) : MinkCdataColumn := ⟨some x.name, x.value⟩

section Loops

/-- A loop over the indices of a list is a loop over its elements. -/
theorem foldl_range_getElem? {α β σ : Type*} (xs : List α) (f : Option α → β) (g : σ → β → σ)
    (s : σ) : (List.range xs.length).foldl (fun s j => g s (f xs[j]?)) s =
      xs.foldl (fun s x => g s (f (some x))) s := by
  induction xs using List.reverseRecOn with
  | nil => rfl
  | append_singleton xs x ih =>
      have hbody : (List.range xs.length).foldl (fun s j => g s (f (xs ++ [x])[j]?)) s =
          (List.range xs.length).foldl (fun s j => g s (f xs[j]?)) s := by
        apply List.foldl_ext
        intro s j hj
        rw [List.getElem?_append_left (List.mem_range.mp hj)]
      rw [List.length_append, List.length_singleton, List.range_succ, List.foldl_append, hbody, ih,
        List.foldl_append, List.foldl_cons, List.foldl_nil, List.getElem?_concat_length]
      rfl

variable {d : Stdd} {i : Nat} {row : StddItems}

theorem getColumn_of_row (hrow : d[i]? = some row) (j : Nat) : minkLuaCmdDataGetColumn i j d =
    (row[j]?.map StddItem.column).getD ⟨none, none⟩ := by
  simp only [minkLuaCmdDataGetColumn, hrow]
  cases row[j]? with
  | none => rfl
  | some x => rfl

theorem rowSz_of_row (hrow : d[i]? = some row) : minkLuaCmdDataRowSz i d = row.length := by
  rw [minkLuaCmdDataRowSz, hrow]

theorem getArgsRow_of_row (hrow : d[i]? = some row) :
    getArgsRow d i = (row.foldl (fun t x => getArgsColumn t x.column) (newTable, 0)).1 := by
  simp only [getArgsRow, rowSz_of_row hrow, getColumn_of_row hrow]
  rw [foldl_range_getElem? row (fun x => (x.map StddItem.column).getD ⟨none, none⟩)]
  rfl

theorem cmdCallRow_of_row (hrow : d[i]? = some row) :
    cmdCallRow d i = row.foldl (fun t x => cmdCallColumn t x.column) newTable := by
  simp only [cmdCallRow, rowSz_of_row hrow, getColumn_of_row hrow]
  rw [foldl_range_getElem? row (fun x => (x.map StddItem.column).getD ⟨none, none⟩)]
  rfl

/-- The entries of a table with one row at each number. -/
theorem rows_apply {α : Type} (f : Nat → α) (n : Nat) (k : LuaKey) :
    (List.range n).foldl (fun (t : LuaTable α) i => t.set (.num (i + 1)) (f i)) newTable k =
      match k with
      | .num (i + 1) => if i < n then some (f i) else none
      | _ => none := by
  induction n with
  | zero => cases k with
    | num i => cases i <;> rfl
    | str s => rfl
  | succ n ih =>
      rw [List.range_succ, List.foldl_append, List.foldl_cons, List.foldl_nil, LuaTable.set,
        Function.update_apply, ih]
      cases k with
      | num i => cases i with
        | zero => rfl
        | succ i => grind
      | str s => rfl

/-- Tables of rows are equal when the rows are. -/
theorem rows_eq_iff {α : Type} (f g : Nat → α) (n : Nat) :
    (List.range n).foldl (fun (t : LuaTable α) i => t.set (.num (i + 1)) (f i)) newTable =
        (List.range n).foldl (fun (t : LuaTable α) i => t.set (.num (i + 1)) (g i)) newTable ↔
      ∀ i < n, f i = g i := by
  constructor
  · intro h i hi
    have hrow := congrFun h (.num (i + 1))
    rw [rows_apply, rows_apply] at hrow
    simpa only [hi, if_true, Option.some.injEq] using hrow
  · intro h
    apply List.foldl_ext
    intro t i hi
    rw [h i (List.mem_range.mp hi)]

end Loops

section Rows

variable {x : StddItem} {row : StddItems} (t : LuaTable CStr) (k : Nat)

/-- A row of `mink_lua_get_args` from a table and a positional key. -/
def getArgsItems (t : LuaTable CStr) (k : Nat) (row : StddItems) : LuaTable CStr :=
  (row.foldl (fun t x => getArgsColumn t x.column) (t, k)).1

/-- A row of `mink_lua_do_cmd_call` from a table. -/
def cmdCallItems (t : LuaTable CStr) (row : StddItems) : LuaTable CStr :=
  row.foldl (fun t x => cmdCallColumn t x.column) t

theorem getArgsItems_filter :
    getArgsItems t k (row.filter StddItem.delivered) = getArgsItems t k row := by
  rw [getArgsItems, List.foldl_filter, getArgsItems]
  congr 2
  funext t x
  rw [StddItem.delivered, getArgsColumn, StddItem.column]
  cases x.value <;> rfl

theorem cmdCallItems_filter :
    cmdCallItems t (row.filter StddItem.delivered) = cmdCallItems t row := by
  rw [cmdCallItems, List.foldl_filter, cmdCallItems]
  congr 1
  funext t x
  rw [StddItem.delivered, cmdCallColumn, StddItem.column]
  cases x.value <;> rfl

theorem getArgsItems_cons {v : CStr} (hv : x.value = some v) : getArgsItems t k (x :: row) =
    getArgsItems (t.set (columnKey x.name (k + 1)) v) (k + 1) row := by
  simp only [getArgsItems, List.foldl_cons, getArgsColumn, StddItem.column, hv]

theorem cmdCallItems_cons {v : CStr} (hv : x.value = some v) : cmdCallItems t (x :: row) =
    cmdCallItems (t.set (columnKey x.name 1) v) row := by
  simp only [cmdCallItems, List.foldl_cons, cmdCallColumn, StddItem.column, hv]

/-- Named columns are stored under their names by both. -/
theorem getArgsItems_of_named (hvalue : ∀ x ∈ row, x.delivered) (hnamed : ∀ x ∈ row, x.Named) :
    getArgsItems t k row = cmdCallItems t row := by
  induction row generalizing t k with
  | nil => rfl
  | cons x row ih =>
      obtain ⟨hx, hrow⟩ := List.forall_mem_cons.mp hvalue
      obtain ⟨hname, hnames⟩ := List.forall_mem_cons.mp hnamed
      obtain ⟨v, hv⟩ := Option.isSome_iff_exists.mp hx
      have hkey : columnKey x.name (k + 1) = columnKey x.name 1 :=
        (if_pos hname).trans (if_pos hname).symm
      rw [getArgsItems_cons t k hv, cmdCallItems_cons t hv, hkey, ih _ _ hrow hnames]

theorem set_ne_none {α : Type} {t : LuaTable α} {k' : LuaKey} (h : t k' ≠ none) (k : LuaKey)
    (v : α) : t.set k v k' ≠ none := by
  rw [LuaTable.set, Function.update_apply]
  split_ifs
  · exact Option.some_ne_none v
  · exact h

/-- No later column removes an entry. -/
theorem getArgsItems_ne_none (hvalue : ∀ x ∈ row, x.delivered) {k' : LuaKey} (h : t k' ≠ none) :
    getArgsItems t k row k' ≠ none := by
  induction row generalizing t k with
  | nil => exact h
  | cons x row ih =>
      obtain ⟨hx, hrow⟩ := List.forall_mem_cons.mp hvalue
      obtain ⟨v, hv⟩ := Option.isSome_iff_exists.mp hx
      rw [getArgsItems_cons t k hv]
      exact ih _ _ hrow (set_ne_none h _ v)

/-- A column without a name is found under its position. -/
theorem getArgsItems_of_unnamed (hvalue : ∀ x ∈ row, x.delivered)
    (hunnamed : ∃ x ∈ row, ¬ x.Named) : ∃ n > k, getArgsItems t k row (.num n) ≠ none := by
  induction row generalizing t k with
  | nil => simp at hunnamed
  | cons x row ih =>
      obtain ⟨hx, hrow⟩ := List.forall_mem_cons.mp hvalue
      obtain ⟨v, hv⟩ := Option.isSome_iff_exists.mp hx
      rw [getArgsItems_cons t k hv]
      by_cases hname : x.Named
      · have htail : ∃ x ∈ row, ¬ x.Named := by
          obtain ⟨y, hy, hunnamed⟩ := hunnamed
          obtain rfl | hy := List.mem_cons.mp hy
          · exact absurd hname hunnamed
          · exact ⟨y, hy, hunnamed⟩
        obtain ⟨n, hn, hentry⟩ := ih (t.set (columnKey x.name (k + 1)) v) (k + 1) hrow htail
        exact ⟨n, Nat.lt_of_succ_lt hn, hentry⟩
      · refine ⟨k + 1, Nat.lt_succ_self k, getArgsItems_ne_none _ _ hrow ?_⟩
        have hkey : columnKey x.name (k + 1) = .num (k + 1) := if_neg hname
        rw [hkey, LuaTable.set, Function.update_self]
        exact Option.some_ne_none v

/-- The only position that `mink_lua_do_cmd_call` uses is the first one. -/
theorem num_ne_columnKey {n : Nat} (hn : 1 < n) (name : CStr) :
    LuaKey.num n ≠ columnKey name 1 := by
  unfold columnKey
  dsimp only
  split_ifs
  · exact LuaKey.noConfusion
  · exact fun heq => Nat.ne_of_gt hn (LuaKey.num.inj heq)

theorem cmdCallItems_num (hvalue : ∀ x ∈ row, x.delivered) {n : Nat} (hn : 1 < n)
    (h : t (.num n) = none) : cmdCallItems t row (.num n) = none := by
  induction row generalizing t with
  | nil => exact h
  | cons x row ih =>
      obtain ⟨hx, hrow⟩ := List.forall_mem_cons.mp hvalue
      obtain ⟨v, hv⟩ := Option.isSome_iff_exists.mp hx
      rw [cmdCallItems_cons t hv]
      apply ih _ hrow
      rw [LuaTable.set, Function.update_of_ne (num_ne_columnKey hn x.name), h]

/-- The rows are equal exactly when only the first column with a value may lack a
name. -/
theorem items_eq_iff (row : StddItems) :
    getArgsItems newTable 0 row = cmdCallItems newTable row ↔ RestNamed row := by
  rw [← getArgsItems_filter, ← cmdCallItems_filter, RestNamed]
  have hvalue : ∀ x ∈ row.filter StddItem.delivered, x.delivered := fun x hx =>
    (List.mem_filter.mp hx).2
  cases hrow : row.filter StddItem.delivered with
  | nil => exact ⟨fun _ => nofun, fun _ => rfl⟩
  | cons x xs =>
      rw [hrow] at hvalue
      obtain ⟨hx, hxs⟩ := List.forall_mem_cons.mp hvalue
      obtain ⟨v, hv⟩ := Option.isSome_iff_exists.mp hx
      rw [getArgsItems_cons newTable 0 hv, cmdCallItems_cons newTable hv, Nat.zero_add,
        List.tail_cons]
      constructor
      · intro heq y hy
        by_contra hunnamed
        obtain ⟨n, hn, hentry⟩ := getArgsItems_of_unnamed
          (newTable.set (columnKey x.name 1) v) 1 hxs ⟨y, hy, hunnamed⟩
        rw [heq] at hentry
        apply hentry
        apply cmdCallItems_num _ hxs hn
        rw [LuaTable.set, Function.update_of_ne (num_ne_columnKey hn x.name)]
        rfl
      · exact getArgsItems_of_named _ 1 hxs

end Rows

/-- The entries of a table whose rows are made of the rows of data. -/
theorem rows_apply_succ {α : Type} {f : Nat → α} {g : StddItems → α} {d : Stdd}
    (hfg : ∀ i row, d[i]? = some row → f i = g row) (i : Nat) :
    (List.range d.length).foldl (fun (t : LuaTable α) i => t.set (.num (i + 1)) (f i)) newTable
      (.num (i + 1)) = d[i]?.map g := by
  rw [rows_apply]
  by_cases hi : i < d.length
  · have hrow : d[i]? = some d[i] := List.getElem?_eq_getElem hi
    rw [hrow, Option.map_some]
    exact (if_pos hi).trans (congrArg some (hfg i d[i] hrow))
  · rw [List.getElem?_eq_none (Nat.not_lt.mp hi)]
    exact if_neg hi

/-- The row that `mink_lua_get_args` stores under a number. -/
theorem getArgsTable_apply (d : Stdd) (i : Nat) :
    getArgsTable d (.num (i + 1)) = d[i]?.map (getArgsItems newTable 0) := by
  apply rows_apply_succ
  exact fun j row hrow => getArgsRow_of_row hrow

/-- The row that `mink_lua_do_cmd_call` stores under a number. -/
theorem cmdCallTable_apply (d : Stdd) (i : Nat) :
    cmdCallTable d (.num (i + 1)) = d[i]?.map (cmdCallItems newTable) := by
  apply rows_apply_succ
  exact fun j row hrow => cmdCallRow_of_row hrow

/-- Both give a script the same table exactly when in every row only the first
column with a value may lack a name. -/
theorem getArgsTable_eq_cmdCallTable_iff (d : Stdd) :
    getArgsTable d = cmdCallTable d ↔ ∀ row ∈ d, RestNamed row := by
  rw [getArgsTable, cmdCallTable, rows_eq_iff, minkLuaCmdDataSz, List.forall_mem_iff_getElem]
  refine forall₂_congr fun i hi => ?_
  have hrow : d[i]? = some d[i] := List.getElem?_eq_getElem hi
  rw [getArgsRow_of_row hrow, cmdCallRow_of_row hrow]
  exact items_eq_iff d[i]

/-- Of two columns without a name, as a signal of a script has them, the script that
called a command is given the last one only. -/
theorem cmdCallTable_loses_column :
    getArgsTable [[⟨.replicate 0 97 (by decide), some (.replicate 1 97 (by decide))⟩,
        ⟨.replicate 0 97 (by decide), some (.replicate 1 98 (by decide))⟩]] ≠
      cmdCallTable [[⟨.replicate 0 97 (by decide), some (.replicate 1 97 (by decide))⟩,
        ⟨.replicate 0 97 (by decide), some (.replicate 1 98 (by decide))⟩]] := by
  intro heq
  have hentry := congrArg (fun t => (t (.num 1)).bind fun row => row (.num 2)) heq
  exact absurd hentry (by decide)

end Umink.Lua
