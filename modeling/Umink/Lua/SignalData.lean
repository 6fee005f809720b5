import Umink.Library.HashTable
import Umink.Lua.DataTables
import Umink.Lua.SignalArgs

/-!
# Data of a signal in its script

The caller of a signal builds the rows of its data column by column and adds
each row as a copy. The script finds the rows in order: columns without a name
under their positions and the last column of each name under the name.

## Implementation notes

The pointers that the functions are given are set, and the data is initialised
before rows are added, as every caller does. An item is added to one table only.
-/

namespace Umink.Lua

open Umink.Library Umink.Plugin

/-- `umplg_stdd_init` on `data->items`. -/
def umplgStddInit (items : Option Stdd) : Stdd :=
  match items with
  | none => []
  | some items => items

/-- `std_items_copy`. -/
def stdItemsCopy (src : StddItems) : StddItems :=
  src.foldl (fun dst s => HashTable.add dst ⟨s.name, s.value⟩) []

/-- `umplg_stdd_items_add`. -/
def umplgStddItemsAdd (data : Option Stdd) (items : StddItems) : Stdd :=
  umplgStddInit data ++ [stdItemsCopy items]

/-- `umplg_stdd_item_add`. -/
def umplgStddItemAdd (items : StddItems) (item : StddItem) : StddItems :=
  HashTable.add items item

/-- A call that builds data; `items` is the table it is given. -/
inductive StddCall (ι : Type*) where
  | itemAdd (items : ι) (name value : CStr)
  | itemsAdd (items : ι)

/-- The tables under construction and the data. -/
structure StddBuild (ι : Type*) where
  tables : ι → StddItems
  data : Stdd

variable {ι : Type*} [DecidableEq ι]

/-- Initialised data and empty tables. -/
def StddBuild.start : StddBuild ι := ⟨fun _ => [], umplgStddInit none⟩

def StddBuild.call (b : StddBuild ι) : StddCall ι → StddBuild ι
  | .itemAdd i name value =>
      { b with tables :=
          Function.update b.tables i (umplgStddItemAdd (b.tables i) ⟨name, some value⟩) }
  | .itemsAdd i => { b with data := umplgStddItemsAdd (some b.data) (b.tables i) }

def StddBuild.run (calls : List (StddCall ι)) : StddBuild ι := calls.foldl StddBuild.call start

/-- The columns that calls add to a table. -/
def addedColumns (calls : List (StddCall ι)) (i : ι) : List (CStr × CStr) :=
  calls.filterMap fun
    | .itemAdd j name value => if j = i then some (name, value) else none
    | .itemsAdd _ => none

/-- The row that the `n`-th call adds: what the calls before it added to its table. -/
def addedRow (calls : List (StddCall ι)) (n : Nat) : Option (List (CStr × CStr)) :=
  match calls[n]? with
  | some (.itemsAdd i) => some (addedColumns (calls.take n) i)
  | _ => none

/-- The rows that calls add, in order. -/
def addedRows (calls : List (StddCall ι)) : List (List (CStr × CStr)) :=
  (List.range calls.length).filterMap (addedRow calls)

/-- What a script is to find of a row: the columns without a name by position, the
others by name. -/
def deliveredRow (row : List (CStr × CStr)) : LuaTable CStr
  | .num 0 => none
  | .num (j + 1) => (row[j]?).bind fun x => if x.1.length = 0 then some x.2 else none
  | .str s => if s.length = 0 then none else (row.reverse.find? (·.1 = s)).map (·.2)

/-- What a script is to find of rows. -/
def deliveredTable (rows : List (List (CStr × CStr))) : LuaTable (LuaTable CStr)
  | .num (i + 1) => rows[i]?.map deliveredRow
  | _ => none

/-- The item of a column. -/
def columnItem (x : CStr × CStr) : StddItem := ⟨x.1, some x.2⟩

section Build

theorem stdItemsCopy_eq (src : StddItems) : stdItemsCopy src = src := by
  have hcopy : ∀ dst, src.foldl (fun dst s => HashTable.add dst ⟨s.name, s.value⟩) dst =
      dst ++ src := by
    induction src with
    | nil => exact fun dst => (List.append_nil dst).symm
    | cons s src ih =>
        intro dst
        rw [List.foldl_cons, ih, HashTable.add, List.append_assoc, List.singleton_append]
  exact hcopy []

theorem run_append (calls : List (StddCall ι)) (c : StddCall ι) :
    StddBuild.run (calls ++ [c]) = (StddBuild.run calls).call c :=
  List.foldl_concat StddBuild.call StddBuild.start c calls

/-- The tables hold the columns that were added to them. -/
theorem run_tables (calls : List (StddCall ι)) (i : ι) :
    (StddBuild.run calls).tables i = (addedColumns calls i).map columnItem := by
  induction calls using List.reverseRecOn with
  | nil => rfl
  | append_singleton calls c ih =>
      rw [run_append, addedColumns, List.filterMap_append, List.map_append]
      cases c with
      | itemAdd j name value =>
          by_cases hj : j = i
          · subst hj
            simp [StddBuild.call, umplgStddItemAdd, HashTable.add, ih, addedColumns, columnItem]
          · simp [StddBuild.call, Function.update_of_ne (Ne.symm hj), ih, addedColumns, hj]
      | itemsAdd j => simp [StddBuild.call, ih, addedColumns]

theorem addedRow_append_left (calls : List (StddCall ι)) (c : StddCall ι) {n : Nat}
    (hn : n < calls.length) : addedRow (calls ++ [c]) n = addedRow calls n := by
  rw [addedRow, List.getElem?_append_left hn, List.take_append_of_le_length (Nat.le_of_lt hn)]
  rfl

theorem addedRows_append (calls : List (StddCall ι)) (c : StddCall ι) :
    addedRows (calls ++ [c]) =
      addedRows calls ++ (addedRow (calls ++ [c]) calls.length).toList := by
  have hbefore : (List.range calls.length).filterMap (addedRow (calls ++ [c])) =
      addedRows calls :=
    List.filterMap_congr fun n hn => addedRow_append_left calls c (List.mem_range.mp hn)
  rw [addedRows, List.length_append, List.length_singleton, List.range_succ,
    List.filterMap_append, hbefore]
  cases h : addedRow (calls ++ [c]) calls.length <;> simp [h]

/-- The data holds the rows that were added, in order. -/
theorem run_data (calls : List (StddCall ι)) :
    (StddBuild.run calls).data = (addedRows calls).map (List.map columnItem) := by
  induction calls using List.reverseRecOn with
  | nil => rfl
  | append_singleton calls c ih =>
      have hlast : (calls ++ [c])[calls.length]? = some c := List.getElem?_concat_length
      rw [run_append, addedRows_append, List.map_append, ← ih, addedRow, hlast]
      cases c with
      | itemAdd j name value => exact (List.append_nil _).symm
      | itemsAdd j =>
          dsimp only [StddBuild.call, umplgStddItemsAdd, umplgStddInit, Option.toList]
          rw [stdItemsCopy_eq, run_tables, List.take_left, List.map_singleton]

end Build

section Delivery

/-- A further column without a name is found under its position. -/
theorem deliveredRow_append_unnamed (row : List (CStr × CStr)) {x : CStr × CStr}
    (hname : x.1.length = 0) :
    deliveredRow (row ++ [x]) = (deliveredRow row).set (.num (row.length + 1)) x.2 := by
  ext k : 1
  rw [LuaTable.set, Function.update_apply]
  cases k with
  | num j =>
      cases j with
      | zero => rfl
      | succ j =>
          by_cases hj : j = row.length
          · simp [deliveredRow, hj, hname]
          · have hnext : ¬ j + 1 = row.length + 1 := fun h => hj (Nat.succ.inj h)
            simp only [deliveredRow, LuaKey.num.injEq, hnext, if_false, List.getElem?_append]
            by_cases hlt : j < row.length
            · rw [if_pos hlt]
            · have hpast : [x][j - row.length]? = none := List.getElem?_eq_none (by simp; omega)
              rw [if_neg hlt, List.getElem?_eq_none (Nat.not_lt.mp hlt), hpast]
  | str s =>
      have hs : 0 < s.length → ¬ x.1 = s := fun hpos heq => by
        rw [heq] at hname
        omega
      by_cases hzero : s.length = 0
      · simp [deliveredRow, hzero]
      · simp [deliveredRow, hzero, hs (Nat.pos_of_ne_zero hzero)]

/-- A further column with a name is found under its name. -/
theorem deliveredRow_append_named (row : List (CStr × CStr)) {x : CStr × CStr}
    (hname : ¬ x.1.length = 0) :
    deliveredRow (row ++ [x]) = (deliveredRow row).set (.str x.1) x.2 := by
  ext k : 1
  rw [LuaTable.set, Function.update_apply]
  cases k with
  | num j =>
      cases j with
      | zero => rfl
      | succ j =>
          simp only [deliveredRow, reduceCtorEq, if_false, List.getElem?_append]
          by_cases hlt : j < row.length
          · rw [if_pos hlt]
          · rw [if_neg hlt, List.getElem?_eq_none (Nat.not_lt.mp hlt)]
            cases hlast : [x][j - row.length]? with
            | none => rfl
            | some y =>
                have hy : y = x := List.mem_singleton.mp (List.mem_of_getElem? hlast)
                simp [hy, hname]
  | str s =>
      by_cases hs : x.1 = s
      · subst hs
        simp [deliveredRow, hname]
      · simp [deliveredRow, hs, Ne.symm hs]

/-- A further column of a row is found under its name, or under its position if it
has none. -/
theorem deliveredRow_append (row : List (CStr × CStr)) (x : CStr × CStr) :
    deliveredRow (row ++ [x]) =
      (deliveredRow row).set (columnKey (some x.1) (row.length + 1)) x.2 := by
  by_cases hname : x.1.length = 0
  · have hkey : columnKey (some x.1) (row.length + 1) = .num (row.length + 1) :=
      if_neg (by omega)
    rw [hkey, deliveredRow_append_unnamed row hname]
  · have hkey : columnKey (some x.1) (row.length + 1) = .str x.1 :=
      if_pos (Nat.pos_of_ne_zero hname)
    rw [hkey, deliveredRow_append_named row hname]

/-- The loop over the columns of a row counts the columns and delivers them. -/
theorem getArgsColumn_foldl (row : List (CStr × CStr)) :
    (row.map columnItem).foldl (fun t x => getArgsColumn t x.column) (newTable, 0) =
      (deliveredRow row, row.length) := by
  induction row using List.reverseRecOn with
  | nil =>
      have hempty : deliveredRow [] = newTable := by
        ext k : 1
        cases k with
        | num j => cases j <;> rfl
        | str s => simp [deliveredRow, newTable]
      rw [hempty]
      rfl
  | append_singleton row x ih =>
      rw [List.map_append, List.map_singleton, List.foldl_append, ih, List.foldl_cons,
        List.foldl_nil, deliveredRow_append, List.length_append, List.length_singleton]
      rfl

/-- `M.get_args` delivers all rows of data that consists of columns with values. -/
theorem getArgsTable_map (rows : List (List (CStr × CStr))) :
    getArgsTable (rows.map (List.map columnItem)) = deliveredTable rows := by
  ext k : 1
  cases k with
  | num i =>
      cases i with
      | zero =>
          rw [getArgsTable, rows_apply]
          rfl
      | succ i =>
          have hrow : (fun row => getArgsItems newTable 0 (row.map columnItem)) = deliveredRow := by
            ext row : 1
            rw [getArgsItems, getArgsColumn_foldl]
          rw [getArgsTable_apply, List.getElem?_map, Option.map_map, deliveredTable, ← hrow]
          rfl
  | str s =>
      rw [getArgsTable, rows_apply]
      rfl

end Delivery

/-- `mink_lua_get_args`: the table that the running script is given. -/
def minkLuaGetArgsTable (stdd : Nat → Option Stdd) (tl : Nat) : Option (LuaTable (LuaTable CStr)) :=
  (minkLuaGetArgs stdd tl).map getArgsTable

/-- The calls of `mink_lua_signal` that build the data of a signal. -/
def signalCalls (d auth : Option CStr) : List (StddCall Unit) :=
  [.itemAdd () .empty (d.getD .empty), .itemAdd () .empty (auth.getD .empty), .itemsAdd ()]

/-- The data that `mink_lua_signal` passes to `umplg_proc_signal`. -/
def signalData (d auth : Option CStr) : Stdd := (StddBuild.run (signalCalls d auth)).data

namespace Engine

variable {τ : Type*} [DecidableEq τ] {signals : Signals LuaSigArgs} {e e' : Engine τ Stdd} {t : τ}

/-- Thread `t` calls `M.signal(id, payload, auth)` at `e`, is let in by the signal
`sh` and waits for its mutex while other threads run; at `e'` the script of the
signal has just started. -/
def SignalStarts (signals : Signals LuaSigArgs) (e : Engine τ Stdd) (t : τ) (sh : LuaSh)
    (payload auth : CStr) (e' : Engine τ Stdd) : Prop :=
  ∃ id usrFlags created load others load' e₁ e₂,
    umplgProcSignal signals (some id) usrFlags = .ok sh ∧
    e.step signals (t, .call id (signalData (some payload) (some auth)) usrFlags created load) =
      some e₁ ∧
    (∀ a ∈ others, a.1 ≠ t) ∧ Trace.exec (step signals) e₁ others = some e₂ ∧
    e₂.step signals (t, .lock load') = some e' ∧
    (e₂.threads t).frames.length < (e'.threads t).frames.length

/-- Actions of other threads leave a thread alone. -/
theorem exec_other {others : List (τ × Act Stdd)} (hothers : ∀ a ∈ others, a.1 ≠ t)
    (h : Trace.exec (step signals) e others = some e') : e'.threads t = e.threads t := by
  induction others generalizing e with
  | nil => rw [Option.some.inj h]
  | cons a others ih =>
      obtain ⟨ha, hrest⟩ := List.forall_mem_cons.mp hothers
      obtain ⟨s, hst, hexec⟩ := (Trace.exec_cons_iff (step signals) e e' a others).mp h
      rw [ih hrest hexec, step_other hst (Ne.symm ha)]

/-- The script of an authorised call runs on the data of the call. -/
theorem SignalStarts.frames {sh : LuaSh} {payload auth : CStr}
    (h : SignalStarts signals e t sh payload auth e') :
    ∃ fs, (e'.threads t).frames = ⟨sh, signalData (some payload) (some auth), 0⟩ :: fs := by
  obtain ⟨id, usrFlags, created, load, others, load', e₁, e₂, hproc, hcall, hothers, hexec, hlock,
    hlt⟩ := h
  have hwait : (e₁.threads t).wait = none ∨
      (e₁.threads t).wait = some (sh, signalData (some payload) (some auth)) := by
    cases step_effect hcall with
    | entered hfree heff =>
        obtain hnone | ⟨sh', hproc', hsome, -⟩ := heff.wait
        · exact .inl hnone
        · exact .inr (Except.ok.inj (hproc.symm.trans hproc') ▸ hsome)
  rw [← exec_other hothers hexec] at hwait
  cases step_effect hlock with
  | rejected hw hfree hrun heff =>
      rw [heff.frames] at hlt
      exact absurd hlt (Nat.lt_irrefl _)
  | loadFailed hw hfree hfail heff =>
      rw [heff.frames] at hlt
      exact absurd hlt (Nat.lt_irrefl _)
  | started hw hfree hrun hload heff =>
      obtain hnone | hsome := hwait
      · rw [hw] at hnone
        cases hnone
      · obtain ⟨rfl, rfl⟩ := Prod.mk.inj (Option.some.inj (hw.symm.trans hsome))
        exact ⟨_, heff.frames⟩

/-- The start of the script is a moment of the run. -/
theorem SignalStarts.reachable {sh : LuaSh} {payload auth : CStr}
    (h : SignalStarts signals e t sh payload auth e')
    (hreach : Trace.Reachable (step signals) start e) :
    Trace.Reachable (step signals) start e' := by
  obtain ⟨id, usrFlags, created, load, others, load', e₁, e₂, -, hcall, -, hexec, hlock, -⟩ := h
  have hcall' := (Trace.exec_cons_iff (step signals) e e₁ _ []).mpr ⟨e₁, hcall, rfl⟩
  have hlock' := (Trace.exec_cons_iff (step signals) e₂ e' _ []).mpr ⟨e', hlock, rfl⟩
  exact ((hreach.of_exec hcall').of_exec hexec).of_exec hlock'

/-- At every moment of a run of any number of threads `M.get_args` gives the running
script the rows of its signal's data as they were added, and a script that
`M.signal` started finds the payload and the user info in the first row. -/
theorem signal_data_intact {before : List (τ × Act Stdd)}
    (h : Trace.exec (step signals) start before = some e) (t : τ) :
    (∀ f fs, (e.threads t).frames = f :: fs → ∀ calls : List (StddCall ι),
      f.dIn = (StddBuild.run calls).data → ∀ tl, IsBorder (e.threads t).stdd tl →
        minkLuaGetArgsTable (e.threads t).stdd tl =
          some (deliveredTable (addedRows calls))) ∧
    ∀ sh payload auth e', SignalStarts signals e t sh payload auth e' →
      ∀ tl, IsBorder (e'.threads t).stdd tl →
        ∃ table row, minkLuaGetArgsTable (e'.threads t).stdd tl = some table ∧
          table (.num 1) = some row ∧ row (.num 1) = some payload ∧ row (.num 2) = some auth := by
  have hreach : Trace.Reachable (step signals) start e := ⟨before, h⟩
  constructor
  · intro f fs hframes calls hdata tl htl
    rw [minkLuaGetArgsTable, (argsInv_reachable hreach t).getArgs hframes htl, hdata, run_data,
      Option.map_some, getArgsTable_map]
  · intro sh payload auth e' hstarts tl htl
    obtain ⟨fs, hframes⟩ := hstarts.frames
    have hdata : signalData (some payload) (some auth) =
        [[(.empty, payload), (.empty, auth)]].map (List.map columnItem) := rfl
    refine ⟨deliveredTable [[(.empty, payload), (.empty, auth)]], _, ?_, rfl, rfl, rfl⟩
    rw [minkLuaGetArgsTable, (argsInv_reachable (hstarts.reachable hreach) t).getArgs hframes htl,
      hdata, Option.map_some, getArgsTable_map]

/-- The first call of a thread delivers its payload and its user info. -/
theorem signal_data_intact_first :
    ∃ e' : Engine Nat Stdd, ∃ table row,
      minkLuaGetArgsTable (e'.threads 0).stdd 1 = some table ∧ table (.num 1) = some row ∧
        row (.num 1) = some (.replicate 1 97 (by decide)) ∧
        row (.num 2) = some (.replicate 1 98 (by decide)) := by
  have hcall : Engine.step [LuaSh.basic "A" false] start (0, .call "A"
      (signalData (some (.replicate 1 97 (by decide))) (some (.replicate 1 98 (by decide)))) 0 true
      .ok) = some _ := rfl
  have hstarts : SignalStarts [LuaSh.basic "A" false] start 0 (LuaSh.basic "A" false)
      (.replicate 1 97 (by decide)) (.replicate 1 98 (by decide)) _ :=
    ⟨"A", 0, true, .ok, [], .ok, _, _, rfl, hcall, nofun, rfl, rfl, by decide⟩
  have hstart : Trace.exec (step [LuaSh.basic "A" false]) (start : Engine Nat Stdd) [] =
      some start := rfl
  exact ⟨_, (@signal_data_intact Unit _ _ _ _ _ _ hstart 0).2 _ _ _ _ hstarts 1
    ⟨Or.inr rfl, rfl⟩⟩

end Engine

end Umink.Lua
