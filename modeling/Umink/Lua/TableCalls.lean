import Umink.Lua.CmdCall
import Umink.Lua.SignalStack

/-!
# The tables of plugin data

`mink_lua_get_args` and `mink_lua_do_cmd_call` as the calls of the Lua interface that they make:
both fill a new table with a new table for each row, column by column. A script gets the tables
that the conversions are, and nothing that is already there changes.

## Implementation notes

The texts of the data are strings with a character for each byte. `lua_rawlen` may give any border
of a table. A light user datum points to plugin data.
-/

namespace Umink.Lua

open Umink.Library Umink.Plugin StackMachine

variable {δ : Type*}

/-- The key as it is pushed. -/
def keyAtom : LuaKey → LuaAtom δ
  | .num n => .num n
  | .str s => .str s.text

/-- The entries that a loop over the columns writes, with the positional key of the column before
it: a column of `mink_lua_get_args`. -/
def getArgsEntry (acc : List (LuaAtom δ × Value (LuaAtom δ)) × Nat) (c : MinkCdataColumn) :
    List (LuaAtom δ × Value (LuaAtom δ)) × Nat :=
  match c.value with
  | none => acc
  | some v => (acc.1 ++ [(keyAtom (columnKey c.key (acc.2 + 1)), .atom (.str v.text))], acc.2 + 1)

/-- A column of `mink_lua_do_cmd_call`. -/
def cmdCallEntry (acc : List (LuaAtom δ × Value (LuaAtom δ))) (c : MinkCdataColumn) :
    List (LuaAtom δ × Value (LuaAtom δ)) :=
  match c.value with
  | none => acc
  | some v => acc ++ [(keyAtom (columnKey c.key 1), .atom (.str v.text))]

/-- The columns of a row of `mink_lua_get_args`. -/
def getArgsEntries (d : Stdd) (i : Nat) : List (LuaAtom δ × Value (LuaAtom δ)) :=
  ((List.range (minkLuaCmdDataRowSz i d)).foldl
    (fun acc j => getArgsEntry acc (minkLuaCmdDataGetColumn i j d)) ([], 0)).1

/-- The columns of a row of `mink_lua_do_cmd_call`. -/
def cmdCallEntries (d : Stdd) (i : Nat) : List (LuaAtom δ × Value (LuaAtom δ)) :=
  (List.range (minkLuaCmdDataRowSz i d)).foldl
    (fun acc j => cmdCallEntry acc (minkLuaCmdDataGetColumn i j d)) []

/-- A row: its key in the array, a new table, its columns, and its entry in the array. -/
def rowOps (entries : Nat → List (LuaAtom δ × Value (LuaAtom δ))) (i : Nat) :
    List (Op (LuaAtom δ)) :=
  [.push (.atom (.num (i + 1))), .newTable] ++ Op.sets (entries i) ++ [.setTable (.top 3)]

/-- The table with the rows. -/
def tableOps (n : Nat) (entries : Nat → List (LuaAtom δ × Value (LuaAtom δ))) :
    List (Op (LuaAtom δ)) :=
  .newTable :: (List.range n).flatMap (rowOps entries)

section Rows

variable [DecidableEq δ]

/-- What the loop over the rows leaves of the tables: the new table with a row at each number. -/
structure Built (heap : Heap (LuaAtom δ)) (n : Nat)
    (entries : Nat → List (LuaAtom δ × Value (LuaAtom δ))) (heap' : Heap (LuaAtom δ)) : Prop where
  next : heap'.next = heap.next + 1 + n
  old : ∀ r < heap.next, heap'.tables r = heap.tables r
  rows : ∀ i < n, heap'.tables (heap.next + 1 + i) = Heap.writeAll (fun _ => .nil) (entries i)
  outer : ∀ i < n, heap'.tables heap.next (.num (i + 1)) = .table (heap.next + 1 + i)
  rest : ∀ k, (∀ i < n, k ≠ .num (i + 1)) → heap'.tables heap.next k = .nil

variable {heap heap' : Heap (LuaAtom δ)} {n : Nat}
  {entries : Nat → List (LuaAtom δ × Value (LuaAtom δ))}

/-- A row is written with room for five values. -/
theorem calls_row (room r i : Nat) (entries : Nat → List (LuaAtom δ × Value (LuaAtom δ)))
    (heap : Heap (LuaAtom δ)) :
    calls ⟨[.table r], room + 5, heap⟩ (rowOps entries i) =
      some ⟨[.table r], room + 5, (heap.alloc.setAll heap.next (entries i)).set r (.num (i + 1))
        (.table heap.next)⟩ := by
  have hnew : calls ⟨[.table r], room + 5, heap⟩ [.push (.atom (.num (i + 1))), .newTable] =
      some ⟨[.table heap.next, .atom (.num (i + 1)), .table r], room + 5, heap.alloc⟩ := rfl
  have hsets := exec_above [.atom (.num (i + 1)), .table r]
    (@exec_sets _ _ (room + 3) heap.next (Nat.le_add_left 3 room) heap.alloc (entries i))
  refine (Trace.exec_append_iff ..).mpr ⟨_, (Trace.exec_append_iff ..).mpr ⟨_, hnew, hsets⟩, ?_⟩
  rfl

theorem built_zero (heap : Heap (LuaAtom δ))
    (entries : Nat → List (LuaAtom δ × Value (LuaAtom δ))) :
    Built heap 0 entries heap.alloc where
  next := rfl
  old _ hr := heap.alloc_ne (Nat.ne_of_lt hr)
  rows i hi := absurd hi (Nat.not_lt_zero i)
  outer i hi := absurd hi (Nat.not_lt_zero i)
  rest k _ := congrFun heap.alloc_self k

/-- One more row. -/
theorem Built.succ (h : Built heap n entries heap') :
    Built heap (n + 1) entries ((heap'.alloc.setAll heap'.next (entries n)).set heap.next
      (.num (n + 1)) (.table heap'.next)) := by
  have hnext := h.next
  -- a table that is neither the array nor the new row is left alone
  have hother : ∀ r, r ≠ heap.next → r ≠ heap'.next → ((heap'.alloc.setAll heap'.next
      (entries n)).set heap.next (.num (n + 1)) (.table heap'.next)).tables r =
      heap'.tables r := fun r harray hrow => by
    ext k
    rw [Heap.set_table_ne _ _ _ _ harray, Heap.setAll_ne _ _ hrow, Heap.alloc_ne _ hrow]
  have harray : ∀ k, (heap'.alloc.setAll heap'.next (entries n)).tables heap.next k =
      heap'.tables heap.next k := fun k => by
    rw [Heap.setAll_ne _ _ (by omega), Heap.alloc_ne _ (by omega)]
  refine ⟨?_, fun r hr => ?_, fun i hi => ?_, fun i hi => ?_, fun k hk => ?_⟩
  · calc (heap'.alloc.setAll heap'.next (entries n)).next
      _ = heap'.next + 1 := Heap.next_setAll ..
      _ = heap.next + 1 + (n + 1) := by omega
  · rw [hother r (by omega) (by omega), h.old r hr]
  · obtain hlt | rfl := Nat.lt_succ_iff_lt_or_eq.mp hi
    · rw [hother _ (by omega) (by omega), h.rows i hlt]
    · ext k
      rw [← hnext, Heap.set_table_ne _ _ _ _ (by omega), Heap.tables_setAll, Heap.alloc_self]
  · obtain hlt | rfl := Nat.lt_succ_iff_lt_or_eq.mp hi
    · have hkey : (LuaAtom.num (i + 1) : LuaAtom δ) ≠ .num (n + 1) := fun heq => by
        have := LuaAtom.num.inj heq
        omega
      rw [Heap.set_key_ne _ _ _ _ hkey, harray, h.outer i hlt]
    · rw [Heap.set_self, hnext]
  · rw [Heap.set_key_ne _ _ _ _ (hk n (Nat.lt_succ_self n)), harray]
    exact h.rest k fun i hi => hk i (Nat.lt_succ_of_lt hi)

theorem calls_table (room : Nat) (heap : Heap (LuaAtom δ)) (n : Nat)
    (entries : Nat → List (LuaAtom δ × Value (LuaAtom δ))) :
    ∃ heap', calls ⟨[], room + 5, heap⟩ (tableOps n entries) =
      some ⟨[.table heap.next], room + 5, heap'⟩ ∧ Built heap n entries heap' := by
  induction n with
  | zero => exact ⟨heap.alloc, rfl, built_zero heap entries⟩
  | succ n ih =>
      obtain ⟨heap', hcalls, hbuilt⟩ := ih
      refine ⟨_, ?_, hbuilt.succ⟩
      have hops : tableOps (n + 1) entries = tableOps n entries ++ rowOps entries n := by
        rw [tableOps, List.range_succ, List.flatMap_append, List.flatMap_singleton]
        rfl
      rw [hops]
      exact (Trace.exec_append_iff ..).mpr ⟨_, hcalls, calls_row room heap.next n entries heap'⟩

end Rows

/-- A text as the value of an entry. -/
def textValue : Option CStr → Value (LuaAtom δ)
  | none => .nil
  | some v => .atom (.str v.text)

/-- The table has the entries of the row. -/
def RowHolds (heap : Heap (LuaAtom δ)) (r : Nat) (row : LuaTable CStr) : Prop :=
  ∀ k, heap.tables r (keyAtom k) = textValue (row k)

/-- An entry for a row is a table with its entries. -/
inductive EntryHolds (heap : Heap (LuaAtom δ)) :
    Value (LuaAtom δ) → Option (LuaTable CStr) → Prop
  | none : EntryHolds heap .nil none
  | some {r row} (h : RowHolds heap r row) : EntryHolds heap (.table r) (some row)

/-- The table has an entry for each row. -/
def TableHolds (heap : Heap (LuaAtom δ)) (r : Nat) (t : LuaTable (LuaTable CStr)) : Prop :=
  ∀ k, EntryHolds heap (heap.tables r (keyAtom k)) (t k)

theorem keyAtom_injective : Function.Injective (keyAtom : LuaKey → LuaAtom δ) := by
  intro k k' h
  cases k with
  | num n =>
      cases k' with
      | num n' => rw [LuaAtom.num.inj h]
      | str s' => cases h
  | str s =>
      cases k' with
      | num n' => cases h
      | str s' => rw [CStr.text_inj (LuaAtom.str.inj h)]

section Columns

variable [DecidableEq δ]

/-- The entries make up the row. -/
def Makes (entries : List (LuaAtom δ × Value (LuaAtom δ))) (row : LuaTable CStr) : Prop :=
  ∀ k, Heap.writeAll (fun _ => .nil) entries (keyAtom k) = textValue (row k)

variable {entries : List (LuaAtom δ × Value (LuaAtom δ))} {row : LuaTable CStr}

theorem Makes.set (h : Makes entries row) (k : LuaKey) (v : CStr) :
    Makes (entries ++ [(keyAtom k, .atom (.str v.text))]) (row.set k v) := by
  intro k'
  rw [Heap.writeAll, List.foldl_append, List.foldl_cons, List.foldl_nil, ← Heap.writeAll]
  by_cases hk : k' = k
  · subst hk
    rw [Function.update_self, LuaTable.set, Function.update_self]
    rfl
  · rw [Function.update_of_ne (keyAtom_injective.ne hk), LuaTable.set, Function.update_of_ne hk]
    exact h k'

theorem makes_getArgs (d : Stdd) (i : Nat) :
    Makes (getArgsEntries d i : List (LuaAtom δ × Value (LuaAtom δ))) (getArgsRow d i) := by
  have hloop := @List.foldl_rel _ _ _ (List.range (minkLuaCmdDataRowSz i d))
    (fun acc j => getArgsEntry acc (minkLuaCmdDataGetColumn i j d))
    (fun t j => getArgsColumn t (minkLuaCmdDataGetColumn i j d))
    (([], 0) : List (LuaAtom δ × Value (LuaAtom δ)) × Nat) (newTable, 0)
    (fun acc t => Makes acc.1 t.1 ∧ acc.2 = t.2) ⟨fun _ => rfl, rfl⟩ ?_
  · exact hloop.1
  · rintro j - ⟨entries, k⟩ ⟨row, k'⟩ ⟨hmakes, hk⟩
    obtain rfl : k = k' := hk
    unfold getArgsEntry getArgsColumn
    cases (minkLuaCmdDataGetColumn i j d).value with
    | none => exact ⟨hmakes, rfl⟩
    | some v => exact ⟨hmakes.set _ v, rfl⟩

theorem makes_cmdCall (d : Stdd) (i : Nat) :
    Makes (cmdCallEntries d i : List (LuaAtom δ × Value (LuaAtom δ))) (cmdCallRow d i) := by
  have hloop := @List.foldl_rel _ _ _ (List.range (minkLuaCmdDataRowSz i d))
    (fun acc j => cmdCallEntry acc (minkLuaCmdDataGetColumn i j d))
    (fun t j => cmdCallColumn t (minkLuaCmdDataGetColumn i j d))
    ([] : List (LuaAtom δ × Value (LuaAtom δ))) newTable Makes (fun _ => rfl) ?_
  · exact hloop
  · intro j _ entries row hmakes
    unfold cmdCallEntry cmdCallColumn
    cases (minkLuaCmdDataGetColumn i j d).value with
    | none => exact hmakes
    | some v => exact hmakes.set _ v

/-- The array that the loop over the rows builds. -/
theorem Built.holds {heap heap' : Heap (LuaAtom δ)} {n : Nat}
    {entries : Nat → List (LuaAtom δ × Value (LuaAtom δ))} (h : Built heap n entries heap')
    {rows : Nat → LuaTable CStr} (hrows : ∀ i, Makes (entries i) (rows i)) :
    TableHolds heap' heap.next
      ((List.range n).foldl (fun t i => t.set (.num (i + 1)) (rows i)) newTable) := by
  -- a key that is no number of a row
  have hrest : ∀ k, (∀ i < n, keyAtom k ≠ (.num (i + 1) : LuaAtom δ)) →
      EntryHolds heap' (heap'.tables heap.next (keyAtom k)) none := fun k hk => by
    rw [h.rest _ hk]
    exact .none
  intro k
  rw [rows_apply]
  cases k with
  | str s => exact hrest (.str s) fun i _ heq => nomatch heq
  | num j =>
      cases j with
      | zero => exact hrest (.num 0) fun i _ heq => nomatch LuaAtom.num.inj heq
      | succ j =>
          dsimp only
          by_cases hj : j < n
          · have hrow : RowHolds heap' (heap.next + 1 + j) (rows j) := fun k => by
              rw [h.rows j hj]
              exact hrows j k
            rw [if_pos hj, keyAtom, h.outer j hj]
            exact .some hrow
          · rw [if_neg hj]
            apply hrest (.num (j + 1))
            intro i hi heq
            obtain rfl := Nat.succ.inj (LuaAtom.num.inj heq)
            exact hj hi

end Columns

section GetArgs

variable [DecidableEq δ]

/-- The plugin data that the light user datum on the top points to. -/
def toUserdata (data : δ → Stdd) (stack : List (Value (LuaAtom δ))) : Option Stdd :=
  match stack with
  | .atom (.data d) :: _ => some (data d)
  | _ => none

/-- `mink_lua_get_args` with the length of the table: the stack, and how many of its values are
returned. -/
def minkLuaGetArgsCalls (data : δ → Stdd) (tl : Nat) (L : State (LuaAtom δ)) :
    Option (State (LuaAtom δ) × Nat) := do
  -- get std data (only for SIGNALS)
  let L ← calls L [pushString "mink_stdd", .getTable registry]
  match L.stack with
  | .table _ :: _ =>
      if tl = 0 then return (L, 0)
      else
        let L ← calls L [.push (.atom (.num tl)), .getTable (.top 2)]
        -- get user data pointer; there are no rows at NULL
        let d := (toUserdata data L.stack).getD []
        let L ← calls L (tableOps (minkLuaCmdDataSz d) (getArgsEntries d))
        return (L, 1)
  | _ => return (L, 0)

/-- What `lua_rawlen` may give for the table of arguments. -/
def StddLen (heap : Heap (LuaAtom δ)) (tl : Nat) : Prop :=
  ∀ s, heap.tables 0 (.str "mink_stdd") = .table s →
    (tl = 0 ∨ heap.tables s (.num tl) ≠ .nil) ∧ heap.tables s (.num (tl + 1)) = .nil

variable {signals : Signals LuaSigArgs} {th : LuaThread δ} {api : ApiThread δ}
  {L : LuaState δ} {heap heap' : Heap (LuaAtom δ)} {s c n tl : Nat}
  {entries : Nat → List (LuaAtom δ × Value (LuaAtom δ))}

/-- New tables are no matter of the engine. -/
theorem SigTables.built (h : SigTables signals L heap s c) (hbuilt : Built heap n entries heap') :
    SigTables signals L heap' s c := by
  obtain ⟨hregistry, hs, hc⟩ := h.lt_next
  have hnext := hbuilt.next
  refine ⟨?_, ?_, h.stdd_ne, h.cache_ne, by omega, fun i => ?_, fun id sh hfind => ?_⟩
  · rw [hbuilt.old 0 hregistry, h.stddRef]
  · rw [hbuilt.old 0 hregistry, h.cacheRef]
  · rw [hbuilt.old s hs, h.stdd]
  · rw [hbuilt.old c hc, h.cache id sh hfind]

omit [DecidableEq δ] in
theorem SigTables.isBorder (h : SigTables signals L heap s c) (htl : StddLen heap tl) :
    IsBorder L.stdd tl := by
  obtain ⟨hlast, hnext⟩ := htl s h.stddRef
  rw [h.stdd] at hlast hnext
  constructor
  · refine hlast.imp_right fun hne => ?_
    cases hstdd : L.stdd tl with
    | none =>
        rw [hstdd] at hne
        exact absurd rfl hne
    | some d => rfl
  · cases hstdd : L.stdd (tl + 1) with
    | none => rfl
    | some d =>
        rw [hstdd] at hnext
        cases hnext

/-- The program with the entry of the table under its length. -/
theorem getArgsCalls_eq (data : δ → Stdd) (h : SigTables signals L heap s c) (htl : tl ≠ 0)
    {d : δ} (hd : L.stdd tl = some d) (args : List (Value (LuaAtom δ))) :
    ∃ heap', minkLuaGetArgsCalls data tl (onStack heap [] args) =
        some (onStack heap' [.table heap.next, .atom (.data d), .table s] args, 1) ∧
      Built heap (minkLuaCmdDataSz (data d)) (getArgsEntries (data d)) heap' := by
  obtain ⟨heap', htable, hbuilt⟩ :=
    calls_table 13 heap (minkLuaCmdDataSz (data d)) (getArgsEntries (data d))
  have hstdd : calls (onStack heap [] args) [pushString "mink_stdd", .getTable registry] =
      some (onStack heap [.table s] args) := by
    apply calls_onStack
    simp [calls, Trace.exec, State.step, State.push, pushString, registry, tableAt, h.stddRef,
      minStack]
  have hdata : calls (onStack heap [.table s] args)
      [.push (.atom (.num tl)), .getTable (.top 2)] =
      some (onStack heap [.atom (.data d), .table s] args) := by
    apply calls_onStack
    simp [calls, Trace.exec, State.step, State.push, tableAt, peek, Value.number, h.stdd, hd,
      argsValue, minStack]
  have hrows : calls (onStack heap [.atom (.data d), .table s] args)
      (tableOps (minkLuaCmdDataSz (data d)) (getArgsEntries (data d))) =
      some (onStack heap' [.table heap.next, .atom (.data d), .table s] args) := by
    apply calls_onStack
    exact exec_above [.atom (.data d), .table s] htable
  refine ⟨heap', ?_, hbuilt⟩
  unfold minkLuaGetArgsCalls
  rw [hstdd, Option.bind_eq_bind, Option.bind_some]
  refine (if_neg htl).trans ?_
  rw [hdata, Option.bind_some]
  exact congrArg (Option.bind · fun L => some (L, 1)) hrows

omit [DecidableEq δ] in
/-- The tables are others that hold what the engine knows. -/
theorem Implements.writeHeap (h : Implements signals th api) (hlua : th.lua = some L)
    (htables : SigTables signals L heap' s c) :
    Implements signals th { api with heap := some heap' } where
  toStateRel := h.toStateRel.write htables hlua rfl rfl
  wait := h.wait
  last := h.last

/-- The running script reads its own input data. -/
theorem Implements.getArgs (h : Implements signals th api) (hargs : ArgsInv th) {f : Frame δ}
    {fs : List (Frame δ)} (hframes : th.frames = f :: fs) (hheap : api.heap = some heap)
    (htl : StddLen heap tl) (data : δ → Stdd) (args : List (Value (LuaAtom δ))) :
    ∃ heap' below, minkLuaGetArgsCalls data tl (onStack heap [] args) =
        some (onStack heap' (.table heap.next :: below) args, 1) ∧
      TableHolds heap' heap.next (getArgsTable (data f.dIn)) ∧
      (∀ r < heap.next, heap'.tables r = heap.tables r) ∧
      Implements signals th { api with heap := some heap' } := by
  cases hlua : th.lua with
  | none => exact nomatch hframes.symm.trans (h.live hlua)
  | some L =>
      obtain ⟨heap, s, c, hheap', htables⟩ := h.heap_eq_some hlua
      obtain rfl := Option.some.inj (hheap.symm.trans hheap')
      have hstdd : th.stdd = L.stdd := by rw [LuaThread.stdd, hlua]
      have hborder : IsBorder th.stdd tl := hstdd ▸ htables.isBorder htl
      have hget := hargs.getArgs hframes hborder
      unfold minkLuaGetArgs at hget
      obtain ⟨hne, hd⟩ := Option.ite_none_left_eq_some.mp hget
      rw [hstdd] at hd
      obtain ⟨heap', hrun, hbuilt⟩ := getArgsCalls_eq data htables hne hd args
      exact ⟨heap', _, hrun, hbuilt.holds (makes_getArgs _), hbuilt.old,
        h.writeHeap hlua (htables.built hbuilt)⟩

end GetArgs

/-- In every run, whenever a script of a thread is running, `M.get_args` gives it a new table that
is its input data converted, for whatever length `lua_rawlen` finds; no other table changes, and
nothing that the engine knows of the thread's Lua state. What `M.cmd_call` gives for the data of a
plugin is a new table that is the data converted, and no other table changes. -/
theorem data_tables {τ : Type*} [DecidableEq τ] [DecidableEq δ] (signals : Signals LuaSigArgs)
    (data : δ → Stdd) (acts : List (ApiAct τ δ)) :
    (∀ s, Trace.exec (apiStep signals) (.start, fun _ => .start) acts = some s →
      ∀ t f fs heap tl args, (s.1.threads t).frames = f :: fs → (s.2 t).heap = some heap →
        StddLen heap tl →
        ∃ heap' below, minkLuaGetArgsCalls data tl (onStack heap [] args) =
            some (onStack heap' (.table heap.next :: below) args, 1) ∧
          TableHolds heap' heap.next (getArgsTable (data f.dIn)) ∧
          (∀ r < heap.next, heap'.tables r = heap.tables r) ∧
          Implements signals (s.1.threads t) { s.2 t with heap := some heap' }) ∧
    ∀ (heap : Heap (LuaAtom δ)) args d, ∃ heap',
      calls (onStack heap [] args) (tableOps (minkLuaCmdDataSz d) (cmdCallEntries d)) =
        some (onStack heap' [.table heap.next] args) ∧
      TableHolds heap' heap.next (cmdCallTable d) ∧
      ∀ r < heap.next, heap'.tables r = heap.tables r := by
  constructor
  · intro s hexec t f fs heap tl args hframes hheap htl
    have hrun : Trace.exec (Engine.step signals) .start (acts.map ApiAct.act) = some s.1 := by
      rw [← apiExec_map, hexec]
      rfl
    have hargs := Engine.argsInv_reachable ⟨_, hrun⟩ t
    exact (apiExec_implements hexec t).getArgs hargs hframes hheap htl data args
  · intro heap args d
    obtain ⟨heap', htable, hbuilt⟩ :=
      calls_table 15 heap (minkLuaCmdDataSz d) (cmdCallEntries d)
    exact ⟨heap', calls_onStack args htable, hbuilt.holds (makes_cmdCall d), hbuilt.old⟩

end Umink.Lua
