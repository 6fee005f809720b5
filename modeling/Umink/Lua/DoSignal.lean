import Umink.Lua.Authorization
import Umink.Mqtt.Publish

/-!
# The arguments of signal calls

`M.signal` reads at most three arguments from the top of the stack and leaves the script with a
text and a code. What it runs is what `run_signal` runs for the same name, data and user.

## Implementation notes

The texts on the stack are read with a character for each byte, as the names of the signals are.
How a pushed number reads as a text is up to the Lua version (the number 1 as `1` or as `1.0`), so
that text is a parameter.
-/

namespace Umink.Lua

open Umink.Library Umink.Plugin Umink.Mqtt

variable (c : JsonC) (run : LuaSh → UmplgDataStd → UmplgRet × Option String)
  (addJson : String → Bool) (signals : Signals LuaSigArgs)

/-- What `mink_lua_do_signal` pushes when there is no argument: an empty text and
`UMPLG_RES_UNKNOWN_SIGNAL`, which `lua_tostring` reads as the text `unknownSignal`. -/
def noArgs (unknownSignal : CStr) : List LuaValue := [.str .empty, .num unknownSignal]

/-- `mink_lua_do_signal`; the buffer is the text that the script gets. -/
def minkLuaDoSignal (unknownSignal : CStr) (args : List LuaValue) : SignalRun :=
  -- signal name required; the call goes on with what was pushed
  let stack := if args.length < 1 then args ++ noArgs unknownSignal else args
  let idxOffset := if 3 ≤ stack.length then 3 else if 2 ≤ stack.length then 2 else 1
  -- check types
  match (stack.drop (stack.length - idxOffset)).mapM luaString with
  | none => ⟨none, .invalidType, some ""⟩
  | some texts =>
      let text := fun i => (texts[i]?).map CStr.text
      let r := minkLuaSignal c run signals (text 0) (text 1) (text 2)
      { r with out := some (r.out.getD "") }

/-- The name, the data and the user that a call with the arguments is about. -/
inductive Reads (unknownSignal : CStr) :
    List LuaValue → String → Option String → Option String → Prop
  | nothing : Reads unknownSignal [] "" (some unknownSignal.text) none
  | name {v s} (hv : luaString v = some s) : Reads unknownSignal [v] s.text none none
  | data {v w s d} (hv : luaString v = some s) (hw : luaString w = some d) :
      Reads unknownSignal [v, w] s.text (some d.text) none
  | auth {v w x s d a} (front : List LuaValue) (hv : luaString v = some s)
      (hw : luaString w = some d) (hx : luaString x = some a) :
      Reads unknownSignal (front ++ [v, w, x]) s.text (some d.text) (some a.text)

/-- The input of the handler. -/
def signalInput (d auth : Option String) : UmplgDataStd :=
  [[⟨"", d.getD ""⟩, ⟨"", auth.getD ""⟩]]

section Runs

variable {c run addJson signals} {unknownSignal : CStr} {args : List LuaValue} {id : String}
  {d auth : Option String} {sh : LuaSh} {dIn eD : UmplgDataStd}

theorem minkLuaDoSignal_append (front : List LuaValue) (v w x : LuaValue) :
    minkLuaDoSignal c run signals unknownSignal (front ++ [v, w, x]) =
      minkLuaDoSignal c run signals unknownSignal [v, w, x] := by
  have hlen : (front ++ [v, w, x]).length = front.length + 3 := List.length_append
  have hdrop : (front ++ [v, w, x]).drop front.length = [v, w, x] := List.drop_left
  have hstack : ¬ front.length + 3 < 1 := by omega
  have hoffset : 3 ≤ front.length + 3 := by omega
  unfold minkLuaDoSignal
  simp only [hlen, if_neg hstack, if_pos hoffset, Nat.add_sub_cancel, hdrop]
  rfl

/-- A call that reads its arguments runs the signal with them. -/
theorem minkLuaDoSignal_of_reads (h : Reads unknownSignal args id d auth) :
    minkLuaDoSignal c run signals unknownSignal args =
      { minkLuaSignal c run signals (some id) d auth with
        out := some ((minkLuaSignal c run signals (some id) d auth).out.getD "") } := by
  cases h with
  | nothing => rfl
  | name hv => simp [minkLuaDoSignal, hv]
  | data hv hw => simp [minkLuaDoSignal, hv, hw]
  | auth front hv hw hx =>
      rw [minkLuaDoSignal_append]
      simp [minkLuaDoSignal, hv, hw, hx]

/-- The stack has less than three values, or three on its top. -/
theorem stack_cases (args : List LuaValue) :
    args = [] ∨ (∃ v, args = [v]) ∨ (∃ v w, args = [v, w]) ∨
      ∃ front v w x, args = front ++ [v, w, x] := by
  obtain hless | hthree := Nat.lt_or_ge args.length 3
  · obtain _ | ⟨v, _ | ⟨w, _ | ⟨x, rest⟩⟩⟩ := args
    · exact .inl rfl
    · exact .inr (.inl ⟨v, rfl⟩)
    · exact .inr (.inr (.inl ⟨v, w, rfl⟩))
    · simp only [List.length_cons] at hless
      omega
  · have hlen : (args.drop (args.length - 3)).length = 3 := by
      rw [List.length_drop]
      omega
    obtain ⟨v, w, x, htop⟩ := List.length_eq_three.mp hlen
    refine .inr (.inr (.inr ⟨args.take (args.length - 3), v, w, x, ?_⟩))
    rw [← htop, List.take_append_drop]

/-- A call whose arguments are not read runs nothing. -/
theorem reads_or (args : List LuaValue) :
    (∃ id d auth, Reads unknownSignal args id d auth) ∨
      minkLuaDoSignal c run signals unknownSignal args = ⟨none, .invalidType, some ""⟩ := by
  obtain rfl | ⟨v, rfl⟩ | ⟨v, w, rfl⟩ | ⟨front, v, w, x, rfl⟩ := stack_cases args
  · exact .inl ⟨_, _, _, .nothing⟩
  · cases hv : luaString v with
    | none => exact .inr (by simp [minkLuaDoSignal, hv])
    | some s => exact .inl ⟨_, _, _, .name hv⟩
  · cases hv : luaString v with
    | none => exact .inr (by simp [minkLuaDoSignal, hv])
    | some s =>
        cases hw : luaString w with
        | none => exact .inr (by simp [minkLuaDoSignal, hv, hw])
        | some d => exact .inl ⟨_, _, _, .data hv hw⟩
  · rw [minkLuaDoSignal_append]
    cases hv : luaString v with
    | none => exact .inr (by simp [minkLuaDoSignal, hv])
    | some s =>
        cases hw : luaString w with
        | none => exact .inr (by simp [minkLuaDoSignal, hv, hw])
        | some d =>
            cases hx : luaString x with
            | none => exact .inr (by simp [minkLuaDoSignal, hv, hw, hx])
            | some a => exact .inl ⟨_, _, _, .auth front hv hw hx⟩

/-- The handler runs exactly if the signal is registered and its level is reached. -/
theorem procSignal_invoked_iff {u : Int} :
    (procSignal run signals (some id) eD u).invoked = some (sh, dIn) ↔
      signals.find id = some sh ∧ (sh.minAuthLvl.toNat : Int) ≤ u ∧ dIn = eD := by
  have hok := @umplgProcSignal_ok_iff _ signals id u sh
  unfold procSignal
  cases hrun : umplgProcSignal signals (some id) u with
  | error e =>
      rw [hrun] at hok
      exact iff_of_false nofun fun h => nomatch hok.mpr ⟨h.1, h.2.1⟩
  | ok sh' =>
      rw [hrun, Except.ok.injEq] at hok
      rw [Option.some.injEq, Prod.mk.injEq, hok, and_assoc]
      exact and_congr_right fun _ => and_congr_right fun _ => eq_comm

/-- The run for a name, data and a user: the flags are those that the auth argument carries. -/
def requestRun (c : JsonC) (run : LuaSh → UmplgDataStd → UmplgRet × Option String)
    (signals : Signals LuaSigArgs) (id : String) (d auth : Option String) : SignalRun :=
  procSignal run signals (some id) (signalInput d auth) (c.getInt (authFlags c auth))

theorem minkLuaSignal_eq (id : String) (d auth : Option String) :
    minkLuaSignal c run signals (some id) d auth =
      { requestRun c run signals id d auth with
        out := if (requestRun c run signals id d auth).res = .success then
          (requestRun c run signals id d auth).out else some "" } := by
  cases auth with
  | none => rfl
  | some auth => rfl

theorem runSignal_eq (id : String) (d auth : Option String) :
    (runSignal c run addJson signals ⟨some id, d, auth⟩).1 =
      some (requestRun c run signals id d auth) := by
  cases auth with
  | none => rfl
  | some auth =>
      have hrun := congrArg (procSignal run signals (some id) (signalInput d (some auth)))
        (@tokenerParse_flags c auth)
      exact congrArg some hrun

/-- What a call that reads its arguments leaves the script with. -/
theorem minkLuaDoSignal_run (h : Reads unknownSignal args id d auth) :
    minkLuaDoSignal c run signals unknownSignal args =
      { requestRun c run signals id d auth with
        out := some (if (requestRun c run signals id d auth).res = .success then
          (requestRun c run signals id d auth).out.getD "" else "") } := by
  rw [minkLuaDoSignal_of_reads h, minkLuaSignal_eq, apply_ite fun out => Option.getD out ""]
  rfl

end Runs

/-- A script's call of `M.signal` with any arguments runs a handler exactly if what it reads from
the top of the stack names a registered signal whose level the flags of the user reach. It is the
run that `run_signal` makes for the same request: the script gets its code, and its buffer if the
code is success. A call with a value that is no text among those read runs nothing. -/
theorem do_signal_iff (unknownSignal : CStr) (args : List LuaValue) :
    let r := minkLuaDoSignal c run signals unknownSignal args
    (∀ sh dIn, r.invoked = some (sh, dIn) ↔ ∃ id d auth, Reads unknownSignal args id d auth ∧
      signals.find id = some sh ∧ (sh.minAuthLvl.toNat : Int) ≤ c.getInt (authFlags c auth) ∧
      dIn = signalInput d auth) ∧
    (∀ id d auth, Reads unknownSignal args id d auth →
      ∃ r', (runSignal c run addJson signals ⟨some id, d, auth⟩).1 = some r' ∧
        r.invoked = r'.invoked ∧ r.res = r'.res ∧
        r.out = some (if r'.res = .success then r'.out.getD "" else "")) ∧
    ((∀ id d auth, ¬ Reads unknownSignal args id d auth) →
      r.invoked = none ∧ r.res = .invalidType ∧ r.out = some "") := by
  intro r
  have hr : r = minkLuaDoSignal c run signals unknownSignal args := rfl
  clear_value r
  refine ⟨fun sh dIn => ?_, ?_, ?_⟩
  · constructor
    · intro hinv
      obtain ⟨id, d, auth, hreads⟩ | hinvalid := @reads_or c run signals unknownSignal args
      · rw [hr, minkLuaDoSignal_run hreads] at hinv
        exact ⟨id, d, auth, hreads, procSignal_invoked_iff.mp hinv⟩
      · rw [hr, hinvalid] at hinv
        cases hinv
    · rintro ⟨id, d, auth, hreads, hcalled⟩
      rw [hr, minkLuaDoSignal_run hreads]
      exact procSignal_invoked_iff.mpr hcalled
  · intro id d auth hreads
    refine ⟨requestRun c run signals id d auth, runSignal_eq id d auth, ?_⟩
    rw [hr, minkLuaDoSignal_run hreads]
    exact ⟨rfl, rfl, rfl⟩
  · intro hno
    obtain ⟨id, d, auth, hreads⟩ | hinvalid := @reads_or c run signals unknownSignal args
    · exact absurd hreads (hno id d auth)
    · rw [hr, hinvalid]
      exact ⟨rfl, rfl, rfl⟩

end Umink.Lua
