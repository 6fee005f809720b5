import Umink.Library.CharArray

/-!
# The name of the daemon and its command line

`umd_create` and `umd_set_id` keep the id and the type of the daemon in fields of 30
bytes and its full name in a buffer that is made to measure. `proc_args` goes through
the options of the command line; it counts the mandatory ones by their occurrences.

## Implementation notes

`getopt_long` is outside of the model: a command line is the list of options that it
reports. A store outside of a buffer is undefined, and a run ends with it. `malloc` and
`realloc` leave arbitrary contents where nothing was written, and the name is always
written as a whole.
-/

namespace Umink.Daemon

open Umink.Library

/-- `UMD_ID_MAX_SZ`. -/
abbrev umdIdMaxSz : Nat := 30

inductive UmdLogLevel where
  | error
  | warning
  | info
  | debug
  deriving DecidableEq, Repr

/-- `umdaemon_t`, up to its handlers. `fqn` is the buffer with its size. -/
structure Umdaemon where
  isTerminated : UInt8
  id : CharArray umdIdMaxSz
  type : CharArray umdIdMaxSz
  fqn : Σ n, CharArray n
  logLevel : UmdLogLevel

theorem mink_noNul : 0 ∉ "mink.".toList.map fun c => UInt8.ofNat c.toNat := by decide

theorem dot_noNul : 0 ∉ ".".toList.map fun c => UInt8.ofNat c.toNat := by decide

theorem umdType_noNul : 0 ∉ "umsysagent".toList.map fun c => UInt8.ofNat c.toNat := by decide

def minkDot : CStr := CStr.ascii "mink." mink_noNul

def dot : CStr := CStr.ascii "." dot_noNul

/-- `UMD_TYPE`. -/
def umdType : CStr := CStr.ascii "umsysagent" umdType_noNul

/-- The full name of a daemon. -/
def fullName (type id : CStr) : CStr := minkDot ++ type ++ dot ++ id

/-- The four copies that `umd_create` and `umd_set_id` make the full name with, and the NUL
behind them. -/
def writeFqn {n : Nat} (fqn : CharArray n) (type id : CStr) : Except Fault (CharArray n) := do
  let l1 := id.length
  let l2 := type.length
  let fqn ← fqn.strcpy minkDot
  let fqn ← fqn.memcpy 5 (type.bytes ++ [0])
  let fqn ← fqn.memcpy (5 + l2) (dot.bytes ++ [0])
  let fqn ← fqn.memcpy (6 + l2) (id.bytes ++ [0])
  fqn.store (l2 + l1 + 6) 0

/-- `umd_create`; `mem` is what the buffer of the name holds before. -/
def umdCreate (mem : Nat → UInt8) (id type : Option CStr) : Except Fault (Option Umdaemon) :=
  match id, type with
  | some id, some type =>
      let l1 := id.length
      let l2 := type.length
      if l1 < umdIdMaxSz ∧ l2 < umdIdMaxSz then do
        -- id/type
        let resId ← (CharArray.uninit umdIdMaxSz fun _ => 0).strcpy id
        let resType ← (CharArray.uninit umdIdMaxSz fun _ => 0).strcpy type
        -- fqn
        let fqn ← writeFqn (CharArray.uninit (l2 + l1 + 7) mem) type id
        return some ⟨0, resId, resType, ⟨_, fqn⟩, .info⟩
      else return none
  | _, _ => return none

/-- `umd_set_id`: the code and the daemon. -/
def umdSetId (mem : Nat → UInt8) (umd : Umdaemon) (id : Option CStr) :
    Except Fault (Nat × Umdaemon) :=
  match id with
  | none => return (1, umd)
  | some id =>
      if id.length ≥ umdIdMaxSz then return (1, umd)
      else do
        let umdId ← umd.id.strcpy id
        let type ← umd.type.str
        let l1 := id.length
        let l2 := type.length
        -- change fqn
        let fqn ← writeFqn (CharArray.uninit (l2 + l1 + 7) mem) type id
        return (0, { umd with id := umdId, fqn := ⟨_, fqn⟩ })

/-- `umd_set_log_level`. -/
def umdSetLogLevel (umd : Umdaemon) (ll : UmdLogLevel) : Umdaemon := { umd with logLevel := ll }

/-- An option that `getopt_long` reports. -/
inductive Opt where
  /-- `--plugins-cfg`. -/
  | pluginsCfg (optarg : CStr)
  /-- `-i`. -/
  | id (optarg : CStr)
  /-- `-p`. -/
  | path (optarg : CStr)
  /-- `-v`. -/
  | version
  /-- `-D`. -/
  | debug
  /-- `-?`, or an unknown option. -/
  | other
  deriving DecidableEq

/-- The daemon with the members of `sysagentdd_t` that the command line sets. -/
structure Args where
  umd : Umdaemon
  plgCfgF : Option CStr
  plgPth : Option CStr

inductive ArgsRes where
  | exitSuccess
  | exitFailure
  /-- `proc_args` returns. -/
  | run (a : Args)

/-- `proc_args`, from an option on; `mpc` mandatory ones came before. -/
def procOpts (mem : Nat → UInt8) (a : Args) (mpc : Nat) : List Opt → Except Fault ArgsRes
  | [] => return if mpc < 3 then .exitFailure else .run a
  | .pluginsCfg optarg :: opts => procOpts mem { a with plgCfgF := some optarg } (mpc + 1) opts
  | .id optarg :: opts => do
      let (res, umd) ← umdSetId mem a.umd (some optarg)
      if res ≠ 0 then return .exitFailure
      procOpts mem { a with umd := umd } (mpc + 1) opts
  | .path optarg :: opts => procOpts mem { a with plgPth := some optarg } (mpc + 1) opts
  | .version :: _ => return .exitSuccess
  | .debug :: opts => procOpts mem { a with umd := umdSetLogLevel a.umd .debug } mpc opts
  | .other :: opts => procOpts mem a mpc opts

/-- The option is one of the three that a command line needs. -/
def Opt.mandatory : Opt → Bool
  | .pluginsCfg _ | .id _ | .path _ => true
  | .version | .debug | .other => false

/-- The option ends the program: `-v`, or an id that does not fit. -/
def Opt.stops : Opt → Bool
  | .version => true
  | .id optarg => umdIdMaxSz ≤ optarg.length
  | .pluginsCfg _ | .path _ | .debug | .other => false

def Opt.idArg : Opt → Option CStr
  | .id optarg => some optarg
  | _ => none

def Opt.cfgArg : Opt → Option CStr
  | .pluginsCfg optarg => some optarg
  | _ => none

def Opt.pathArg : Opt → Option CStr
  | .path optarg => some optarg
  | _ => none

/-- The fields and the buffer of a daemon hold an id, a type and the full name of the two. -/
structure Named (umd : Umdaemon) (id type : CStr) : Prop where
  idStr : umd.id.str = .ok id
  typeStr : umd.type.str = .ok type
  fqnStr : umd.fqn.2.str = .ok (fullName type id)

/-- How a command line ends for a daemon with an id and a log level, after `mpc` mandatory
options. -/
inductive Ends (a : Args) (id : CStr) (mpc : Nat) (opts : List Opt) : ArgsRes → Prop
  | version (h : opts.find? Opt.stops = some .version) : Ends a id mpc opts .exitSuccess
  | longId {optarg} (h : opts.find? Opt.stops = some (.id optarg)) :
      Ends a id mpc opts .exitFailure
  | missing (h : opts.find? Opt.stops = none) (hcount : mpc + opts.countP Opt.mandatory < 3) :
      Ends a id mpc opts .exitFailure
  | run {b : Args} (h : opts.find? Opt.stops = none)
      (hcount : 3 ≤ mpc + opts.countP Opt.mandatory)
      (hnamed : Named b.umd ((opts.filterMap Opt.idArg).getLast?.getD id) umdType)
      (hlevel : b.umd.logLevel = if .debug ∈ opts then .debug else a.umd.logLevel)
      (hcfg : b.plgCfgF = (opts.filterMap Opt.cfgArg).getLast?.or a.plgCfgF)
      (hpath : b.plgPth = (opts.filterMap Opt.pathArg).getLast?.or a.plgPth) :
      Ends a id mpc opts (.run b)

section Names

variable {mem : Nat → UInt8} {umd : Umdaemon} {id id' type : CStr}

theorem length_minkDot : minkDot.length = 5 := rfl

theorem length_dot : dot.length = 1 := rfl

/-- A buffer of the size that both functions ask for takes the full name. -/
theorem writeFqn_of_lt {n : Nat} {fqn : CharArray n} (h : type.length + id.length + 6 < n) :
    ∃ b, writeFqn fqn type id = .ok b ∧ b.str = .ok (fullName type id) := by
  obtain ⟨b₁, hcopy₁, hstr₁⟩ := @CharArray.strcpy_of_lt n fqn minkDot
    (by rw [length_minkDot]; omega)
  obtain ⟨b₂, hcopy₂, hstr₂⟩ := CharArray.memcpy_length (s := type) hstr₁
    (by rw [length_minkDot]; omega)
  obtain ⟨b₃, hcopy₃, hstr₃⟩ := CharArray.memcpy_length (s := dot) hstr₂
    (by rw [CStr.length_append, length_minkDot, length_dot]; omega)
  obtain ⟨b₄, hcopy₄, hstr₄⟩ := CharArray.memcpy_length (s := id) hstr₃
    (by rw [CStr.length_append, CStr.length_append, length_minkDot, length_dot]; omega)
  obtain ⟨b₅, hstore, hstr₅⟩ := CharArray.store_length hstr₄
  refine ⟨b₅, ?_, hstr₅⟩
  have hlen₂ : (minkDot ++ type).length = 5 + type.length := by
    rw [CStr.length_append, length_minkDot]
  have hlen₃ : (minkDot ++ type ++ dot).length = 6 + type.length := by
    rw [CStr.length_append, hlen₂, length_dot, Nat.add_right_comm]
  have hlen₄ : (minkDot ++ type ++ dot ++ id).length = type.length + id.length + 6 := by
    rw [CStr.length_append, hlen₃]
    omega
  rw [length_minkDot] at hcopy₂
  rw [hlen₂] at hcopy₃
  rw [hlen₃] at hcopy₄
  rw [hlen₄] at hstore
  rw [writeFqn, hcopy₁, ok_bind, hcopy₂, ok_bind, hcopy₃, ok_bind, hcopy₄, ok_bind, hstore]

theorem umdCreate_of_lt (hid : id.length < umdIdMaxSz) (htype : type.length < umdIdMaxSz) :
    ∃ umd, umdCreate mem (some id) (some type) = .ok (some umd) ∧ Named umd id type ∧
      umd.logLevel = .info := by
  obtain ⟨resId, hresId, hidStr⟩ := CharArray.strcpy_of_lt
    (a := CharArray.uninit umdIdMaxSz fun _ => 0) hid
  obtain ⟨resType, hresType, htypeStr⟩ := CharArray.strcpy_of_lt
    (a := CharArray.uninit umdIdMaxSz fun _ => 0) htype
  obtain ⟨fqn, hfqn, hfqnStr⟩ := @writeFqn_of_lt id type _
    (CharArray.uninit (type.length + id.length + 7) mem) (Nat.lt_succ_self _)
  refine ⟨⟨0, resId, resType, ⟨_, fqn⟩, .info⟩, ?_, ⟨hidStr, htypeStr, hfqnStr⟩, rfl⟩
  rw [umdCreate, if_pos ⟨hid, htype⟩, hresId, ok_bind, hresType, ok_bind, hfqn]
  rfl

theorem umdSetId_of_le (umd : Umdaemon) (h : umdIdMaxSz ≤ id.length) :
    umdSetId mem umd (some id) = .ok (1, umd) := if_pos h

/-- An id that fits replaces the one before and leaves the rest of the daemon alone. -/
theorem umdSetId_of_lt (h : Named umd id' type) (hid : id.length < umdIdMaxSz) :
    ∃ umd', umdSetId mem umd (some id) = .ok (0, umd') ∧ Named umd' id type ∧
      umd'.logLevel = umd.logLevel := by
  obtain ⟨umdId, hcopy, hidStr⟩ := CharArray.strcpy_of_lt (a := umd.id) hid
  obtain ⟨fqn, hfqn, hfqnStr⟩ := @writeFqn_of_lt id type _
    (CharArray.uninit (type.length + id.length + 7) mem) (Nat.lt_succ_self _)
  refine ⟨{ umd with id := umdId, fqn := ⟨_, fqn⟩ }, ?_, ⟨hidStr, h.typeStr, hfqnStr⟩, rfl⟩
  rw [umdSetId, if_neg (Nat.not_le_of_lt hid), hcopy, ok_bind, h.typeStr, ok_bind]
  dsimp only
  rw [hfqn]
  rfl

end Names

section Options

variable {a b : Args} {id : CStr} {mpc : Nat} {o : Opt} {opts : List Opt} {r : ArgsRes}

/-- An option that does not end the program, and the rest of the command line. -/
theorem Ends.cons {id' : CStr} {mpc' : Nat} (h : Ends b id' mpc' opts r) (hstop : o.stops = false)
    (hmpc : mpc' = mpc + if o.mandatory then 1 else 0) (hid : id' = (o.idArg).getD id)
    (hlevel : b.umd.logLevel = if o = .debug then .debug else a.umd.logLevel)
    (hcfg : b.plgCfgF = o.cfgArg.or a.plgCfgF) (hpath : b.plgPth = o.pathArg.or a.plgPth) :
    Ends a id mpc (o :: opts) r := by
  have hfind : (o :: opts).find? Opt.stops = opts.find? Opt.stops :=
    List.find?_cons_of_neg (by simp [hstop])
  have hcount : mpc' + opts.countP Opt.mandatory = mpc + (o :: opts).countP Opt.mandatory := by
    rw [List.countP_cons, hmpc]
    omega
  have hlastD : ((o :: opts).filterMap Opt.idArg).getLast?.getD id =
      (opts.filterMap Opt.idArg).getLast?.getD id' := by
    rw [List.filterMap_cons, hid]
    cases o.idArg with
    | none => rfl
    | some x => rw [List.getLast?_cons, Option.getD_some, Option.getD_some]
  have hlast : ∀ {α : Type} (f : Opt → Option α) (d : Option α),
      ((o :: opts).filterMap f).getLast?.or d = (opts.filterMap f).getLast?.or ((f o).or d) := by
    intro α f d
    rw [List.filterMap_cons]
    cases f o with
    | none => rfl
    | some x =>
        rw [List.getLast?_cons]
        cases (opts.filterMap f).getLast? <;> rfl
  cases h with
  | version h => exact .version (hfind.trans h)
  | longId h => exact .longId (hfind.trans h)
  | missing h hless => exact .missing (hfind.trans h) (hcount ▸ hless)
  | @run c h henough hnamed hlevel' hcfg' hpath' =>
      refine .run (hfind.trans h) (hcount ▸ henough) ?_ ?_ ?_ ?_
      · rwa [hlastD]
      · rw [hlevel', hlevel]
        by_cases ho : o = .debug
        · simp [ho]
        · simp [ho, Ne.symm ho]
      · rw [hcfg', hcfg, hlast]
      · rw [hpath', hpath, hlast]

/-- Every command line ends without a store outside of a buffer. -/
theorem procOpts_ends (mem : Nat → UInt8) (h : Named a.umd id umdType) :
    ∃ r, procOpts mem a mpc opts = .ok r ∧ Ends a id mpc opts r := by
  induction opts generalizing a id mpc with
  | nil =>
      by_cases hmpc : mpc < 3
      · exact ⟨.exitFailure, congrArg Except.ok (if_pos hmpc), .missing rfl hmpc⟩
      · exact ⟨.run a, congrArg Except.ok (if_neg hmpc), .run rfl (Nat.le_of_not_lt hmpc) h rfl
          rfl rfl⟩
  | cons o opts ih =>
      cases o with
      | version => exact ⟨.exitSuccess, rfl, .version rfl⟩
      | id optarg =>
          by_cases hlong : umdIdMaxSz ≤ optarg.length
          · refine ⟨.exitFailure, ?_, .longId (List.find?_cons_of_pos (by simpa [Opt.stops]))⟩
            rw [procOpts, umdSetId_of_le a.umd hlong, ok_bind]
            rfl
          · obtain ⟨umd, hset, hnamed, hlevel⟩ := @umdSetId_of_lt mem _ _ _ _ h
              (Nat.lt_of_not_le hlong)
            obtain ⟨r, hr, hends⟩ := @ih { a with umd := umd } _ (mpc + 1) hnamed
            refine ⟨r, ?_, hends.cons (by simpa [Opt.stops] using hlong) rfl rfl
              (hlevel.trans (if_neg Opt.noConfusion).symm) rfl rfl⟩
            rw [procOpts, hset, ok_bind]
            exact hr
      | pluginsCfg optarg =>
          obtain ⟨r, hr, hends⟩ := @ih { a with plgCfgF := some optarg } _ (mpc + 1) h
          exact ⟨r, hr, hends.cons rfl rfl rfl rfl rfl rfl⟩
      | path optarg =>
          obtain ⟨r, hr, hends⟩ := @ih { a with plgPth := some optarg } _ (mpc + 1) h
          exact ⟨r, hr, hends.cons rfl rfl rfl rfl rfl rfl⟩
      | debug =>
          obtain ⟨r, hr, hends⟩ := @ih { a with umd := umdSetLogLevel a.umd .debug } _ mpc
            ⟨h.idStr, h.typeStr, h.fqnStr⟩
          exact ⟨r, hr, hends.cons rfl rfl rfl rfl rfl rfl⟩
      | other =>
          obtain ⟨r, hr, hends⟩ := ih h
          exact ⟨r, hr, hends.cons rfl rfl rfl rfl rfl rfl⟩

end Options

/-- For every command line: no store is outside of a buffer, the program ends at the first
`-v` or too long id, or for want of three mandatory options, and else goes on under the full
name with the last id. Repeated options count as well, so that any of the three may be
missing then. -/
theorem command_line_ends (mem : Nat → UInt8) (opts : List Opt) :
    ∃ umd r, umdCreate mem (some CStr.empty) (some umdType) = .ok (some umd) ∧
      procOpts mem ⟨umd, none, none⟩ 0 opts = .ok r ∧
      Ends ⟨umd, none, none⟩ CStr.empty 0 opts r := by
  obtain ⟨umd, hcreate, hnamed, -⟩ := @umdCreate_of_lt mem CStr.empty umdType (by decide)
    (by decide)
  obtain ⟨r, hr, hends⟩ := @procOpts_ends ⟨umd, none, none⟩ _ 0 opts mem hnamed
  exact ⟨umd, r, hcreate, hr, hends⟩

end Umink.Daemon
