import Umink.Library.JsonText
import Umink.MosquittoAuth.UnpwdCheck

/-!
# The identity header of published messages

`cb_pld_mod` wraps the JSON payload of a message on a `mink/` topic into an
object that names the publishing user under `mink_usr`. A payload that
`json_tokener_parse` rejects is passed on as it is. The header is genuine for
every recipient exactly when no such payload shows the recipient another one.

## Implementation notes

`json_tokener_parse` and `json_object_to_json_string_ext` are parameters. They
take and give C strings, whose bytes end before the first NUL; a null value
stands for a null pointer.
-/

namespace Umink.MosquittoAuth

open Umink.Library Umink.Umdb

/-- The C string in a buffer that ends with a NUL. -/
def cString (bs : List UInt8) : List UInt8 := bs.takeWhile (· ≠ 0)

variable (tokenerParse : List UInt8 → Json) (toJsonString : Json → Option (List UInt8))

/-- `strncmp(topic, "mink/", 5)` finds the prefix. -/
def isMinkTopic (topic : String) : Bool := "mink/".toList.isPrefixOf topic.toList

/-- The header asks to be left out: its `skip` member is true. -/
def skipHeader (jMusrSkip : Json) : Bool :=
  match jMusrSkip with
  | .bool b => b
  | _ => false

/-- The value that replaces the payload `j`: the header of the client is removed
and, unless it asks to be left out, `jMusr` and the rest are wrapped. -/
def newPayload (jMusr j : Json) : Json :=
  let (skipMusr, j) :=
    if !(j.field "mink_usr").isNull then
      (skipHeader ((j.field "mink_usr").field "skip"), j.erase "mink_usr")
    else (false, j)
  -- add mink user info
  if !skipMusr then .obj [("mink_usr", jMusr), ("mink_pld", j)]
  -- do not include mink user info
  else j

/-- `cb_pld_mod`: the result and the payload of the message. `uauth` is what the
automatic variable holds at its declaration. -/
def cbPldMod (dbm : Dbm) (sql : SqlCalls) (uauth : UmdbUauth) (topic : String)
    (username : Option String) (payload : List UInt8) : MosqErr × List UInt8 :=
  -- skip non-mink topics
  if !isMinkTopic topic then (.success, payload)
  else
    let (r, uauth) := umdbMngrUget dbm sql uauth username
    if r ≠ 0 then (.auth, payload)
    else
      let j := tokenerParse (cString payload)
      if j.isNull then (.success, payload)
      else
        let jMusr := .obj [("uid", .int uauth.id), ("flags", .int uauth.flags)]
        match toJsonString (newPayload jMusr j) with
        | none => (.malformedPacket, payload)
        | some npld => (.success, npld)

/-- The header of a user: the columns of its row, or those of an unknown user. -/
def usrHeader (users : List UserRow) (username : String) : Json :=
  .obj [("uid", .int (usrColumns users username).1), ("flags", .int (usrColumns users username).2)]

/-- What the recipient reads from the payload has no header but `usr`. -/
def HeaderGenuine (read : List UInt8 → Option Json) (usr : Json) (payload : List UInt8) : Prop :=
  ∀ v, read payload = some v → ∀ w, v.HasMember "mink_usr" w → w = usr

section Genuine

variable {tokenerParse toJsonString} {read : List UInt8 → Option Json} {dbm : Dbm} {sql : SqlCalls}
  {uauth : UmdbUauth} {topic : String} {username : Option String} {payload : List UInt8}
  {users : List UserRow} {u : String}

theorem newPayload_member {jMusr j w : Json} (h : (newPayload jMusr j).HasMember "mink_usr" w) :
    w = jMusr := by
  have hwrapped : ∀ pld : Json,
      (Json.obj [("mink_usr", jMusr), ("mink_pld", pld)]).HasMember "mink_usr" w → w = jMusr :=
    fun pld hw => by simpa [Json.hasMember_obj_iff] using hw
  unfold newPayload at h
  split_ifs at h with hmusr
  · cases hskip : skipHeader ((j.field "mink_usr").field "skip") with
    | true => simp [hskip, Json.not_hasMember_erase] at h
    | false =>
        simp only [hskip, Bool.not_false, if_true] at h
        exact hwrapped _ h
  · exact hwrapped _ h

/-- What `newPayload` keeps of the payload: all but a header. -/
def unheaded (j : Json) : Json := if (j.field "mink_usr").isNull then j else j.erase "mink_usr"

/-- The payload is wrapped with the header unless its own header asks to be left out. -/
theorem newPayload_eq (jMusr j : Json) :
    newPayload jMusr j =
      if skipHeader ((j.field "mink_usr").field "skip") then unheaded j
      else .obj [("mink_usr", jMusr), ("mink_pld", unheaded j)] := by
  unfold newPayload unheaded
  cases hmusr : (j.field "mink_usr").isNull with
  | true =>
      have hskip : skipHeader ((j.field "mink_usr").field "skip") = false := by
        cases hval : j.field "mink_usr" with
        | null => rfl
        | _ => simp [hval, Json.isNull] at hmusr
      simp [hskip]
  | false => cases skipHeader ((j.field "mink_usr").field "skip") <;> simp

/-- `cb_pld_mod` on a `mink/` topic for a user whose columns are read. -/
theorem cbPldMod_of_uget (htopic : isMinkTopic topic = true)
    (hget : (umdbMngrUget (some users) sql uauth (some u)).1 = 0) :
    cbPldMod tokenerParse toJsonString (some users) sql uauth topic (some u) payload =
      if (tokenerParse (cString payload)).isNull then (.success, payload)
      else
        match toJsonString (newPayload (usrHeader users u) (tokenerParse (cString payload))) with
        | none => (.malformedPacket, payload)
        | some npld => (.success, npld) := by
  obtain ⟨users', husers, hres⟩ := umdbMngrUget_of_zero hget
  obtain rfl := Option.some.inj husers
  simp only [cbPldMod, htopic, hres, Bool.not_true, Bool.false_eq_true, if_false, ne_eq,
    not_true_eq_false]
  rfl

/-- On `mink/` topics the payload of a message that is let through shows every
recipient the header of the publishing user or none, exactly when a payload that
the tokener rejects does so as it is. Of a printed value the recipient need only
read no header that was not printed. -/
theorem header_genuine_iff
    (hread : ∀ v t v', toJsonString v = some t → read t = some v' →
      ∀ w, v'.HasMember "mink_usr" w → v.HasMember "mink_usr" w)
    (htopic : isMinkTopic topic = true) :
    ((cbPldMod tokenerParse toJsonString dbm sql uauth topic username payload).1 = .success →
      ∃ users u, dbm = some users ∧ username = some u ∧
        HeaderGenuine read (usrHeader users u)
          (cbPldMod tokenerParse toJsonString dbm sql uauth topic username payload).2) ↔
    ∀ users u, dbm = some users → username = some u →
      (umdbMngrUget dbm sql uauth username).1 = 0 →
      (tokenerParse (cString payload)).isNull = true →
      HeaderGenuine read (usrHeader users u) payload := by
  constructor
  · rintro h users u rfl rfl hget hnull
    rw [cbPldMod_of_uget htopic hget, if_pos hnull] at h
    obtain ⟨users', u', husers, hu, hgenuine⟩ := h rfl
    obtain rfl := Option.some.inj husers
    obtain rfl := Option.some.inj hu
    exact hgenuine
  · intro h hsuccess
    by_cases hget : (umdbMngrUget dbm sql uauth username).1 = 0
    · rcases username with _ | u
      · cases dbm <;> simp [umdbMngrUget] at hget
      obtain ⟨users, rfl, -⟩ := umdbMngrUget_of_zero hget
      refine ⟨users, u, rfl, rfl, ?_⟩
      rw [cbPldMod_of_uget htopic hget] at hsuccess ⊢
      cases hnull : (tokenerParse (cString payload)).isNull with
      | true =>
          rw [if_pos rfl]
          exact h users u rfl rfl hget hnull
      | false =>
          simp only [hnull, Bool.false_eq_true, if_false] at hsuccess ⊢
          cases hprint : toJsonString
              (newPayload (usrHeader users u) (tokenerParse (cString payload))) with
          | none => simp [hprint] at hsuccess
          | some npld =>
              intro v hv w hw
              exact newPayload_member (hread _ _ _ hprint hv w hw)
    · simp [cbPldMod, htopic, hget] at hsuccess

end Genuine

section DeepPayload

/-- A parser with the default depth limit of json-c. -/
def tokenerParse32 (bs : List UInt8) : Json := (Json.readBytes 32 bs).getD .null

def toJsonStringPlain (v : Json) : Option (List UInt8) := some v.printBytes

/-- A recipient without a depth limit reads what is printed. -/
theorem readBytesAny_toJsonStringPlain (v : Json) (t : List UInt8) (v' : Json)
    (h : toJsonStringPlain v = some t) (hread : Json.readBytesAny t = some v') (w : Json)
    (hw : v'.HasMember "mink_usr" w) : v.HasMember "mink_usr" w := by
  obtain rfl := Option.some.inj h
  rw [Json.readBytesAny_printBytes] at hread
  exact Option.some.inj hread ▸ hw

def forgedUsr : Json := .obj [("uid", .int 1), ("flags", .int 1)]

def plainUsers : List UserRow := [⟨2, "user", "password", 0⟩]

/-- A shallow payload with a header of the client's own. -/
def shallowPld : Json := .obj [("mink_usr", forgedUsr), ("id", .int 7)]

theorem tokenerParse32_shallowPld :
    tokenerParse32 (cString shallowPld.printBytes) = shallowPld := by
  have hcstring : cString shallowPld.printBytes = shallowPld.printBytes := by decide +kernel
  rw [hcstring, tokenerParse32, Json.readBytes_printBytes (by decide), Option.getD_some]

/-- The header of a shallow payload is replaced. -/
theorem header_genuine_iff_shallow :
    ∃ users u, some plainUsers = some users ∧ some "user" = some u ∧
      HeaderGenuine Json.readBytesAny (usrHeader users u)
        (cbPldMod tokenerParse32 toJsonStringPlain (some plainUsers) SqlCalls.success
          ⟨0, 0, 0, none⟩ "mink/dev/session/req" (some "user") shallowPld.printBytes).2 := by
  have hsuccess : (cbPldMod tokenerParse32 toJsonStringPlain (some plainUsers) SqlCalls.success
      ⟨0, 0, 0, none⟩ "mink/dev/session/req" (some "user") shallowPld.printBytes).1 =
      .success := by
    rw [cbPldMod_of_uget (by decide) (by decide), tokenerParse32_shallowPld]
    rfl
  refine (header_genuine_iff readBytesAny_toJsonStringPlain (by decide)).mpr ?_ hsuccess
  intro _ _ _ _ _ hnull
  rw [tokenerParse32_shallowPld] at hnull
  cases hnull

/-- Arrays nested `n` deep. -/
def nested : Nat → Json
  | 0 => .arr []
  | n + 1 => .arr [nested n]

theorem depth_nested (n : Nat) : (nested n).depth = n + 1 := by
  induction n with
  | zero => rfl
  | succ n ih => simp [nested, Json.depth, Json.depthElems, ih]

/-- A payload with the header of the administrator and a deep member. -/
def forgedPld : Json := .obj [("mink_usr", forgedUsr), ("pad", nested 40)]

/-- A client without flags publishes a JSON text that the tokener rejects for its
depth; the recipient reads the header of the administrator. -/
theorem deep_payload_forges :
    (cbPldMod tokenerParse32 toJsonStringPlain (some plainUsers) SqlCalls.success ⟨0, 0, 0, none⟩
      "mink/dev/session/req" (some "user") forgedPld.printBytes).1 = .success ∧
    (cbPldMod tokenerParse32 toJsonStringPlain (some plainUsers) SqlCalls.success ⟨0, 0, 0, none⟩
      "mink/dev/session/req" (some "user") forgedPld.printBytes).2 = forgedPld.printBytes ∧
    (∀ v : Json, Json.readBytesAny v.printBytes = some v) ∧
    forgedPld.HasMember "mink_usr" forgedUsr ∧ forgedUsr ≠ usrHeader plainUsers "user" := by
  have hcstring : cString forgedPld.printBytes = forgedPld.printBytes := by decide +kernel
  have hdeep : tokenerParse32 forgedPld.printBytes = .null := by
    have hdepth : 32 < forgedPld.depth := by
      simp only [forgedPld, Json.depth, Json.depthMembers, depth_nested]
      omega
    rw [tokenerParse32, Json.readBytes_deep hdepth, Option.getD_none]
  have hres : cbPldMod tokenerParse32 toJsonStringPlain (some plainUsers) SqlCalls.success
      ⟨0, 0, 0, none⟩ "mink/dev/session/req" (some "user") forgedPld.printBytes =
      (.success, forgedPld.printBytes) := by
    rw [cbPldMod_of_uget (by decide) (by decide), hcstring, hdeep]
    rfl
  refine ⟨by rw [hres], by rw [hres], Json.readBytesAny_printBytes, ?_, ?_⟩
  · exact Json.hasMember_obj_iff.mpr (by simp)
  · intro heq
    have hcolumns : usrColumns plainUsers "user" = (2, 0) := by decide
    simp [forgedUsr, usrHeader, hcolumns] at heq

end DeepPayload

end Umink.MosquittoAuth
