import Umink.MosquittoAuth.BasicAuth

/-!
# The lockout of a user

How the record of a user goes through a run of logins: the count of failures is
for the time span after the first one, and a full count bans the user. In every
interval as long as the time span, at most two such counts meet.
-/

namespace Umink.MosquittoAuth

open Umink.Library Umink.Umdb

variable {β : Type*} (cfg : AuthCfg) (lib : JwtLib β) (c : JsonC)

/-- The user that a login is about: the one of the token, or the given name. -/
def attemptUser (ed : AuthCall) : Option String :=
  match ed.username, ed.pubKey, ed.validNew with
  | some username, some key, true => some (jwtLogin cfg lib c ed key username).2.2
  | username, _, _ => username

/-- The user whose record the login comes to, and what the descriptor says of it; none for
a login that is rejected before. -/
def recordCheck (ed : AuthCall) : Option (String × Int) :=
  match ed.username, ed.pubKey, ed.validNew with
  | some username, some key, true =>
      let login := jwtLogin cfg lib c ed key username
      let query := umdbMngrUauth ed.dbm ed.sql login.1 (some login.2.2) ed.password
      if query.1 ≠ 0 ∨ query.2.id < 1 then none else some (login.2.2, query.2.auth)
  | _, _, _ => none

/-- The record of a user, which is clear before the first login. -/
def recordOf (umusers : List Umuser) (username : String) : Umuser :=
  (HashTable.find Umuser.username umusers username).getD ⟨username, 0, 0, 0⟩

/-- The login is rejected by the check of the password and not by a ban. -/
def PasswordRejected (umusers : List Umuser) (ed : AuthCall) : Prop :=
  match recordCheck cfg lib c ed with
  | none => False
  | some (username, auth) => (recordOf umusers username).bannedUntilTs ≤ 0 ∧ auth ≠ 1

instance (umusers : List Umuser) (ed : AuthCall) :
    Decidable (PasswordRejected cfg lib c umusers ed) :=
  match h : recordCheck cfg lib c ed with
  | none => .isFalse (by simp [PasswordRejected, h])
  | some (username, auth) =>
      decidable_of_iff ((recordOf umusers username).bannedUntilTs ≤ 0 ∧ auth ≠ 1)
        (by simp [PasswordRejected, h])

/-- The logins of a run with the records that each of them finds. -/
def history (umusers : List Umuser) : List AuthCall → List (List Umuser × AuthCall)
  | [] => []
  | ed :: calls => (umusers, ed) :: history (cbBasicAuth cfg lib c umusers ed).2 calls

section Records

variable {cfg lib c} {umusers : List Umuser} {ed : AuthCall}

theorem username_recordOf (umusers : List Umuser) (username : String) :
    (recordOf umusers username).username = username := by
  unfold recordOf
  cases h : HashTable.find Umuser.username umusers username with
  | none => rfl
  | some r => exact HashTable.key_of_find h

theorem attemptUser_of_recordCheck {username : String} {auth : Int}
    (h : recordCheck cfg lib c ed = some (username, auth)) :
    attemptUser cfg lib c ed = some username := by
  unfold recordCheck at h
  split at h
  case h_1 user key hu hkey hnew =>
      obtain ⟨-, h⟩ := Option.ite_none_left_eq_some.mp h
      obtain ⟨hname, -⟩ := Prod.mk.inj (Option.some.inj h)
      simp only [attemptUser, hu, hkey, hnew, hname]
  case h_2 => cases h

/-- A login that is rejected before it comes to a record. -/
theorem cbBasicAuth_of_none (h : recordCheck cfg lib c ed = none) :
    cbBasicAuth cfg lib c umusers ed = (.auth, umusers) := by
  unfold recordCheck at h
  unfold cbBasicAuth
  split
  case h_1 user key hu hkey hnew =>
      rcases hlogin : jwtLogin cfg lib c ed key user with ⟨uauth, useJwt, name⟩
      rcases hquery : umdbMngrUauth ed.dbm ed.sql uauth (some name) ed.password with ⟨r, uauth'⟩
      simp only [hu, hkey, hnew, hlogin, hquery] at h
      have hearly : r ≠ 0 ∨ uauth'.id < 1 := by
        by_contra hno
        rw [if_neg hno] at h
        cases h
      simp only [hquery]
      rcases hearly with hcode | hid
      · rw [if_pos hcode]
      · rw [if_pos hid, ite_self]
  case h_2 => rfl

/-- A login that comes to a record: its result, and every record after it. -/
theorem cbBasicAuth_of_some (umusers : List Umuser) {username : String} {auth : Int}
    (h : recordCheck cfg lib c ed = some (username, auth)) :
    (cbBasicAuth cfg lib c umusers ed).1 =
        (checkUmuser cfg ed.clk auth (recordOf umusers username)).1 ∧
      ∀ u, HashTable.find Umuser.username (cbBasicAuth cfg lib c umusers ed).2 u =
        if u = username then
          some (checkUmuser cfg ed.clk auth (recordOf umusers username)).2
        else HashTable.find Umuser.username umusers u := by
  unfold recordCheck at h
  split at h
  case h_2 => cases h
  case h_1 user key hu hkey hnew =>
      rcases hlogin : jwtLogin cfg lib c ed key user with ⟨uauth, useJwt, name⟩
      rcases hquery : umdbMngrUauth ed.dbm ed.sql uauth (some name) ed.password with ⟨r, uauth'⟩
      simp only [hlogin, hquery] at h
      obtain ⟨hlate, h⟩ := Option.ite_none_left_eq_some.mp h
      obtain ⟨rfl, rfl⟩ := Prod.mk.inj (Option.some.inj h)
      rw [not_or] at hlate
      have hkeep : ∀ clk auth, (checkUmuser cfg clk auth (recordOf umusers name)).2.username =
          name := by
        intro clk auth
        have hname := username_recordOf umusers name
        unfold checkUmuser
        split
        · split <;> exact hname
        · split <;> exact hname
      simp only [cbBasicAuth, hu, hkey, hnew, hlogin, hquery, if_neg hlate.1, if_neg hlate.2]
      cases hfind : HashTable.find Umuser.username umusers name with
      | some r =>
          have hrec : recordOf umusers name = r := by rw [recordOf, hfind]; rfl
          rw [hrec] at hkeep ⊢
          refine ⟨rfl, ?_⟩
          intro u
          dsimp only
          rw [HashTable.find_modify _ _ (fun _ _ => hkeep _ _), hfind]
          rfl
      | none =>
          have hrec : recordOf umusers name = ⟨name, 0, 0, 0⟩ := by rw [recordOf, hfind]; rfl
          rw [hrec] at hkeep ⊢
          refine ⟨rfl, ?_⟩
          intro u
          dsimp only
          rw [HashTable.find_modify _ _ (fun _ _ => hkeep _ _), HashTable.find_add, if_pos rfl,
            HashTable.find_add]
          by_cases hu : u = name
          · rw [if_pos hu, if_pos hu]
            rfl
          · rw [if_neg hu, if_neg hu, if_neg (Ne.symm hu)]

theorem recordOf_of_some (umusers : List Umuser) {username : String} {auth : Int}
    (h : recordCheck cfg lib c ed = some (username, auth)) :
    recordOf (cbBasicAuth cfg lib c umusers ed).2 username =
      (checkUmuser cfg ed.clk auth (recordOf umusers username)).2 := by
  rw [recordOf, (cbBasicAuth_of_some umusers h).2, if_pos rfl, Option.getD_some]

/-- A login leaves the records of all other users alone. -/
theorem find_of_other {u : String} (h : attemptUser cfg lib c ed ≠ some u) :
    HashTable.find Umuser.username (cbBasicAuth cfg lib c umusers ed).2 u =
      HashTable.find Umuser.username umusers u := by
  cases hcheck : recordCheck cfg lib c ed with
  | none => rw [cbBasicAuth_of_none hcheck]
  | some login =>
      obtain ⟨username, auth⟩ := login
      rw [(cbBasicAuth_of_some umusers hcheck).2, if_neg]
      rintro rfl
      exact h (attemptUser_of_recordCheck hcheck)

theorem recordOf_of_other {u : String} (h : attemptUser cfg lib c ed ≠ some u) :
    recordOf (cbBasicAuth cfg lib c umusers ed).2 u = recordOf umusers u := by
  rw [recordOf, find_of_other h, recordOf]

/-- A login during a ban is rejected and leaves the record of the user alone. -/
theorem cbBasicAuth_of_banned {u : String} (hban : 0 < (recordOf umusers u).bannedUntilTs)
    (hclk : ed.clk ≤ (recordOf umusers u).bannedUntilTs) :
    HashTable.find Umuser.username (cbBasicAuth cfg lib c umusers ed).2 u =
        HashTable.find Umuser.username umusers u ∧
      (attemptUser cfg lib c ed = some u → (cbBasicAuth cfg lib c umusers ed).1 = .auth) := by
  by_cases hu : attemptUser cfg lib c ed = some u
  · cases hcheck : recordCheck cfg lib c ed with
    | none =>
        rw [cbBasicAuth_of_none hcheck]
        exact ⟨rfl, fun _ => rfl⟩
    | some login =>
        obtain ⟨username, auth⟩ := login
        have hname := attemptUser_of_recordCheck hcheck
        rw [hu] at hname
        obtain rfl := Option.some.inj hname
        have hstay : checkUmuser cfg ed.clk auth (recordOf umusers u) =
            (.auth, recordOf umusers u) := by
          rw [checkUmuser, if_pos hban, if_pos hclk]
        obtain ⟨hres, hfind⟩ := cbBasicAuth_of_some umusers hcheck
        rw [hfind, if_pos rfl, hres, hstay]
        refine ⟨?_, fun _ => rfl⟩
        cases hold : HashTable.find Umuser.username umusers u with
        | some r => rw [recordOf, hold, Option.getD_some]
        | none =>
            rw [recordOf, hold] at hban
            exact absurd hban (Int.lt_irrefl 0)
  · exact ⟨find_of_other hu, fun h => absurd h hu⟩

end Records

section Counting

variable {cfg} {clk x : Int} {r : Umuser}

/-- Without a ban the count is below the threshold. -/
def BelowThreshold (cfg : AuthCfg) (r : Umuser) : Prop :=
  r.bannedUntilTs ≤ 0 → r.failedNr.toNat < cfg.maxFailedNr.toNat

/-- The window of the count after one more failure: it goes on, or begins at the failure. -/
def nextWindow (cfg : AuthCfg) (clk : Int) (r : Umuser) : Nat × Int :=
  if r.failedNr = 0 ∨ clk - r.firstFailedTs > cfg.failedTimeSpan.toNat then (1, clk)
  else (r.failedNr.toNat + 1, r.firstFailedTs)

theorem countFailure_spec (clk : Int) (hk : r.failedNr.toNat < cfg.maxFailedNr.toNat) :
    (countFailure cfg clk r).failedNr.toNat = (nextWindow cfg clk r).1 ∧
      (countFailure cfg clk r).firstFailedTs = (nextWindow cfg clk r).2 ∧
      (countFailure cfg clk r).bannedUntilTs =
        if cfg.maxFailedNr.toNat ≤ (nextWindow cfg clk r).1 then clk + cfg.banDuration.toNat
        else r.bannedUntilTs := by
  have hbound := cfg.maxFailedNr.toNat_lt
  have hsucc : (r.failedNr + 1).toNat = r.failedNr.toNat + 1 := by
    rw [UInt32.toNat_add]
    exact Nat.mod_eq_of_lt (by simp; omega)
  have hone : r.failedNr + 1 = 1 ↔ r.failedNr = 0 := by
    rw [← UInt32.toNat_inj, ← UInt32.toNat_inj, hsucc]
    simp
  by_cases hzero : r.failedNr = 0
  · have hspan : ¬ (cfg.failedTimeSpan.toNat : Int) < 0 := by omega
    simp [countFailure, nextWindow, hzero, hspan, UInt32.le_iff_toNat_le]
  · have hfirst : ¬ r.failedNr + 1 = 1 := fun h => hzero (hone.mp h)
    by_cases hold : clk - r.firstFailedTs > cfg.failedTimeSpan.toNat
    · simp [countFailure, nextWindow, hfirst, hold, UInt32.le_iff_toNat_le]
    · simp [countFailure, nextWindow, hzero, hfirst, hold, UInt32.le_iff_toNat_le, hsucc]

theorem belowThreshold_clear (hnr : 1 ≤ cfg.maxFailedNr) (r : Umuser) :
    BelowThreshold cfg (clearFailures r) := by
  intro _
  have hpos : 1 ≤ cfg.maxFailedNr.toNat := UInt32.le_iff_toNat_le.mp hnr
  change 0 < cfg.maxFailedNr.toNat
  omega

/-- The count that reaches the threshold comes with a ban. -/
theorem BelowThreshold.checkUmuser (hnr : 1 ≤ cfg.maxFailedNr) (hdur : 1 ≤ cfg.banDuration)
    (hclk : 0 ≤ clk) (h : BelowThreshold cfg r) (auth : Int) :
    BelowThreshold cfg (checkUmuser cfg clk auth r).2 := by
  have hlong : 1 ≤ cfg.banDuration.toNat := UInt32.le_iff_toNat_le.mp hdur
  unfold MosquittoAuth.checkUmuser
  split
  case isTrue hban =>
      split
      · exact h
      · exact belowThreshold_clear hnr r
  case isFalse hban =>
      split
      · obtain ⟨hcount, -, hbanned⟩ := countFailure_spec clk (h (Int.not_lt.mp hban))
        intro hnone
        rw [hbanned] at hnone
        rw [hcount]
        by_cases hfull : cfg.maxFailedNr.toNat ≤ (nextWindow cfg clk r).1
        · rw [if_pos hfull] at hnone
          omega
        · exact Nat.not_le.mp hfull
      · exact belowThreshold_clear hnr r

/-- How many more failures the check of the password can count from second `x` on without
a login: none under a ban, what is missing in a window that began since, and else two
windows less the failures counted in the present one. -/
def budget (cfg : AuthCfg) (x : Int) (r : Umuser) : Nat :=
  if 0 < r.bannedUntilTs then 0
  else if r.failedNr = 0 then cfg.maxFailedNr.toNat
  else if x ≤ r.firstFailedTs then cfg.maxFailedNr.toNat - r.failedNr.toNat
  else 2 * cfg.maxFailedNr.toNat - 1 - r.failedNr.toNat

theorem budget_le (hnr : 1 ≤ cfg.maxFailedNr) (x : Int) (r : Umuser) :
    budget cfg x r ≤ 2 * cfg.maxFailedNr.toNat - 1 := by
  have hpos : 1 ≤ cfg.maxFailedNr.toNat := UInt32.le_iff_toNat_le.mp hnr
  unfold budget
  split_ifs <;> omega

/-- Each failure in the time span after `x` uses up a part of the budget. -/
theorem budget_countFailure (hdur : 1 ≤ cfg.banDuration) (hclk : 0 ≤ clk)
    (hban : r.bannedUntilTs ≤ 0) (hk : r.failedNr.toNat < cfg.maxFailedNr.toNat) (hx : x ≤ clk)
    (hy : clk ≤ x + cfg.failedTimeSpan.toNat) :
    budget cfg x (countFailure cfg clk r) + 1 ≤ budget cfg x r := by
  have hlong : 1 ≤ cfg.banDuration.toNat := UInt32.le_iff_toNat_le.mp hdur
  obtain ⟨hcount, hfirst, hbanned⟩ := countFailure_spec clk hk
  have hzero : ∀ s : Umuser, s.failedNr = 0 ↔ s.failedNr.toNat = 0 := fun s => by
    rw [← UInt32.toNat_inj, UInt32.toNat_zero]
  simp only [budget, hzero, hcount, hfirst, hbanned]
  have hfree : ¬ 0 < r.bannedUntilTs := Int.not_lt.mpr hban
  rw [if_neg hfree]
  by_cases hnew : r.failedNr = 0 ∨ clk - r.firstFailedTs > cfg.failedTimeSpan.toNat
  · have hwindow : nextWindow cfg clk r = (1, clk) := if_pos hnew
    rw [hwindow]
    by_cases hfull : cfg.maxFailedNr.toNat ≤ 1
    · have hset : 0 < clk + (cfg.banDuration.toNat : Int) := by omega
      rw [if_pos hfull, if_pos hset]
      split_ifs <;> omega
    · rw [if_neg hfull, if_neg hfree, if_neg Nat.one_ne_zero, if_pos hx]
      rcases hnew with hnone | hexpired
      · rw [if_pos ((hzero r).mp hnone)]
        omega
      · have hbefore : ¬ x ≤ r.firstFailedTs := by omega
        rw [if_neg hbefore]
        split_ifs <;> omega
  · have hwindow : nextWindow cfg clk r = (r.failedNr.toNat + 1, r.firstFailedTs) := if_neg hnew
    have hsome : ¬ r.failedNr.toNat = 0 := fun h => hnew (.inl ((hzero r).mpr h))
    rw [hwindow]
    by_cases hfull : cfg.maxFailedNr.toNat ≤ r.failedNr.toNat + 1
    · have hset : 0 < clk + (cfg.banDuration.toNat : Int) := by omega
      rw [if_pos hfull, if_pos hset, if_neg hsome]
      split_ifs <;> omega
    · rw [if_neg hfull, if_neg hfree, if_neg (Nat.succ_ne_zero _), if_neg hsome]
      split_ifs <;> omega

end Counting

section Runs

variable {cfg lib c} {u : String}

/-- The seconds of the logins never go back. -/
structure Clocked (calls : List AuthCall) : Prop where
  sorted : calls.Pairwise fun a b => a.clk ≤ b.clk
  nonneg : ∀ ed ∈ calls, 0 ≤ ed.clk

theorem Clocked.tail {ed : AuthCall} {calls : List AuthCall} (h : Clocked (ed :: calls)) :
    Clocked calls :=
  ⟨h.sorted.of_cons, fun a ha => h.nonneg a (List.mem_cons_of_mem ed ha)⟩

/-- The logins of a user with a clock from `x` to the end of the time span. -/
def interval (cfg : AuthCfg) (lib : JwtLib β) (c : JsonC) (u : String) (x : Int)
    (logins : List (List Umuser × AuthCall)) : List (List Umuser × AuthCall) :=
  logins.filter fun a => attemptUser cfg lib c a.2 = some u ∧ x ≤ a.2.clk ∧
    a.2.clk ≤ x + cfg.failedTimeSpan.toNat

/-- How many of the logins the check of the password rejects. -/
def rejections (cfg : AuthCfg) (lib : JwtLib β) (c : JsonC)
    (logins : List (List Umuser × AuthCall)) : Nat :=
  logins.countP fun a => PasswordRejected cfg lib c a.1 a.2

theorem belowThreshold_step (hnr : 1 ≤ cfg.maxFailedNr) (hdur : 1 ≤ cfg.banDuration)
    {umusers : List Umuser} {ed : AuthCall} (hclk : 0 ≤ ed.clk)
    (h : BelowThreshold cfg (recordOf umusers u)) :
    BelowThreshold cfg (recordOf (cbBasicAuth cfg lib c umusers ed).2 u) := by
  cases hcheck : recordCheck cfg lib c ed with
  | none =>
      rw [cbBasicAuth_of_none hcheck]
      exact h
  | some login =>
      obtain ⟨username, auth⟩ := login
      by_cases hu : u = username
      · subst hu
        rw [recordOf_of_some umusers hcheck]
        exact h.checkUmuser hnr hdur hclk auth
      · have hother : attemptUser cfg lib c ed ≠ some u := by
          rw [attemptUser_of_recordCheck hcheck]
          exact fun h => hu (Option.some.inj h).symm
        rw [recordOf_of_other hother]
        exact h

theorem clk_of_mem_history {umusers : List Umuser} {calls : List AuthCall}
    {a : List Umuser × AuthCall} (h : a ∈ history cfg lib c umusers calls) : a.2 ∈ calls := by
  induction calls generalizing umusers with
  | nil => cases h
  | cons ed calls ih =>
      rcases List.mem_cons.mp h with rfl | h
      · exact List.mem_cons_self
      · exact List.mem_cons_of_mem ed (ih h)

theorem interval_cons (x : Int) (a : List Umuser × AuthCall)
    (logins : List (List Umuser × AuthCall)) :
    interval cfg lib c u x (a :: logins) =
      if attemptUser cfg lib c a.2 = some u ∧ x ≤ a.2.clk ∧
          a.2.clk ≤ x + cfg.failedTimeSpan.toNat then a :: interval cfg lib c u x logins
      else interval cfg lib c u x logins := by
  simp only [interval, List.filter_cons, decide_eq_true_eq]

theorem rejections_cons (a : List Umuser × AuthCall) (logins : List (List Umuser × AuthCall)) :
    rejections cfg lib c (a :: logins) =
      rejections cfg lib c logins + if PasswordRejected cfg lib c a.1 a.2 then 1 else 0 := by
  simp only [rejections, List.countP_cons, decide_eq_true_eq]

/-- A login of the user in the time span that is not let in uses up a part of the budget
when the check of the password rejects it. -/
theorem budget_step (hdur : 1 ≤ cfg.banDuration) {x : Int} {umusers : List Umuser}
    {ed : AuthCall} (hpos : 0 ≤ ed.clk) (hbelow : BelowThreshold cfg (recordOf umusers u))
    (hin : attemptUser cfg lib c ed = some u ∧ x ≤ ed.clk ∧
      ed.clk ≤ x + cfg.failedTimeSpan.toNat)
    (hfail : (cbBasicAuth cfg lib c umusers ed).1 ≠ .success) :
    budget cfg x (recordOf (cbBasicAuth cfg lib c umusers ed).2 u) +
        (if PasswordRejected cfg lib c umusers ed then 1 else 0) ≤
      budget cfg x (recordOf umusers u) := by
  obtain ⟨hu, hx, hy⟩ := hin
  cases hcheck : recordCheck cfg lib c ed with
  | none =>
      have hpass : ¬ PasswordRejected cfg lib c umusers ed := by
        simp [PasswordRejected, hcheck]
      rw [if_neg hpass, cbBasicAuth_of_none hcheck]
      exact Nat.le_refl _
  | some login =>
      obtain ⟨username, auth⟩ := login
      rw [attemptUser_of_recordCheck hcheck] at hu
      obtain rfl := Option.some.inj hu
      have hpass : PasswordRejected cfg lib c umusers ed ↔
          (recordOf umusers username).bannedUntilTs ≤ 0 ∧ auth ≠ 1 := by
        simp only [PasswordRejected, hcheck]
      rw [(cbBasicAuth_of_some umusers hcheck).1] at hfail
      rw [recordOf_of_some umusers hcheck]
      by_cases hban : 0 < (recordOf umusers username).bannedUntilTs
      · have hnot : ¬ PasswordRejected cfg lib c umusers ed := fun h =>
          absurd (hpass.mp h).1 (Int.not_le.mpr hban)
        by_cases hclk : ed.clk ≤ (recordOf umusers username).bannedUntilTs
        · rw [checkUmuser, if_pos hban, if_pos hclk, if_neg hnot]
          exact Nat.le_refl _
        · rw [checkUmuser, if_pos hban, if_neg hclk] at hfail
          exact absurd rfl hfail
      · have hfree := Int.not_lt.mp hban
        by_cases hauth : auth ≠ 1
        · have hyes : PasswordRejected cfg lib c umusers ed := hpass.mpr ⟨hfree, hauth⟩
          rw [checkUmuser, if_neg hban, if_pos hauth, if_pos hyes]
          exact budget_countFailure hdur hpos hfree (hbelow hfree) hx hy
        · rw [checkUmuser, if_neg hban, if_neg hauth] at hfail
          exact absurd rfl hfail

/-- From a second on, the rejections in its time span are within the budget of the record,
as long as nobody is let in. The induction is on the logins. -/
theorem rejections_le_budget (hnr : 1 ≤ cfg.maxFailedNr) (hdur : 1 ≤ cfg.banDuration) {x : Int}
    {umusers : List Umuser} {calls : List AuthCall} (hclock : Clocked calls)
    (hx : ∀ ed ∈ calls, x ≤ ed.clk) (hbelow : BelowThreshold cfg (recordOf umusers u))
    (hno : ∀ a ∈ interval cfg lib c u x (history cfg lib c umusers calls),
      (cbBasicAuth cfg lib c a.1 a.2).1 ≠ .success) :
    rejections cfg lib c (interval cfg lib c u x (history cfg lib c umusers calls)) ≤
      budget cfg x (recordOf umusers u) := by
  induction calls generalizing umusers with
  | nil => exact Nat.zero_le _
  | cons ed calls ih =>
      have hpos := hclock.nonneg ed List.mem_cons_self
      have hstep : BelowThreshold cfg (recordOf (cbBasicAuth cfg lib c umusers ed).2 u) :=
        belowThreshold_step hnr hdur hpos hbelow
      have hrest := ih hclock.tail (fun a ha => hx a (List.mem_cons_of_mem ed ha)) hstep
      rw [history, interval_cons] at hno ⊢
      by_cases hin : attemptUser cfg lib c ed = some u ∧ x ≤ ed.clk ∧
          ed.clk ≤ x + cfg.failedTimeSpan.toNat
      · rw [if_pos hin] at hno ⊢
        have hfail := hno _ List.mem_cons_self
        have hle := hrest fun a ha => hno a (List.mem_cons_of_mem _ ha)
        rw [rejections_cons]
        apply Nat.le_trans (Nat.add_le_add_right hle _)
        exact budget_step hdur hpos hbelow hin hfail
      · rw [if_neg hin] at hno ⊢
        by_cases hu : attemptUser cfg lib c ed = some u
        · -- this login and all that follow are after the time span
          have hempty : interval cfg lib c u x
              (history cfg lib c (cbBasicAuth cfg lib c umusers ed).2 calls) = [] := by
            apply List.filter_eq_nil_iff.mpr
            intro a ha hinside
            have hafter := List.rel_of_pairwise_cons hclock.sorted (clk_of_mem_history ha)
            have hclk := (of_decide_eq_true hinside).2.2
            exact hin ⟨hu, hx ed List.mem_cons_self, Int.le_trans hafter hclk⟩
          rw [hempty]
          exact Nat.zero_le _
        · rw [recordOf_of_other hu] at hrest
          exact hrest hno

theorem rejections_interval_le (hnr : 1 ≤ cfg.maxFailedNr) (hdur : 1 ≤ cfg.banDuration) {x : Int}
    {umusers : List Umuser} {calls : List AuthCall} (hclock : Clocked calls)
    (hbelow : BelowThreshold cfg (recordOf umusers u))
    (hno : ∀ a ∈ interval cfg lib c u x (history cfg lib c umusers calls),
      (cbBasicAuth cfg lib c a.1 a.2).1 ≠ .success) :
    rejections cfg lib c (interval cfg lib c u x (history cfg lib c umusers calls)) ≤
      2 * cfg.maxFailedNr.toNat - 1 := by
  induction calls generalizing umusers with
  | nil => exact Nat.zero_le _
  | cons ed calls ih =>
      by_cases hx : x ≤ ed.clk
      · have hall : ∀ a ∈ ed :: calls, x ≤ a.clk := by
          intro a ha
          rcases List.mem_cons.mp ha with rfl | ha
          · exact hx
          · exact Int.le_trans hx (List.rel_of_pairwise_cons hclock.sorted ha)
        exact Nat.le_trans (rejections_le_budget hnr hdur hclock hall hbelow hno)
          (budget_le hnr x _)
      · have hout : ¬ (attemptUser cfg lib c ed = some u ∧ x ≤ ed.clk ∧
            ed.clk ≤ x + cfg.failedTimeSpan.toNat) := fun h => hx h.2.1
        rw [history, interval_cons, if_neg hout] at hno ⊢
        have hpos := hclock.nonneg ed List.mem_cons_self
        exact ih hclock.tail (belowThreshold_step hnr hdur hpos hbelow) hno

/-- The records after a run of logins. -/
def afterCalls (cfg : AuthCfg) (lib : JwtLib β) (c : JsonC) (umusers : List Umuser)
    (calls : List AuthCall) : List Umuser :=
  calls.foldl (fun s ed => (cbBasicAuth cfg lib c s ed).2) umusers

/-- A ban lasts through all logins up to its second. -/
theorem find_afterCalls_of_banned {umusers : List Umuser} {calls : List AuthCall}
    (hban : 0 < (recordOf umusers u).bannedUntilTs)
    (hclk : ∀ ed ∈ calls, ed.clk ≤ (recordOf umusers u).bannedUntilTs) :
    HashTable.find Umuser.username (afterCalls cfg lib c umusers calls) u =
      HashTable.find Umuser.username umusers u := by
  induction calls generalizing umusers with
  | nil => rfl
  | cons ed calls ih =>
      have hstay : HashTable.find Umuser.username (cbBasicAuth cfg lib c umusers ed).2 u =
          HashTable.find Umuser.username umusers u :=
        (cbBasicAuth_of_banned hban (hclk ed List.mem_cons_self)).1
      have hrecord : recordOf (cbBasicAuth cfg lib c umusers ed).2 u = recordOf umusers u := by
        rw [recordOf, hstay, recordOf]
      calc
        HashTable.find Umuser.username (afterCalls cfg lib c umusers (ed :: calls)) u =
            HashTable.find Umuser.username (cbBasicAuth cfg lib c umusers ed).2 u :=
          ih (hrecord ▸ hban) fun a ha => hrecord ▸ hclk a (List.mem_cons_of_mem ed ha)
        _ = HashTable.find Umuser.username umusers u := hstay

/-- The login is a failure that bans the user. -/
def SetsBan (cfg : AuthCfg) (lib : JwtLib β) (c : JsonC) (u : String) (umusers : List Umuser)
    (ed : AuthCall) : Prop :=
  attemptUser cfg lib c ed = some u ∧ PasswordRejected cfg lib c umusers ed ∧
    0 < banOf (cbBasicAuth cfg lib c umusers ed).2 u

theorem banOf_eq (umusers : List Umuser) (u : String) :
    banOf umusers u = (recordOf umusers u).bannedUntilTs := by
  unfold banOf recordOf
  cases HashTable.find Umuser.username umusers u with
  | none => rfl
  | some r => rfl

/-- A ban ends at the second of its failure and the duration. -/
theorem SetsBan.until {umusers : List Umuser} {ed : AuthCall}
    (h : SetsBan cfg lib c u umusers ed) :
    (recordOf (cbBasicAuth cfg lib c umusers ed).2 u).bannedUntilTs =
      ed.clk + cfg.banDuration.toNat := by
  obtain ⟨hu, hpass, hban⟩ := h
  rw [banOf_eq] at hban
  cases hcheck : recordCheck cfg lib c ed with
  | none => simp [PasswordRejected, hcheck] at hpass
  | some login =>
      obtain ⟨username, auth⟩ := login
      rw [attemptUser_of_recordCheck hcheck] at hu
      obtain rfl := Option.some.inj hu
      simp only [PasswordRejected, hcheck] at hpass
      obtain ⟨hfree, hauth⟩ := hpass
      have hcount : (checkUmuser cfg ed.clk auth (recordOf umusers username)).2 =
          countFailure cfg ed.clk (recordOf umusers username) := by
        rw [checkUmuser, if_neg (Int.not_lt.mpr hfree), if_pos hauth]
      rw [recordOf_of_some umusers hcheck, hcount] at hban ⊢
      have heither : (countFailure cfg ed.clk (recordOf umusers username)).bannedUntilTs =
          ed.clk + cfg.banDuration.toNat ∨
          (countFailure cfg ed.clk (recordOf umusers username)).bannedUntilTs =
            (recordOf umusers username).bannedUntilTs := by
        simp only [countFailure]
        split_ifs <;> simp
      rcases heither with hset | hold
      · exact hset
      · rw [hold] at hban
        exact absurd hfree (Int.not_le.mpr hban)

/-- The lockout of a user in every run of logins: a ban rejects every login up to its end
and leaves the record alone, in a time span without a success less than twice the threshold
of wrong passwords are checked, and other users never touch the record. -/
theorem lockout_bound (u : String) (hnr : 1 ≤ cfg.maxFailedNr)
    (hdur : max 1 cfg.failedTimeSpan.toNat ≤ cfg.banDuration.toNat) {calls : List AuthCall}
    (hclock : Clocked calls) :
    (∀ before ed between late rest, calls = before ++ ed :: (between ++ late :: rest) →
        SetsBan cfg lib c u (afterCalls cfg lib c [] before) ed →
        attemptUser cfg lib c late = some u → late.clk ≤ ed.clk + cfg.banDuration.toNat →
        ∀ s, s = afterCalls cfg lib c [] (before ++ ed :: between) →
          (cbBasicAuth cfg lib c s late).1 = .auth ∧
            HashTable.find Umuser.username (cbBasicAuth cfg lib c s late).2 u =
              HashTable.find Umuser.username s u) ∧
      (∀ x logins, logins = interval cfg lib c u x (history cfg lib c [] calls) →
        (∀ a ∈ logins, (cbBasicAuth cfg lib c a.1 a.2).1 ≠ .success) →
          rejections cfg lib c logins ≤ 2 * cfg.maxFailedNr.toNat - 1) ∧
      ∀ ed umusers, attemptUser cfg lib c ed ≠ some u →
        HashTable.find Umuser.username (cbBasicAuth cfg lib c umusers ed).2 u =
          HashTable.find Umuser.username umusers u := by
  have hlong : 1 ≤ cfg.banDuration := UInt32.le_iff_toNat_le.mpr (le_trans (le_max_left _ _) hdur)
  refine ⟨?_, ?_, fun ed umusers h => find_of_other h⟩
  · rintro before ed between late rest rfl hset hlate hclk s rfl
    have huntil := hset.until
    have hban : 0 < (recordOf (cbBasicAuth cfg lib c (afterCalls cfg lib c [] before)
        ed).2 u).bannedUntilTs := by
      rw [← banOf_eq]
      exact hset.2.2
    have hsorted := (List.pairwise_append.mp hclock.sorted).2.1.of_cons
    have hmid : ∀ a ∈ between, a.clk ≤ ed.clk + cfg.banDuration.toNat := fun a ha =>
      Int.le_trans ((List.pairwise_append.mp hsorted).2.2 a ha late List.mem_cons_self) hclk
    let after := (cbBasicAuth cfg lib c (afterCalls cfg lib c [] before) ed).2
    have hsplit : afterCalls cfg lib c [] (before ++ ed :: between) =
        afterCalls cfg lib c after between := by
      simp only [after, afterCalls, List.foldl_append, List.foldl_cons]
    have hstay : HashTable.find Umuser.username (afterCalls cfg lib c after between) u =
        HashTable.find Umuser.username after u :=
      find_afterCalls_of_banned hban (huntil ▸ hmid)
    have hrecord : recordOf (afterCalls cfg lib c [] (before ++ ed :: between)) u =
        recordOf after u := by
      rw [hsplit, recordOf, hstay, recordOf]
    have hclk' : late.clk ≤ (recordOf after u).bannedUntilTs := huntil ▸ hclk
    obtain ⟨hfind, hres⟩ := cbBasicAuth_of_banned (hrecord ▸ hban) (hrecord ▸ hclk')
    exact ⟨hres hlate, hfind⟩
  · rintro x logins rfl hno
    have hbelow : BelowThreshold cfg (recordOf [] u) :=
      belowThreshold_clear hnr ⟨u, 0, 0, 0⟩
    exact rejections_interval_le hnr hlong hclock hbelow hno

/-- Three wrong passwords and the right one during the ban. -/
def bannedLogins : List AuthCall :=
  [adminLogin "a" 1, adminLogin "b" 2, adminLogin "c" 3, adminLogin "password" 303]

theorem clocked_bannedLogins : Clocked bannedLogins :=
  ⟨by simp [bannedLogins, adminLogin], by simp [bannedLogins, adminLogin]⟩

/-- With the default configuration the right password is rejected to the last second of the
ban. -/
theorem lockout_bound_default :
    (cbBasicAuth defaultCfg noTokens rejectJson
      (afterCalls defaultCfg noTokens rejectJson []
        [adminLogin "a" 1, adminLogin "b" 2, adminLogin "c" 3])
      (adminLogin "password" 303)).1 = .auth :=
  ((@lockout_bound Unit defaultCfg noTokens rejectJson "admin" (by decide) (by decide) _
    clocked_bannedLogins).1 [adminLogin "a" 1, adminLogin "b" 2] (adminLogin "c" 3) []
    (adminLogin "password" 303) [] rfl ⟨rfl, by decide, by decide⟩ rfl (by decide) _ rfl).1

end Runs

end Umink.MosquittoAuth
