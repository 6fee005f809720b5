import Umink.MosquittoAuth.BasicAuth

/-!
# Expiry of tokens

The issue time of a token is clamped to an `int`, added to the configured period
as an `int` and compared with the clock. The comparison is the one of unbounded
integers unless the clock stands between the two sums.
-/

namespace Umink.MosquittoAuth

open Umink.Library

/-- The comparison of an issue time and a period with the clock in the C types
agrees with the one of unbounded integers: nothing is lost of the issue time and of
the sum, or the clock has passed the sum, or it has not reached what is left of it. -/
def ExpiryExact (iat jwtExp now : Int) : Prop :=
  (iat < 2 ^ 31 ∧ iat + jwtExp < 2 ^ 31) ∨ iat + jwtExp ≤ now ∨
    (min iat (2 ^ 31 - 1) + jwtExp < 2 ^ 31 ∧ now < min iat (2 ^ 31 - 1) + jwtExp) ∨
    now < min iat (2 ^ 31 - 1) + jwtExp - 2 ^ 32

/-- Clamping and wrapping make no difference to the comparison exactly under the condition. -/
theorem expiry_iff {iat jwtExp : Int} (hiat : 0 ≤ iat)
    (hexp : -2 ^ 31 ≤ jwtExp ∧ jwtExp < 2 ^ 31) (now : Int) :
    (now < int32 (clampInt32 iat + jwtExp) ↔ now < iat + jwtExp) ↔
      ExpiryExact iat jwtExp now := by
  have hclamp : clampInt32 iat = min iat (2 ^ 31 - 1) := by
    unfold clampInt32
    omega
  rw [hclamp]
  unfold ExpiryExact int32
  omega

section Login

variable {β : Type*} {cfg : AuthCfg} {lib : JwtLib β} {c : JsonC} {ed : AuthCall}

/-- The grants name a user and its id, without which `jwt_parse` rejects them. -/
def NamesUser (j : Json) : Prop :=
  (j.field "usr_id").isNull = false ∧ (j.field "usr").isNull = false

theorem not_isNull_of_field {j : Json} {k : String} (h : (j.field k).isNull = false) :
    j.isNull = false := by
  cases j with
  | null => cases h
  | _ => rfl

/-- What `jwt_parse` takes from grants with an integer as the issue time. -/
theorem jwtParse_of_iat {grants : String} {iat : Int}
    (hiat : (c.tokenerParse grants).field "iat" = .int iat) :
    (NamesUser (c.tokenerParse grants) →
      ∃ claims, jwtParse c (some grants) = some claims ∧ claims.iat = clampInt32 iat) ∧
    (¬ NamesUser (c.tokenerParse grants) → jwtParse c (some grants) = none) := by
  have hnull : ((c.tokenerParse grants).field "iat").isNull = false := by rw [hiat]; rfl
  have hj := not_isNull_of_field hnull
  have hget : c.getInt ((c.tokenerParse grants).field "iat") = clampInt32 iat := by rw [hiat]; rfl
  constructor
  · rintro ⟨hid, husr⟩
    refine ⟨⟨c.getString ((c.tokenerParse grants).field "usr"),
      c.getInt ((c.tokenerParse grants).field "usr_id"),
      c.getInt ((c.tokenerParse grants).field "usr_flgs"), clampInt32 iat⟩, ?_, rfl⟩
    simp only [jwtParse, hj, hid, husr, hnull, hget, Bool.false_eq_true, or_self, if_false]
  · intro hno
    have hmissing : ((c.tokenerParse grants).field "usr_id").isNull = true ∨
        ((c.tokenerParse grants).field "usr").isNull = true := by
      rw [NamesUser] at hno
      grind
    simp only [jwtParse, hj, Bool.false_eq_true, if_false]
    rw [if_pos]
    exact hmissing.elim Or.inl fun h => Or.inr (Or.inl h)

/-- The token part takes a token that names a user as not expired like unbounded
integers say exactly under the condition, and no other token. -/
theorem jwt_expiry_iff {key username grants : String} {jwt : β} {iat : Int}
    (hdecode : lib.decode key username = some jwt)
    (hvalid : lib.validate jwt ed.validNow = true) (hgrants : lib.grantsJson jwt = some grants)
    (hiat : (c.tokenerParse grants).field "iat" = .int iat) (hpos : 0 ≤ iat)
    (hexp : -2 ^ 31 ≤ cfg.jwtExp ∧ cfg.jwtExp < 2 ^ 31) :
    (NamesUser (c.tokenerParse grants) →
      (((jwtLogin cfg lib c ed key username).2.1 = true ↔ ed.now < iat + cfg.jwtExp) ↔
        ExpiryExact iat cfg.jwtExp ed.now)) ∧
    (¬ NamesUser (c.tokenerParse grants) →
      (jwtLogin cfg lib c ed key username).2.1 = false) := by
  obtain ⟨hparse, hnone⟩ := jwtParse_of_iat hiat
  constructor
  · intro husr
    obtain ⟨claims, hclaims, hclaim⟩ := hparse husr
    have hjwt : (jwtLogin cfg lib c ed key username).2.1 = true ↔
        ed.now < int32 (clampInt32 iat + cfg.jwtExp) := by
      simp only [jwtLogin, hdecode, hvalid, hgrants, hclaims, hclaim, if_true]
      split_ifs with hnow
      · exact iff_of_true rfl hnow
      · exact iff_of_false id hnow
    rw [hjwt]
    exact expiry_iff hpos hexp ed.now
  · intro husr
    simp only [jwtLogin, hdecode, hvalid, hgrants, hnone husr, if_true]

end Login

section Wrapped

/-- A library that accepts every token and finds grants in it. -/
def anyToken (grants : String) : JwtLib Unit :=
  ⟨fun _ _ => some (), fun _ _ => true, fun _ => some grants⟩

/-- The grants of the user `admin` with the issue time `iat`. -/
def adminGrants (iat : Int) : Json :=
  .obj [("usr_id", .int 1), ("usr", .str "admin"), ("usr_flgs", .int 1), ("iat", .int iat)]

/-- A json-c that reads every text as those grants. -/
def grantsJsonC (iat : Int) : JsonC := ⟨fun _ => adminGrants iat, fun _ => 0, fun _ => ""⟩

/-- The default configuration with another period. -/
def expCfg (jwtExp : Int) : AuthCfg := { defaultCfg with jwtExp := jwtExp }

/-- A token of the last second of an `int` with a period of one second is taken as
expired at once. -/
theorem last_second_expires :
    (anyToken "grants").decode "key" "token" = some () ∧
    (anyToken "grants").validate () (adminLogin "" (2 ^ 31 - 1)).validNow = true ∧
    (anyToken "grants").grantsJson () = some "grants" ∧
    ((grantsJsonC (2 ^ 31 - 1)).tokenerParse "grants").field "iat" = .int (2 ^ 31 - 1) ∧
    NamesUser ((grantsJsonC (2 ^ 31 - 1)).tokenerParse "grants") ∧
    ¬ ((jwtLogin (expCfg 1) (anyToken "grants") (grantsJsonC (2 ^ 31 - 1))
        (adminLogin "" (2 ^ 31 - 1)) "key" "token").2.1 = true ↔
      (adminLogin "" (2 ^ 31 - 1)).now < 2 ^ 31 - 1 + (expCfg 1).jwtExp) :=
  ⟨rfl, rfl, rfl, rfl, ⟨rfl, rfl⟩, by decide⟩

/-- A token of the second 1000 with a period of 600 seconds at the second 1500. -/
theorem jwt_expiry_iff_1500 :
    (jwtLogin (expCfg 600) (anyToken "grants") (grantsJsonC 1000) (adminLogin "" 1500) "key"
      "token").2.1 = true := by
  have h := @jwt_expiry_iff Unit (expCfg 600) (anyToken "grants") (grantsJsonC 1000)
    (adminLogin "" 1500) "key" "token" "grants" () 1000 rfl rfl rfl rfl (by decide) (by decide)
  have hexact : ExpiryExact 1000 600 1500 := .inl (by decide)
  exact ((h.1 ⟨rfl, rfl⟩).mpr hexact).mpr (by decide)

end Wrapped

end Umink.MosquittoAuth
