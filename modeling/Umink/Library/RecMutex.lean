import Mathlib.Tactic.Common

/-!
# Recursive mutexes

A recursive mutex is free or held by one thread a positive number of times. Its
owner may lock it again; every other thread has to wait. Unlocking by a thread
that does not own it changes nothing, as `PTHREAD_MUTEX_RECURSIVE` reports an
error there.
-/

namespace Umink.Library

/-- `held t k` is held `k + 1` times by `t`. -/
inductive RecMutex (τ : Type*) where
  | free
  | held (owner : τ) (extra : Nat)
  deriving DecidableEq

namespace RecMutex

variable {τ : Type*} [DecidableEq τ]

/-- The mutex after `t` locked it, or none while `t` has to wait. -/
def lock (m : RecMutex τ) (t : τ) : Option (RecMutex τ) :=
  match m with
  | free => some (held t 0)
  | held u k => if u = t then some (held t (k + 1)) else none

def unlock (m : RecMutex τ) (t : τ) : RecMutex τ :=
  match m with
  | free => free
  | held u 0 => if u = t then free else m
  | held u (k + 1) => if u = t then held u k else m

/-- How many times `t` holds the mutex. -/
def depth (m : RecMutex τ) (t : τ) : Nat :=
  match m with
  | free => 0
  | held u k => if u = t then k + 1 else 0

@[simp] theorem depth_free (t : τ) : depth free t = 0 := rfl

theorem depth_lock_self {m m' : RecMutex τ} {t : τ} (h : m.lock t = some m') :
    m'.depth t = m.depth t + 1 := by
  cases m with
  | free =>
      obtain rfl := Option.some.inj h
      simp [depth]
  | held u k =>
      by_cases hu : u = t
      · simp only [lock, hu, if_true, Option.some.injEq] at h
        subst h
        simp [depth, hu]
      · simp [lock, hu] at h

theorem depth_lock_ne {m m' : RecMutex τ} {t u : τ} (h : m.lock t = some m') (hu : u ≠ t) :
    m'.depth u = m.depth u := by
  cases m with
  | free =>
      obtain rfl := Option.some.inj h
      simp [depth, hu.symm]
  | held v k =>
      by_cases hv : v = t
      · simp only [lock, hv, if_true, Option.some.injEq] at h
        subst h
        simp [depth, hv, hu.symm]
      · simp [lock, hv] at h

theorem depth_unlock_self (m : RecMutex τ) (t : τ) : (m.unlock t).depth t = m.depth t - 1 := by
  rcases m with _ | ⟨u, _ | k⟩
  · rfl
  all_goals by_cases hu : u = t <;> simp [unlock, depth, hu]

theorem depth_unlock_ne (m : RecMutex τ) {t u : τ} (hu : u ≠ t) :
    (m.unlock t).depth u = m.depth u := by
  rcases m with _ | ⟨v, _ | k⟩
  · rfl
  all_goals
    by_cases hv : v = t
    · simp [unlock, depth, hv, hu.symm]
    · simp [unlock, hv]

/-- Two threads never hold the mutex at once. -/
theorem holder_unique {m : RecMutex τ} {t u : τ} (ht : 0 < m.depth t) (hu : 0 < m.depth u) :
    t = u := by
  cases m with
  | free => simp at ht
  | held v k =>
      have hvt : v = t := by by_contra hne; simp [depth, hne] at ht
      have hvu : v = u := by by_contra hne; simp [depth, hne] at hu
      exact hvt.symm.trans hvu

/-- A thread has to wait exactly while another one holds the mutex. -/
theorem lock_eq_none_iff {m : RecMutex τ} {t : τ} :
    m.lock t = none ↔ ∃ u, u ≠ t ∧ 0 < m.depth u := by
  cases m with
  | free => simp [lock]
  | held v k =>
      by_cases hv : v = t
      · simp only [lock, hv, if_true, reduceCtorEq, false_iff, not_exists, not_and]
        intro u hu
        simp [depth, hu.symm]
      · simp only [lock, hv, if_false, true_iff]
        exact ⟨v, hv, by simp [depth]⟩

/-- A thread that holds the mutex can lock it again. -/
theorem lock_of_depth_pos {m : RecMutex τ} {t : τ} (h : 0 < m.depth t) :
    ∃ m', m.lock t = some m' := by
  cases hm : m.lock t with
  | some m' => exact ⟨m', rfl⟩
  | none =>
      obtain ⟨u, hne, hu⟩ := lock_eq_none_iff.mp hm
      exact absurd (holder_unique hu h) hne

/-- Once a thread holds the mutex no more, nobody waits because of it. -/
theorem depth_eq_zero_of_lock_ne {m m' : RecMutex τ} {t u : τ} (h : m.lock t = some m')
    (hu : u ≠ t) : m.depth u = 0 := by
  by_contra hne
  have := lock_eq_none_iff.mpr ⟨u, hu, Nat.pos_of_ne_zero hne⟩
  rw [this] at h
  cases h

end RecMutex

end Umink.Library
