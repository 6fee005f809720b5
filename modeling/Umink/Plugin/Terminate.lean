import Umink.Plugin.Load

/-!
# Termination of plugins and signals

`umplg_terminate_all` calls the termination handlers for one phase and marks
their descriptors, `umplg_free_mngr` calls both phases for the descriptors that
are not marked and releases all of them. Every handler is called for phase 0 and
then for phase 1 exactly when the first function is called for both phases or
not at all.

## Implementation notes

A descriptor is named by its place in the list of signals or of plugins, which
the handlers leave alone.
-/

namespace Umink.Plugin

open Umink.Library

/-- The fields of `umplg_sh_t` that termination uses. -/
structure ShTerm (η : Type*) where
  term : Option η
  terminated : Bool

/-- The place of a descriptor. -/
inductive Desc where
  | signal (i : Nat)
  | plugin (i : Nat)
  deriving DecidableEq

/-- What happens to a descriptor. -/
inductive TermEv where
  | term (d : Desc) (phase : Int)
  | release (d : Desc)
  deriving DecidableEq

/-- The descriptor of an event. -/
def TermEv.desc : TermEv → Desc
  | .term d _ => d
  | .release d => d

/-- The signals and the plugins of `umplg_mngr_t`. -/
structure TermMngr (η : Type*) where
  signals : List (ShTerm η)
  plgs : List (Umplgd η)

section Loops

variable {α : Type*}

/-- A loop over descriptors. -/
def descLoop (mk : Nat → Desc) (body : Desc → α → List TermEv) (l : List α) : List TermEv :=
  l.zipIdx.flatMap fun p => body (mk p.2) p.1

/-- The events of one descriptor. -/
def ofDesc (d : Desc) (evs : List TermEv) : List TermEv := evs.filter fun ev => ev.desc = d

@[simp] theorem ofDesc_append (d : Desc) (evs evs' : List TermEv) :
    ofDesc d (evs ++ evs') = ofDesc d evs ++ ofDesc d evs' :=
  List.filter_append ..

theorem ofDesc_self {d : Desc} {evs : List TermEv} (h : ∀ ev ∈ evs, ev.desc = d) :
    ofDesc d evs = evs :=
  List.filter_eq_self.mpr fun ev hev => decide_eq_true (h ev hev)

theorem ofDesc_other {d : Desc} {evs : List TermEv} (h : ∀ ev ∈ evs, ev.desc ≠ d) :
    ofDesc d evs = [] :=
  List.filter_eq_nil_iff.mpr fun ev hev => by simpa using h ev hev

variable {mk : Nat → Desc} {body : Desc → α → List TermEv} {d : Desc}

/-- The body of a loop is about the descriptor that it is given. -/
def Local (body : Desc → α → List TermEv) : Prop := ∀ d a, ∀ ev ∈ body d a, ev.desc = d

/-- A loop runs its body once for every descriptor. -/
theorem ofDesc_descLoop (hbody : Local body) (hmk : Function.Injective mk) {l : List α} {i : Nat}
    {a : α} (h : l[i]? = some a) : ofDesc (mk i) (descLoop mk body l) = body (mk i) a := by
  have hoff : ∀ n, ofDesc (mk (n + i)) ((l.zipIdx n).flatMap fun p => body (mk p.2) p.1) =
      body (mk (n + i)) a := by
    induction l generalizing i with
    | nil => simp at h
    | cons b l ih =>
        intro n
        rw [List.zipIdx_cons, List.flatMap_cons, ofDesc_append]
        cases i with
        | zero =>
            obtain rfl : b = a := by simpa using h
            have hrest : ∀ ev ∈ (l.zipIdx (n + 1)).flatMap (fun p => body (mk p.2) p.1),
                ev.desc ≠ mk (n + 0) := by
              intro ev hev heq
              obtain ⟨p, hp, hmem⟩ := List.mem_flatMap.mp hev
              have hidx := hmk ((hbody _ _ ev hmem).symm.trans heq)
              have hle := (List.mem_zipIdx hp).1
              omega
            rw [ofDesc_other hrest, List.append_nil]
            exact ofDesc_self (hbody _ _)
        | succ i =>
            have hfirst : ∀ ev ∈ body (mk n) b, ev.desc ≠ mk (n + (i + 1)) := by
              intro ev hev heq
              have hidx := hmk ((hbody _ _ ev hev).symm.trans heq)
              omega
            have htail := ih (by simpa using h) (n + 1)
            rw [ofDesc_other hfirst, List.nil_append, show n + (i + 1) = n + 1 + i by omega]
            exact htail
  simpa [descLoop] using hoff 0

theorem ofDesc_descLoop_other (hbody : Local body) (hd : ∀ i, mk i ≠ d) (l : List α) :
    ofDesc d (descLoop mk body l) = [] := by
  apply ofDesc_other
  intro ev hev
  obtain ⟨p, -, hmem⟩ := List.mem_flatMap.mp hev
  rw [hbody _ _ ev hmem]
  exact hd p.2

end Loops

namespace TermMngr

variable {η : Type*} (pm : TermMngr η)

/-- `umplg_terminate_all`: the calls and the manager. -/
def umplgTerminateAll (phase : Int) : List TermEv × TermMngr η :=
  -- loop signals
  (descLoop .signal (fun d sh => if sh.term.isSome then [.term d phase] else []) pm.signals ++
    -- loop plugins
    descLoop .plugin (fun d _ => [.term d phase]) pm.plgs,
  { signals := pm.signals.map fun sh =>
      if sh.term.isSome then { sh with terminated := true } else sh
    plgs := pm.plgs.map fun pd => { pd with terminated := true } })

/-- `umplg_free_mngr`: the calls and the releases of descriptors. -/
def umplgFreeMngr : List TermEv :=
  -- free signals
  descLoop .signal (fun d sh =>
    (if sh.term.isSome ∧ !sh.terminated then [.term d 0, .term d 1] else []) ++
      [.release d]) pm.signals ++
  -- free plugins
  descLoop .plugin (fun d pd =>
    (if !pd.terminated then [.term d 0, .term d 1] else []) ++ [.release d]) pm.plgs

/-- The end of a manager: `umplg_terminate_all` for some phases, then
`umplg_free_mngr`. -/
def teardown (pm : TermMngr η) : List Int → List TermEv
  | [] => pm.umplgFreeMngr
  | phase :: phases =>
      (pm.umplgTerminateAll phase).1 ++ teardown (pm.umplgTerminateAll phase).2 phases

/-- The mark of a descriptor that has a termination handler. -/
def mark : Desc → Option Bool
  | .signal i => (pm.signals[i]?).bind fun sh => sh.term.map fun _ => sh.terminated
  | .plugin i => (pm.plgs[i]?).map Umplgd.terminated

/-- No descriptor is marked yet: they are zeroed when they are created. -/
def Fresh : Prop := ∀ d, pm.mark d ≠ some true

/-- The handler is called for phase 0, then for phase 1, and then the descriptor is
released. -/
def TwoPhase (evs : List TermEv) (d : Desc) : Prop :=
  ofDesc d evs = [.term d 0, .term d 1, .release d]

variable {pm} {d : Desc} {b : Bool}

theorem mark_signal {i : Nat} (h : pm.mark (.signal i) = some b) :
    ∃ sh, pm.signals[i]? = some sh ∧ sh.term.isSome = true ∧ sh.terminated = b := by
  obtain ⟨sh, hsh, hterm⟩ := Option.bind_eq_some_iff.mp h
  obtain ⟨t, ht, hb⟩ := Option.map_eq_some_iff.mp hterm
  exact ⟨sh, hsh, by rw [ht]; rfl, hb⟩

theorem mark_plugin {i : Nat} (h : pm.mark (.plugin i) = some b) :
    ∃ pd, pm.plgs[i]? = some pd ∧ pd.terminated = b :=
  Option.map_eq_some_iff.mp h

/-- The two loops of a function, seen by one descriptor with a handler. -/
theorem ofDesc_loops {sig : Desc → ShTerm η → List TermEv} {plg : Desc → Umplgd η → List TermEv}
    (evs : Bool → List TermEv) (hsig : Local sig) (hplg : Local plg) (h : pm.mark d = some b)
    (hs : ∀ sh, sh.term.isSome = true → sig d sh = evs sh.terminated)
    (hp : ∀ pd, plg d pd = evs pd.terminated) :
    ofDesc d (descLoop .signal sig pm.signals ++ descLoop .plugin plg pm.plgs) = evs b := by
  rw [ofDesc_append]
  cases d with
  | signal i =>
      obtain ⟨sh, hsh, hterm, rfl⟩ := mark_signal h
      rw [ofDesc_descLoop hsig (fun _ _ => Desc.signal.inj) hsh,
        ofDesc_descLoop_other hplg (by simp), List.append_nil, hs sh hterm]
  | plugin i =>
      obtain ⟨pd, hpd, rfl⟩ := mark_plugin h
      rw [ofDesc_descLoop_other hsig (by simp),
        ofDesc_descLoop hplg (fun _ _ => Desc.plugin.inj) hpd, List.nil_append, hp pd]

theorem umplgTerminateAll_events (h : pm.mark d = some b) (phase : Int) :
    ofDesc d (pm.umplgTerminateAll phase).1 = [.term d phase] := by
  refine ofDesc_loops (fun _ => [.term d phase]) ?_ ?_ h ?_ ?_
  · intro d sh ev hev
    dsimp only at hev
    split at hev
    · rw [List.mem_singleton.mp hev]
      rfl
    · simp at hev
  · intro d pd ev hev
    rw [List.mem_singleton.mp hev]
    rfl
  · intro sh hterm
    rw [if_pos hterm]
  · exact fun pd => rfl

theorem umplgTerminateAll_mark (h : pm.mark d = some b) (phase : Int) :
    (pm.umplgTerminateAll phase).2.mark d = some true := by
  cases d with
  | signal i =>
      obtain ⟨sh, hsh, hterm, -⟩ := mark_signal h
      obtain ⟨t, ht⟩ := Option.isSome_iff_exists.mp hterm
      simp [mark, umplgTerminateAll, hsh, ht]
  | plugin i =>
      obtain ⟨pd, hpd, -⟩ := mark_plugin h
      simp [mark, umplgTerminateAll, hpd]

/-- The end of a descriptor calls its own handler and releases it. -/
theorem desc_of_mem_release {c : Prop} [Decidable c] {ev : TermEv}
    (h : ev ∈ (if c then [.term d 0, .term d 1] else []) ++ [.release d]) : ev.desc = d := by
  split at h <;> simp at h
  · rcases h with rfl | rfl | rfl <;> rfl
  · rw [h]
    rfl

theorem umplgFreeMngr_events (h : pm.mark d = some b) :
    ofDesc d pm.umplgFreeMngr =
      (if !b then [.term d 0, .term d 1] else []) ++ [.release d] := by
  refine ofDesc_loops (fun b => (if !b then [.term d 0, .term d 1] else []) ++ [.release d])
    ?_ ?_ h ?_ ?_
  · exact fun d sh ev hev => desc_of_mem_release hev
  · exact fun d pd ev hev => desc_of_mem_release hev
  · intro sh hterm
    simp [hterm]
  · exact fun pd => rfl

/-- A marked descriptor is terminated for the phases of the calls only. -/
theorem teardown_events_of_marked (phases : List Int) (h : pm.mark d = some true) :
    ofDesc d (pm.teardown phases) = phases.map (.term d) ++ [.release d] := by
  induction phases generalizing pm with
  | nil => exact umplgFreeMngr_events h
  | cons phase phases ih =>
      rw [teardown, ofDesc_append, umplgTerminateAll_events h, ih (umplgTerminateAll_mark h phase)]
      rfl

/-- A descriptor that is not marked yet is terminated for the phases of the calls
or, when there are none, for both by the end. -/
theorem teardown_events (phases : List Int) (h : pm.mark d = some false) :
    ofDesc d (pm.teardown phases) =
      (if phases = [] then [0, 1] else phases).map (.term d) ++ [.release d] := by
  cases phases with
  | nil => exact umplgFreeMngr_events h
  | cons phase phases =>
      rw [teardown, ofDesc_append, umplgTerminateAll_events h,
        teardown_events_of_marked phases (umplgTerminateAll_mark h phase), if_neg (by simp)]
      rfl

/-- Every signal with a termination handler and every plugin is terminated in two
phases exactly when `umplg_terminate_all` is called for none of the phases or
for 0 and then 1, or there is no such signal and no plugin. -/
theorem two_phase_iff (hfresh : pm.Fresh) (phases : List Int) :
    (∀ d, (pm.mark d).isSome → TwoPhase (pm.teardown phases) d) ↔
      phases = [] ∨ phases = [0, 1] ∨ ∀ d, pm.mark d = none := by
  have hiff : ∀ d, (pm.mark d).isSome →
      (TwoPhase (pm.teardown phases) d ↔ phases = [] ∨ phases = [0, 1]) := by
    intro d hd
    obtain ⟨b, hb⟩ := Option.isSome_iff_exists.mp hd
    obtain rfl : b = false := Bool.eq_false_iff.mpr fun h => hfresh d (h ▸ hb)
    have hinj : Function.Injective (TermEv.term d) := fun _ _ h => (TermEv.term.inj h).2
    have htwo : [TermEv.term d 0, .term d 1, .release d] =
        [(0 : Int), 1].map (.term d) ++ [.release d] := rfl
    rw [TwoPhase, teardown_events phases hb, htwo, List.append_cancel_right_eq,
      (List.map_injective_iff.mpr hinj).eq_iff]
    by_cases hnil : phases = []
    · simp [hnil]
    · simp [hnil]
  constructor
  · intro h
    by_cases hnone : ∀ d, pm.mark d = none
    · exact Or.inr (Or.inr hnone)
    · obtain ⟨d, hd⟩ := not_forall.mp hnone
      have hsome := Option.isSome_iff_ne_none.mpr hd
      rcases (hiff d hsome).mp (h d hsome) with hnil | hboth
      · exact Or.inl hnil
      · exact Or.inr (Or.inl hboth)
  · rintro (hnil | hboth | hnone) d hd
    · exact (hiff d hd).mpr (Or.inl hnil)
    · exact (hiff d hd).mpr (Or.inr hboth)
    · rw [hnone d] at hd
      cases hd

section Loaded

/-- The manager after loads and registrations of signals with these handlers, whose
descriptors are zeroed before. -/
def loaded (s : UmplgMngr η) (terms : List (Option η)) : TermMngr η :=
  ⟨terms.map (⟨·, false⟩), s.plgs.elems⟩

theorem resolve_terminated {c : LoadCall η} {cmds : List Int} {pd : Umplgd η}
    (h : c.resolve = some (cmds, pd)) : pd.terminated = false := by
  unfold LoadCall.resolve at h
  split at h
  · obtain ⟨-, rfl⟩ := Prod.mk.inj (Option.some.inj h)
    rfl
  · cases h

theorem fresh_loaded {s : UmplgMngr η} {calls : List (LoadCall η)}
    (h : Trace.exec UmplgMngr.step UmplgMngr.new calls = some s) (terms : List (Option η)) :
    (loaded s terms).Fresh := by
  have hI : s.Inv calls := UmplgMngr.inv_new.exec h
  intro d hd
  cases d with
  | signal i =>
      obtain ⟨sh, hsh, -, hmark⟩ := mark_signal hd
      obtain ⟨t, -, rfl⟩ := List.mem_map.mp (List.mem_of_getElem? hsh)
      cases hmark
  | plugin i =>
      obtain ⟨pd, hpd, hmark⟩ := mark_plugin hd
      have hlt : i < calls.length := hI.length ▸ (List.getElem?_eq_some_iff.mp hpd).1
      obtain ⟨cmds, pd', hres, hpd'⟩ := hI.elem i _ (List.getElem?_eq_getElem hlt)
      obtain rfl : pd = pd' := Option.some.inj (hpd.symm.trans hpd')
      rw [resolve_terminated hres] at hmark
      cases hmark

end Loaded

section OneSignal

/-- A manager with one plugin and one signal. -/
def onePlugin : TermMngr Nat := ⟨[⟨some 1, false⟩], [⟨"plg", 0, none, 0, false⟩]⟩

/-- The teardown of the daemon, with a plugin that was loaded. -/
theorem two_phase_iff_both :
    ∃ s : UmplgMngr Nat,
      TwoPhase ((loaded s [some 1]).teardown [0, 1]) (.signal 0) ∧
      TwoPhase ((loaded s [some 1]).teardown [0, 1]) (.plugin 0) := by
  have hrun : Trace.exec UmplgMngr.step UmplgMngr.new [UmplgMngr.oneCommand 0 true] = some _ := rfl
  have hall := (two_phase_iff (fresh_loaded hrun [some 1]) [0, 1]).mpr (Or.inr (Or.inl rfl))
  exact ⟨_, hall (.signal 0) rfl, hall (.plugin 0) rfl⟩

/-- After `umplg_terminate_all` for phase 0 only, the descriptors are released
without a call for phase 1. -/
theorem phase_zero_only :
    onePlugin.teardown [0] =
      [.term (.signal 0) 0, .term (.plugin 0) 0, .release (.signal 0), .release (.plugin 0)] ∧
    ¬ TwoPhase (onePlugin.teardown [0]) (.signal 0) ∧
    ¬ TwoPhase (onePlugin.teardown [0]) (.plugin 0) := by
  unfold TwoPhase
  decide

end OneSignal

end TermMngr

end Umink.Plugin
