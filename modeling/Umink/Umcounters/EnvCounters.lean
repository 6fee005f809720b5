import Umink.Umcounters.Updates

/-!
# Counters of environments and signals

`init_counters` formats the ids of three counters from a prefix and the name of
an environment into a buffer of the size of a counter's id. The counters of
different pairs are different, and those of one pair too, as long as a letter of
their last words is left in the buffer.

## Implementation notes

Scripts call `M.perf_inc` and change counters between the calls of `init_counters`. They do not
create counters under the ids beforehand; on counters that are there they may use the ids.
-/

namespace Umink.Umcounters

open Umink.Library

/-- The prefixes that `init_counters` is given. -/
inductive Pfx where
  | environment
  | signal
  deriving DecidableEq, Repr

def Pfx.str : Pfx → CStr
  | .environment => .ascii "environment" (by decide)
  | .signal => .ascii "signal" (by decide)

/-- A prefix and the name of an environment. -/
structure PerfOwner where
  pfx : Pfx
  name : CStr
  deriving DecidableEq

/-- The counters of `struct perf_d`. -/
inductive PerfKind where
  | cnt
  | err
  | lag
  deriving DecidableEq, Repr

/-- The last word of the id. -/
def PerfKind.word : PerfKind → CStr
  | .cnt => .ascii "count" (by decide)
  | .err => .ascii "error" (by decide)
  | .lag => .ascii "lag" (by decide)

def PerfKind.type : PerfKind → UmcType
  | .cnt => .incremental
  | .err => .incremental
  | .lag => .gauge

/-- `struct perf_d`: the places of the counters. -/
structure PerfD where
  cnt : Nat
  err : Nat
  lag : Nat

def PerfD.get (p : PerfD) : PerfKind → Nat
  | .cnt => p.cnt
  | .err => p.err
  | .lag => p.lag

/-- The field of the id before the name. -/
def PerfOwner.head (x : PerfOwner) : CStr :=
  .ascii "lua." (by decide) ++ x.pfx.str ++ .ascii "." (by decide)

/-- The content of `perf_id`. -/
def perfId (x : PerfOwner) (k : PerfKind) : CharBuf umcNameMax :=
  snprintfStr umcNameMax_pos (x.head ++ x.name ++ .ascii "." (by decide) ++ k.word)

/-- `init_counters`. -/
def initCounters (ctx : UmcCtx) (x : PerfOwner) : UmcCtx × PerfD :=
  let (ctx, cnt) := ctx.umcNewCounter (perfId x .cnt).1 .incremental
  let (ctx, err) := ctx.umcNewCounter (perfId x .err).1 .incremental
  let (ctx, lag) := ctx.umcNewCounter (perfId x .lag).1 .gauge
  (ctx, ⟨cnt, err, lag⟩)

/-- A call of `init_counters` or an operation of a script or a plugin. -/
inductive PerfCall where
  | init (x : PerfOwner)
  | op (o : Operation)

/-- The context with the counters that `init_counters` returned. -/
def perfStep (s : UmcCtx × List (PerfOwner × PerfD)) :
    PerfCall → Option (UmcCtx × List (PerfOwner × PerfD))
  | .init x => some ((initCounters s.1 x).1, s.2 ++ [(x, (initCounters s.1 x).2)])
  | .op o => (s.1.operate o).map fun ctx => (ctx, s.2)

/-- The pairs that `init_counters` is called for. -/
def owners (calls : List PerfCall) : List PerfOwner :=
  calls.filterMap fun
    | .init x => some x
    | .op _ => none

/-- The id under which an operation may create a counter. -/
def Operation.created : Operation → Option CStr
  | .call (.newCounter id _) => some id
  | .call (.perfInc id _ _) => some id
  | _ => none

/-- The operation creates no counter under an id of the pairs `xs` to come: what it names is the
id of a pair that has its counters already. -/
def Operation.Foreign (o : Operation) (done xs : List PerfOwner) : Prop :=
  ∀ id, o.created = some id → ∀ x ∈ xs, ∀ k, snprintfStr umcNameMax_pos id = perfId x k →
    x ∈ done ∧ id = (perfId x k).1

/-- No operation creates a counter under an id before `init_counters` is called for it. -/
def NoneBeforehand (done : List PerfOwner) : List PerfCall → Prop
  | [] => True
  | .init x :: calls => NoneBeforehand (done ++ [x]) calls
  | .op o :: calls => o.Foreign done (owners calls) ∧ NoneBeforehand done calls

/-- A letter of the last word is left in the buffer. -/
def PerfOwner.Fits (x : PerfOwner) : Prop :=
  4 + x.pfx.str.length + 1 + x.name.length + 1 < umcNameMax - 1

instance (x : PerfOwner) : Decidable x.Fits := inferInstanceAs (Decidable (_ < _))

/-- Each pair has three counters of its own, a gauge and two incremental ones. -/
structure Separate (s : UmcCtx × List (PerfOwner × PerfD)) : Prop where
  distinct : ∀ e ∈ s.2, ∀ k j, k ≠ j → e.2.get k ≠ e.2.get j
  typed : ∀ e ∈ s.2, ∀ k, ∃ c ∈ s.1.counters, c.addr = e.2.get k ∧ c.type = k.type
  disjoint : ∀ e ∈ s.2, ∀ f ∈ s.2, e.1 ≠ f.1 → ∀ k j, e.2.get k ≠ f.2.get j

section Ids

theorem perfId_bytes (x : PerfOwner) (k : PerfKind) :
    (perfId x k).1.bytes =
      (x.head.bytes ++ x.name.bytes ++ 46 :: k.word.bytes).take 255 := by
  change ((x.head.bytes ++ x.name.bytes ++ [46]) ++ k.word.bytes).take 255 = _
  rw [List.append_assoc _ [46], List.singleton_append]

theorem head_length (x : PerfOwner) : x.head.bytes.length = 4 + x.pfx.str.length + 1 := by
  rw [PerfOwner.head, CStr.bytes_append, CStr.bytes_append, List.length_append, List.length_append]
  rfl

/-- The fifth byte of the id. -/
def Pfx.letter : Pfx → UInt8
  | .environment => 101
  | .signal => 115

theorem perfId_letter (x : PerfOwner) (k : PerfKind) :
    (perfId x k).1.bytes[4]? = some x.pfx.letter := by
  obtain ⟨pfx, name⟩ := x
  rw [perfId_bytes]
  cases pfx <;> rfl

/-- Ids whose words show a letter are equal only for one pair and one counter. -/
theorem perfId_inj {x y : PerfOwner} (hx : x.Fits) (hy : y.Fits) {k j : PerfKind}
    (h : (perfId x k).1 = (perfId y j).1) : x = y ∧ k = j := by
  have hpfx : x.pfx = y.pfx := by
    have hletter := congrArg (fun s : CStr => s.bytes[4]?) h
    simp only [perfId_letter, Option.some.injEq] at hletter
    cases hpx : x.pfx <;> cases hpy : y.pfx <;> simp_all [Pfx.letter]
  have hhead : y.head = x.head := by rw [PerfOwner.head, ← hpfx]; rfl
  have hlen := head_length x
  have hword : ∀ k : PerfKind, 46 ∉ k.word.bytes := fun k => by cases k <;> decide
  have hbytes := congrArg CStr.bytes h
  rw [perfId_bytes, perfId_bytes, hhead] at hbytes
  unfold PerfOwner.Fits umcNameMax CStr.length at hx hy
  obtain ⟨hname, hfirst⟩ := take_field_inj (hword k) (hword j)
    (by rw [List.length_append, hlen, CStr.length]; omega)
    (by rw [List.length_append, hlen, hpfx, CStr.length]; omega) hbytes
  have hfirst := hfirst (by rw [List.length_append, hlen, CStr.length]; omega)
  constructor
  · obtain ⟨pfx, name⟩ := x
    obtain ⟨pfx', name'⟩ := y
    exact PerfOwner.mk.injEq .. ▸ ⟨hpfx, CStr.ext hname⟩
  · cases k <;> cases j <;> first | rfl | exact absurd hfirst (by decide)

/-- Without room for a letter the ids of the three counters are one. -/
theorem perfId_eq_of_not_fits {x : PerfOwner} (hx : ¬ x.Fits) (k j : PerfKind) :
    perfId x k = perfId x j := by
  have hcut : ∀ k, (perfId x k).1.bytes =
      (x.head.bytes ++ x.name.bytes ++ [46]).take 255 := by
    intro k
    have hlen : 255 ≤ (x.head.bytes ++ x.name.bytes ++ [46]).length := by
      simp only [PerfOwner.Fits, umcNameMax, CStr.length] at hx
      simp only [List.length_append, head_length, CStr.length, List.length_singleton]
      omega
    rw [perfId_bytes, ← List.singleton_append, ← List.append_assoc,
      List.take_append_of_le_length hlen]
  apply Subtype.ext
  apply CStr.ext
  exact (hcut k).trans (hcut j).symm

end Ids

/-- What never changes of a counter: its place, its key and its type. -/
structure Label where
  addr : Nat
  key : CStr
  type : UmcType

def Umc.label (c : Umc) : Label := ⟨c.addr, c.key, c.type⟩

def UmcCtx.labels (ctx : UmcCtx) : List Label := ctx.counters.map Umc.label

section Labels

variable {ctx : UmcCtx} {id : CStr} {type : UmcType}

theorem labels_write (ctx : UmcCtx) (addr : Nat) {f : Umc → Umc}
    (hf : ∀ c, (f c).label = c.label) : (ctx.write addr f).labels = ctx.labels := by
  rw [UmcCtx.labels, UmcCtx.write, HashTable.modify, List.map_map, UmcCtx.labels]
  apply List.map_congr_left
  intro c _
  dsimp only [Function.comp_apply]
  split_ifs
  · exact hf c
  · rfl

theorem incValue_label (val now : UInt64) (c : Umc) : (incValue val now c).label = c.label := by
  rw [Umc.label, incValue_addr, incValue_key, incValue, updateValue_type]
  rfl

theorem setValue_label (val now : UInt64) (c : Umc) : (setValue val now c).label = c.label := by
  rw [Umc.label, setValue_addr, setValue_key, setValue, updateValue_type]
  rfl

/-- A counter is found under the id or added under what the buffer holds of it. -/
theorem umcNewCounter_labels (ctx : UmcCtx) (id : CStr) (type : UmcType) :
    (∃ l ∈ ctx.labels, l.key = id ∧ (ctx.umcNewCounter id type).2 = l.addr ∧
      (ctx.umcNewCounter id type).1 = ctx) ∨
    (id ∉ ctx.labels.map Label.key ∧ (ctx.umcNewCounter id type).2 = ctx.labels.length ∧
      (ctx.umcNewCounter id type).1.labels =
        ctx.labels ++
          [⟨ctx.labels.length, (snprintfStr umcNameMax_pos id : CharBuf umcNameMax).1, type⟩]) := by
  cases hfind : HashTable.find Umc.key ctx.counters id with
  | some c =>
      have hkey : c.key = id := HashTable.key_of_find hfind
      rw [UmcCtx.umcNewCounter_of_some hfind]
      exact .inl ⟨c.label, List.mem_map_of_mem (HashTable.mem_of_find hfind), hkey, rfl, rfl⟩
  | none =>
      have hnew := HashTable.find_eq_none_iff.mp hfind
      rw [UmcCtx.umcNewCounter_of_none hfind, UmcCtx.labels, UmcCtx.labels, List.map_map,
        List.map_append, List.length_map]
      exact .inr ⟨hnew, rfl, rfl⟩

end Labels

/-- The places of the counters are their positions, and a counter under an id of
`init_counters` has the type that goes with it. -/
structure Labelled (xs : List PerfOwner) (ctx : UmcCtx) : Prop where
  places : ctx.labels.map Label.addr = List.range ctx.labels.length
  types : ∀ l ∈ ctx.labels, ∀ x ∈ xs, ∀ k, l.key = (perfId x k).1 → l.type = k.type

/-- The context is labelled and keeps the labels of another one. -/
structure Keeps (xs : List PerfOwner) (ctx ctx' : UmcCtx) : Prop where
  labelled : Labelled xs ctx'
  subset : ctx.labels ⊆ ctx'.labels

section Steps

variable {xs : List PerfOwner} {ctx ctx' ctx'' : UmcCtx}

theorem labelled_new : Labelled xs umcNewCtx := ⟨rfl, nofun⟩

theorem Keeps.refl (h : Labelled xs ctx) : Keeps xs ctx ctx := ⟨h, fun _ h => h⟩

theorem Keeps.trans (h : Keeps xs ctx ctx') (h' : Keeps xs ctx' ctx'') : Keeps xs ctx ctx'' :=
  ⟨h'.labelled, fun _ hl => h'.subset (h.subset hl)⟩

theorem Keeps.of_labels_eq (h : Labelled xs ctx) (heq : ctx'.labels = ctx.labels) :
    Keeps xs ctx ctx' where
  labelled := ⟨by rw [heq]; exact h.places, by rw [heq]; exact h.types⟩
  subset := by rw [heq]; exact fun _ hl => hl

theorem Labelled.mono (h : Labelled xs ctx) {ys : List PerfOwner} (hsub : ys ⊆ xs) :
    Labelled ys ctx :=
  ⟨h.places, fun l hl x hx => h.types l hl x (hsub hx)⟩

/-- A new counter whose id is none of `init_counters`, or that has the type of it. -/
theorem Labelled.newCounter (h : Labelled xs ctx) {id : CStr} {type : UmcType}
    (htype : ∀ x ∈ xs, ∀ k, (snprintfStr umcNameMax_pos id : CharBuf umcNameMax) = perfId x k →
      type = k.type ∨ id ∈ ctx.labels.map Label.key) :
    Keeps xs ctx (ctx.umcNewCounter id type).1 := by
  obtain ⟨l, -, -, -, hsame⟩ | ⟨hnew, -, hlabels⟩ := umcNewCounter_labels ctx id type
  · rw [hsame]
    exact .refl h
  · refine ⟨⟨?_, ?_⟩, ?_⟩
    · rw [hlabels, List.map_append, h.places, List.length_append]
      exact List.range_succ.symm
    · intro l hl x hx k hkey
      rw [hlabels] at hl
      obtain hl | hl := List.mem_append.mp hl
      · exact h.types l hl x hx k hkey
      · obtain rfl := List.mem_singleton.mp hl
        exact (htype x hx k (Subtype.ext hkey)).resolve_right hnew
    · rw [hlabels]
      exact List.subset_append_left _ _

/-- The counter of an id of `init_counters`, new or found. -/
theorem Labelled.newPerf (hfits : ∀ x ∈ xs, x.Fits) (h : Labelled xs ctx) {x : PerfOwner}
    (hx : x ∈ xs) (k : PerfKind) :
    Keeps xs ctx (ctx.umcNewCounter (perfId x k).1 k.type).1 ∧
      ⟨(ctx.umcNewCounter (perfId x k).1 k.type).2, (perfId x k).1, k.type⟩ ∈
        (ctx.umcNewCounter (perfId x k).1 k.type).1.labels := by
  have hbuf : (snprintfStr umcNameMax_pos (perfId x k).1 : CharBuf umcNameMax).1 = (perfId x k).1 :=
    (snprintfStr_eq_iff _ _).mpr (perfId x k).2
  constructor
  · apply h.newCounter
    intro y hy j heq
    have hkey : (perfId x k).1 = (perfId y j).1 := hbuf.symm.trans (congrArg Subtype.val heq)
    exact .inl (congrArg PerfKind.type (perfId_inj (hfits x hx) (hfits y hy) hkey).2)
  · obtain ⟨l, hl, hkey, haddr, hsame⟩ | ⟨-, haddr, hlabels⟩ :=
      umcNewCounter_labels ctx (perfId x k).1 k.type
    · rw [hsame, haddr, ← hkey, ← h.types l hl x hx k hkey]
      exact hl
    · rw [hlabels, haddr, hbuf]
      exact List.mem_append_right _ (List.mem_singleton.mpr rfl)

/-- The three counters that `init_counters` returns. -/
theorem Labelled.initCounters (hfits : ∀ x ∈ xs, x.Fits) (h : Labelled xs ctx) {x : PerfOwner}
    (hx : x ∈ xs) :
    Keeps xs ctx (initCounters ctx x).1 ∧
      ∀ k, ⟨(initCounters ctx x).2.get k, (perfId x k).1, k.type⟩ ∈
        (initCounters ctx x).1.labels := by
  obtain ⟨hkeep, hcnt⟩ := h.newPerf hfits hx .cnt
  obtain ⟨hkeep', herr⟩ := hkeep.labelled.newPerf hfits hx .err
  obtain ⟨hkeep'', hlag⟩ := hkeep'.labelled.newPerf hfits hx .lag
  refine ⟨(hkeep.trans hkeep').trans hkeep'', fun k => ?_⟩
  cases k with
  | cnt => exact hkeep''.subset (hkeep'.subset hcnt)
  | err => exact hkeep''.subset herr
  | lag => exact hlag

theorem Labelled.getWrite (h : Labelled xs ctx) (id : CStr) {f : Umc → Umc}
    (hf : ∀ c, (f c).label = c.label) : Keeps xs ctx (ctx.getWrite id f).1 := by
  unfold UmcCtx.getWrite
  cases ctx.umcGet id with
  | none => exact .refl h
  | some c => exact .of_labels_eq h (labels_write ctx c.addr hf)

/-- An operation that creates no counter under an id of `init_counters`, unless one is there. -/
theorem Labelled.operate (h : Labelled xs ctx) {o : Operation}
    (ho : ∀ id, o.created = some id → ∀ x ∈ xs, ∀ k, snprintfStr umcNameMax_pos id = perfId x k →
      id ∈ ctx.labels.map Label.key)
    (hst : ctx.operate o = some ctx') : Keeps xs ctx ctx' := by
  cases o with
  | call a =>
      obtain rfl := Option.some.inj hst
      cases a with
      | newCounter id type =>
          exact h.newCounter fun x hx k heq => .inr (ho id rfl x hx k heq)
      | get id => exact .refl h
      | getInc id val now => exact h.getWrite id (incValue_label val now)
      | getSet id val now => exact h.getWrite id (setValue_label val now)
      | perfInc id inc now =>
          have hnew : Keeps xs ctx (ctx.umcNewCounter id .incremental).1 :=
            h.newCounter fun x hx k heq => .inr (ho id rfl x hx k heq)
          exact hnew.trans (.of_labels_eq hnew.labelled (labels_write _ _ (incValue_label _ now)))
  | inc c val now =>
      obtain ⟨-, hctx⟩ := Option.ite_none_right_eq_some.mp hst
      obtain rfl := Option.some.inj hctx
      exact .of_labels_eq h (labels_write ctx c (incValue_label val now))
  | set c val now =>
      obtain ⟨-, hctx⟩ := Option.ite_none_right_eq_some.mp hst
      obtain rfl := Option.some.inj hctx
      exact .of_labels_eq h (labels_write ctx c (setValue_label val now))

end Steps

section Runs

variable {xs : List PerfOwner} {calls : List PerfCall} {s t : UmcCtx × List (PerfOwner × PerfD)}

/-- The counters that were returned are there under their ids, and those under the ids of the
pairs to come have the types of these. -/
structure Held (xs : List PerfOwner) (s : UmcCtx × List (PerfOwner × PerfD)) : Prop where
  labelled : Labelled xs s.1
  fits : ∀ e ∈ s.2, e.1.Fits
  held : ∀ e ∈ s.2, ∀ k, ⟨e.2.get k, (perfId e.1 k).1, k.type⟩ ∈ s.1.labels

theorem Held.init {x : PerfOwner} (hfits : ∀ y ∈ x :: xs, y.Fits) (h : Held (x :: xs) s)
    (hst : perfStep s (.init x) = some t) : Held xs t := by
  obtain rfl := Option.some.inj hst
  obtain ⟨hkeep, hnew⟩ := h.labelled.initCounters hfits List.mem_cons_self
  refine ⟨hkeep.labelled.mono (List.subset_cons_self x xs), ?_, ?_⟩
  · intro e he
    obtain he | he := List.mem_append.mp he
    · exact h.fits e he
    · obtain rfl := List.mem_singleton.mp he
      exact hfits x List.mem_cons_self
  · intro e he k
    obtain he | he := List.mem_append.mp he
    · exact hkeep.subset (h.held e he k)
    · obtain rfl := List.mem_singleton.mp he
      exact hnew k

theorem Held.operate (h : Held xs s) {o : Operation} (ho : o.Foreign (s.2.map Prod.fst) xs)
    (hst : perfStep s (.op o) = some t) : Held xs t := by
  obtain ⟨ctx, hctx, rfl⟩ := Option.map_eq_some_iff.mp hst
  have hkeep : Keeps xs s.1 ctx := by
    refine h.labelled.operate (fun id hid x hx k heq => ?_) hctx
    obtain ⟨hdone, rfl⟩ := ho id hid x hx k heq
    obtain ⟨e, he, rfl⟩ := List.mem_map.mp hdone
    exact List.mem_map_of_mem (h.held e he k)
  exact ⟨hkeep.labelled, h.fits, fun e he k => hkeep.subset (h.held e he k)⟩

/-- A run keeps the counters that were returned. -/
theorem Held.exec (h : Held (owners calls) s) (hfits : ∀ x ∈ owners calls, x.Fits)
    (hnone : NoneBeforehand (s.2.map Prod.fst) calls)
    (hrun : Trace.exec perfStep s calls = some t) : Held [] t := by
  induction calls generalizing s with
  | nil => exact Option.some.inj hrun ▸ h
  | cons a calls ih =>
      obtain ⟨u, hsu, hut⟩ := (Trace.exec_cons_iff ..).mp hrun
      cases a with
      | init x =>
          refine ih (h.init hfits hsu) (fun y hy => hfits y (List.mem_cons_of_mem x hy)) ?_ hut
          obtain rfl := Option.some.inj hsu
          rw [List.map_append]
          exact hnone
      | op o =>
          refine ih (h.operate hnone.1 hsu) hfits ?_ hut
          obtain ⟨ctx, -, rfl⟩ := Option.map_eq_some_iff.mp hsu
          exact hnone.2

/-- Counters at one place have one id. -/
theorem Held.inj (h : Held xs s) {e f : PerfOwner × PerfD} (he : e ∈ s.2) (hf : f ∈ s.2)
    {k j : PerfKind} (haddr : e.2.get k = f.2.get j) : e.1 = f.1 ∧ k = j := by
  have hnodup : (s.1.labels.map Label.addr).Nodup := h.labelled.places ▸ List.nodup_range
  have hlabel := List.inj_on_of_nodup_map hnodup (h.held e he k) (h.held f hf j) haddr
  exact perfId_inj (h.fits e he) (h.fits f hf) (congrArg Label.key hlabel)

theorem Held.separate (h : Held xs s) : Separate s where
  distinct e he k j hne heq := hne (h.inj he he heq).2
  typed e he k := by
    obtain ⟨c, hc, hlabel⟩ := List.mem_map.mp (h.held e he k)
    exact ⟨c, hc, congrArg Label.addr hlabel, congrArg Label.type hlabel⟩
  disjoint e he f hf hne k j heq := hne (h.inj he hf heq).1

/-- The id of the buffer finds the counter that was created under it. -/
theorem umcNewCounter_again (ctx : UmcCtx) (id : CharBuf umcNameMax) (type type' : UmcType) :
    ((ctx.umcNewCounter id.1 type).1.umcNewCounter id.1 type').2 =
      (ctx.umcNewCounter id.1 type).2 := by
  cases hfind : HashTable.find Umc.key ctx.counters id.1 with
  | some c =>
      rw [UmcCtx.umcNewCounter_of_some hfind, UmcCtx.umcNewCounter_of_some hfind]
  | none =>
      have hkey : (Umc.fresh ctx.counters.length id.1 type).key = id.1 :=
        (snprintfStr_eq_iff (by decide) id.1).mpr id.2
      have hagain := @HashTable.find_add _ _ _ Umc.key ctx.counters
        (Umc.fresh ctx.counters.length id.1 type) id.1
      rw [if_pos hkey] at hagain
      rw [UmcCtx.umcNewCounter_of_none hfind]
      exact congrArg Prod.snd (UmcCtx.umcNewCounter_of_some hagain type')

/-- Without room for a letter the first two counters are one. -/
theorem initCounters_cnt_eq_err {x : PerfOwner} (hx : ¬ x.Fits) (ctx : UmcCtx) :
    (initCounters ctx x).2.cnt = (initCounters ctx x).2.err := by
  have hid := perfId_eq_of_not_fits hx .err .cnt
  simp only [initCounters, hid]
  exact (umcNewCounter_again ctx (perfId x .cnt) .incremental .incremental).symm

theorem owners_of_exec (h : Trace.exec perfStep s calls = some t) :
    t.2.map Prod.fst = s.2.map Prod.fst ++ owners calls := by
  induction calls generalizing s with
  | nil =>
      rw [← Option.some.inj h]
      exact (List.append_nil _).symm
  | cons a calls ih =>
      obtain ⟨u, hsu, hut⟩ := (Trace.exec_cons_iff perfStep s t a calls).mp h
      rw [ih hut]
      cases a with
      | init x =>
          obtain rfl := Option.some.inj hsu
          rw [List.map_append, List.append_assoc]
          rfl
      | op o =>
          obtain ⟨ctx, -, rfl⟩ := Option.map_eq_some_iff.mp hsu
          rfl

/-- After any run of `init_counters` and operations that create no counters under its
ids beforehand, all pairs have counters of their own exactly if a letter of the last word is left
in the buffer for each pair. -/
theorem perf_counters_separate_iff
    (hrun : Trace.exec perfStep (umcNewCtx, []) calls = some s)
    (hnone : NoneBeforehand [] calls) :
    Separate s ↔ ∀ x ∈ owners calls, x.Fits := by
  constructor
  · intro hsep x hx
    by_contra hlong
    have htwo : ∀ e ∈ s.2, ¬ e.1.Fits → e.2.cnt = e.2.err := by
      refine Trace.exec_invariant (I := fun s => ∀ e ∈ s.2, ¬ e.1.Fits → e.2.cnt = e.2.err) ?_
        nofun hrun
      intro s a t hs hst e he
      cases a with
      | init y =>
          obtain rfl := Option.some.inj hst
          obtain he | he := List.mem_append.mp he
          · exact hs e he
          · exact List.mem_singleton.mp he ▸ fun hy => initCounters_cnt_eq_err hy s.1
      | op o =>
          obtain ⟨ctx, -, rfl⟩ := Option.map_eq_some_iff.mp hst
          exact hs e he
    have hmem : x ∈ s.2.map Prod.fst := by
      rw [owners_of_exec hrun]
      exact List.mem_append_right _ hx
    obtain ⟨e, he, rfl⟩ := List.mem_map.mp hmem
    exact hsep.distinct e he .cnt .err nofun (htwo e he hlong)
  · intro hfits
    have hstart : Held (owners calls) (umcNewCtx, []) := ⟨labelled_new, by simp, by simp⟩
    exact (hstart.exec hfits hnone hrun).separate

/-- The environment `e`, a script of it that counts on under the id of its runs, its signals and
the environment once more. -/
def sharedRun : List PerfCall :=
  [.init ⟨.environment, .ascii "e" (by decide)⟩,
    .op (.call (.perfInc (.ascii "lua.environment.e.count" (by decide)) 5 0)),
    .init ⟨.signal, .ascii "e" (by decide)⟩, .init ⟨.environment, .ascii "e" (by decide)⟩]

theorem perf_counters_separate_iff_shared :
    ∃ s, Trace.exec perfStep (umcNewCtx, []) sharedRun = some s ∧ Separate s := by
  have hrun : Trace.exec perfStep (umcNewCtx, []) sharedRun = some _ := rfl
  have hnone : NoneBeforehand [] sharedRun := by
    refine ⟨fun id hid x hx k heq => ?_, trivial⟩
    obtain rfl := Option.some.inj hid
    obtain rfl | rfl := List.mem_pair.mp hx
    · cases k <;> exact absurd heq (by decide)
    · cases k with
      | cnt => exact ⟨List.mem_singleton.mpr rfl, rfl⟩
      | err => exact absurd heq (by decide)
      | lag => exact absurd heq (by decide)
  exact ⟨_, hrun, (perf_counters_separate_iff hrun hnone).mpr (by decide)⟩

/-- An environment whose name has 238 bytes has one counter for its runs and its errors. -/
theorem long_name_shares :
    ∃ s, Trace.exec perfStep (umcNewCtx, [])
        [.init ⟨.environment, .replicate 238 97 (by decide)⟩] = some s ∧
      s.2.map (fun e => (e.2.cnt, e.2.err, e.2.lag)) = [(0, 0, 0)] ∧ ¬ Separate s := by
  have hrun : Trace.exec perfStep (umcNewCtx, [])
      [.init ⟨.environment, .replicate 238 97 (by decide)⟩] = some _ := rfl
  refine ⟨_, hrun, by decide +kernel, fun hsep => ?_⟩
  exact hsep.distinct _ (List.mem_singleton.mpr rfl) .cnt .err nofun (by decide +kernel)

end Runs

end Umink.Umcounters
