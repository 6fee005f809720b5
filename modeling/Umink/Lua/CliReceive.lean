import Mathlib.Data.List.Basic
import Umink.Library.Trace

/-!
# The receive buffer of a CLI client

`th_cli_client` receives into a buffer on its stack, ends what it received with a
NUL and compiles it. The NUL of a full buffer is written behind it; otherwise the
compiled text is what this round received.

## Implementation notes

The state is the stack from the first byte of `buf` on. The clock, the socket and
the scripts decide everything else, so that they are part of a round.
-/

namespace Umink.Lua.Cli

open Umink.Library

/-- `sizeof(buf)`. -/
def bufSize : Nat := 1024

/-- What `recv` may put into the buffer. -/
structure RecvData where
  bytes : List UInt8
  pos : 0 < bytes.length
  le : bytes.length ≤ bufSize

/-- The result of `recv`: -1, 0 or a number of bytes. -/
inductive RecvRes where
  | error
  | closed
  | data (d : RecvData)

/-- What a script leaves on the Lua stack: a text for a value that `lua_isstring` accepts. -/
structure ScriptRes where
  failed : Bool
  text : Option (List UInt8)

/-- What a round of the loop meets. -/
structure Round where
  terminating : Bool
  poll : Int
  recv : RecvRes
  loads : Bool
  script : ScriptRes

/-- The stack from `buf` on, and whether the thread is in its loop. -/
structure ClientBuf where
  stack : List UInt8
  looping : Bool

/-- What a round does: the indices of `buf` that are written, the text that is
compiled, what is sent, and the state after it. -/
structure RoundRes where
  written : List Nat
  compiled : Option (List UInt8)
  sent : Option (List UInt8)
  next : ClientBuf

/-- The string at the start of some memory. -/
def cBytes (mem : List UInt8) : List UInt8 := mem.takeWhile (· ≠ 0)

/-- The reply to a script. -/
def reply (r : ScriptRes) : Option (List UInt8) := r.text.map fun text => cBytes text ++ [0]

/-- From the received bytes to the end of the round. -/
def ClientBuf.process (c : ClientBuf) (d : RecvData) (loads : Bool) (script : ScriptRes) :
    RoundRes :=
  let br := d.bytes.length
  let stack := d.bytes ++ c.stack.drop br
  -- null terminate
  let stack := stack.set br 0
  let written := List.range br ++ [br]
  let text := some (cBytes stack)
  if loads then ⟨written, text, reply script, ⟨stack, true⟩⟩
  else ⟨written, text, none, ⟨stack, false⟩⟩

/-- A round of the loop of `th_cli_client`. -/
def ClientBuf.round (c : ClientBuf) (a : Round) : RoundRes :=
  let stop : ClientBuf := { c with looping := false }
  if a.terminating then ⟨[], none, none, stop⟩
  else if a.poll < 0 then ⟨[], none, none, stop⟩
  else if a.poll = 0 then ⟨[], none, none, c⟩
  else
    match a.recv with
    | .error => ⟨[], none, none, stop⟩
    | .closed => ⟨[], none, none, stop⟩
    | .data d => c.process d a.loads a.script

/-- A round while the thread is in its loop. -/
def ClientBuf.step (c : ClientBuf) (a : Round) : Option ClientBuf :=
  if c.looping then some (c.round a).next else none

/-- The cleared buffer in front of the rest of the stack. -/
def ClientBuf.start (rest : List UInt8) : ClientBuf := ⟨List.replicate bufSize 0 ++ rest, true⟩

/-- The bytes that a round receives. -/
def Round.received (a : Round) : Option (List UInt8) :=
  if a.terminating then none
  else if a.poll ≤ 0 then none
  else
    match a.recv with
    | .data d => some d.bytes
    | _ => none

/-- The round stays in the buffer and compiles what it receives. -/
structure InBuffer (c : ClientBuf) (a : Round) : Prop where
  written : ∀ i ∈ (c.round a).written, i < bufSize
  compiled : (c.round a).compiled = a.received.map cBytes

/-- The round does not fill the buffer. -/
def Round.Short (a : Round) : Prop := ∀ bytes ∈ a.received, bytes.length < bufSize

instance (a : Round) : Decidable a.Short :=
  inferInstanceAs (Decidable (∀ bytes ∈ a.received, bytes.length < bufSize))

section Rounds

variable {c c' : ClientBuf} {a : Round}

theorem cBytes_append_nul (bytes rest : List UInt8) :
    cBytes (bytes ++ 0 :: rest) = cBytes bytes := by
  unfold cBytes
  induction bytes with
  | nil => rfl
  | cons c bytes ih => rw [List.cons_append, List.takeWhile_cons, List.takeWhile_cons, ih]

/-- What memory reads as in which a string is ended. -/
theorem cBytes_set (bytes rest : List UInt8) (b : UInt8) :
    cBytes ((bytes ++ b :: rest).set bytes.length 0) = cBytes bytes := by
  rw [List.set_append_right _ _ (Nat.le_refl _), Nat.sub_self, List.set_cons_zero,
    cBytes_append_nul]

/-- A round receives nothing and leaves the buffer, or processes what it receives. -/
theorem round_cases (c : ClientBuf) (a : Round) :
    (a.received = none ∧ (c.round a).written = [] ∧ (c.round a).compiled = none ∧
      (c.round a).next.stack = c.stack) ∨
    ∃ d, a.received = some d.bytes ∧ c.round a = c.process d a.loads a.script := by
  unfold Round.received ClientBuf.round
  by_cases hterm : a.terminating
  · exact .inl (by simp [hterm])
  · by_cases herr : a.poll < 0
    · exact .inl (by simp [hterm, herr, Int.le_of_lt herr])
    · by_cases htime : a.poll = 0
      · exact .inl (by simp [hterm, htime])
      · have hready : ¬ a.poll ≤ 0 := by omega
        simp only [hterm, herr, htime, hready, Bool.false_eq_true, if_false]
        cases a.recv with
        | error => exact .inl ⟨rfl, rfl, rfl, rfl⟩
        | closed => exact .inl ⟨rfl, rfl, rfl, rfl⟩
        | data d => exact .inr ⟨d, rfl, rfl⟩

/-- The stack keeps its size. -/
theorem length_next (c : ClientBuf) (a : Round) (h : bufSize ≤ c.stack.length) :
    (c.round a).next.stack.length = c.stack.length := by
  obtain ⟨-, -, -, hstack⟩ | ⟨d, -, hround⟩ := round_cases c a
  · rw [hstack]
  · have hle := d.le
    rw [hround, ClientBuf.process]
    split_ifs <;> simp <;> omega

/-- A round stays in the buffer and compiles what it receives exactly if it does not
fill the buffer. -/
theorem inBuffer_iff (h : bufSize ≤ c.stack.length) : InBuffer c a ↔ a.Short := by
  obtain ⟨hnone, hwritten, hcompiled, -⟩ | ⟨d, hrecv, hround⟩ := round_cases c a
  · refine iff_of_true ⟨?_, ?_⟩ ?_
    · simp [hwritten]
    · rw [hcompiled, hnone, Option.map_none]
    · simp [Round.Short, hnone]
  · have hprocess : (c.process d a.loads a.script).written =
          List.range d.bytes.length ++ [d.bytes.length] ∧
        (c.process d a.loads a.script).compiled = some (cBytes
          ((d.bytes ++ c.stack.drop d.bytes.length).set d.bytes.length 0)) := by
      unfold ClientBuf.process
      split_ifs <;> exact ⟨rfl, rfl⟩
    have hle := d.le
    have hshort : a.Short ↔ d.bytes.length < bufSize := by simp [Round.Short, hrecv]
    rw [hshort]
    constructor
    · intro hin
      apply hin.written
      rw [hround, hprocess.1]
      exact List.mem_append_right _ (List.mem_singleton.mpr rfl)
    · intro hlt
      refine ⟨?_, ?_⟩
      · intro i hi
        rw [hround, hprocess.1, List.mem_append, List.mem_range, List.mem_singleton] at hi
        omega
      · obtain ⟨b, rest, hdrop⟩ := List.exists_cons_of_length_pos
          (l := c.stack.drop d.bytes.length) (by rw [List.length_drop]; omega)
        rw [hround, hprocess.2, hrecv, Option.map_some, hdrop, cBytes_set]

end Rounds

/-- In every session of a client all rounds stay in the buffer and compile what they
receive exactly if no round of it receives 1024 bytes. -/
theorem cli_receive_iff (rest : List UInt8) (rounds : List Round) :
    Trace.Along ClientBuf.step (fun c a _ => InBuffer c a) (ClientBuf.start rest) rounds ↔
      Trace.Along ClientBuf.step (fun _ a _ => a.Short) (ClientBuf.start rest) rounds := by
  have hnext : ∀ c a c', bufSize ≤ c.stack.length → ClientBuf.step c a = some c' →
      bufSize ≤ c'.stack.length := by
    intro c a c' hc hst
    obtain ⟨-, hround⟩ := Option.ite_none_right_eq_some.mp hst
    rw [← Option.some.inj hround, length_next c a hc]
    exact hc
  apply Trace.along_iff_of_invariant (I := fun c => bufSize ≤ c.stack.length)
  · exact fun c a _ hc _ => inBuffer_iff hc
  · exact fun c a c' hc _ hst => hnext c a c' hc hst
  · rw [ClientBuf.start, List.length_append, List.length_replicate]
    exact Nat.le_add_right _ _

/-- As many bytes as the buffer has. -/
def fullRecv : RecvData where
  bytes := List.replicate bufSize 97
  pos := by rw [List.length_replicate]; decide
  le := Nat.le_of_eq List.length_replicate

/-- A round in which they arrive. -/
def fullRound : Round := ⟨false, 1, .data fullRecv, true, ⟨false, none⟩⟩

/-- The NUL of a full buffer is written behind it. -/
theorem full_buffer_overflows :
    1024 ∈ ((ClientBuf.start []).round fullRound).written ∧
    ¬ Trace.Along ClientBuf.step (fun c a _ => InBuffer c a) (ClientBuf.start []) [fullRound] := by
  have hwritten : ((ClientBuf.start []).round fullRound).written =
      List.range fullRecv.bytes.length ++ [fullRecv.bytes.length] := rfl
  have hlast : 1024 ∈ ((ClientBuf.start []).round fullRound).written := by
    rw [hwritten, fullRecv, List.length_replicate]
    exact List.mem_append_right _ (List.mem_singleton.mpr rfl)
  refine ⟨hlast, fun h => ?_⟩
  obtain ⟨hin, -⟩ := h _ rfl
  exact absurd (hin.written 1024 hlast) (by decide)

end Umink.Lua.Cli
