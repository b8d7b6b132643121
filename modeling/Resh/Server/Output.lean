import Resh.Server.Calls

namespace Resh.Server

open Resh.Go

/-!
# The output of a connection

Everything that is ever done to `c.out`: the methods append to it, in any goroutine and any order,
and `writeConn` takes from its front what the write call accepts.  Each of them holds the lock, so
a run is a list of them in the order in which they get it.

A run collects what was appended and, from the results of the write calls, what the socket has
accepted; neither is read off the connection.

* `writeConn_unlocked` — what `writeConn` does to the buffers of an unlocked connection;
* `output_conserved` — over every run, what was accepted and what waits is what was appended.
-/

/-- What holds the lock next. -/
inductive OutAct where
  | call (k : Call)
  /-- the rest of a `Write(p)` that found the connection open before -/
  | append (p : Bytes)
  | writeConn (wr : WriteResult)
  deriving DecidableEq, Repr

/-- A run on a connection: the texts that were appended, and the bytes that the write calls took. -/
structure OutRun where
  conn : Conn
  appended : List Bytes := []
  accepted : Bytes := []
  deriving DecidableEq, Repr

/-- One action.  A write call is given the whole output, and its result says how many of the first
    bytes it took. -/
def outStep (s : OutRun) : OutAct → Except Halt OutRun
  | .call k => do
    let c ← k.run s.conn
    .ok { s with conn := c, appended := s.appended ++ [k.added s.conn] }
  | .append p => do
    let c ← Redis.appendOut s.conn p
    .ok { s with conn := c, appended := s.appended ++ [p] }
  | .writeConn wr => do
    let c ← s.conn.writeConn wr
    .ok { s with conn := c, accepted := s.accepted ++ s.conn.out.take (wr.accepted s.conn.out) }

variable {c : Conn}

/-- **`writeConn`** on an unlocked connection returns; the output loses what was accepted, and
    nothing else. -/
theorem Conn.writeConn_unlocked (hlock : c.lock = false) (wr : WriteResult) :
    ∃ c', c.writeConn wr = .ok c' ∧ c'.lock = false ∧ c'.inp = c.inp ∧
      c'.sent = c.sent ++ c.out.take (wr.accepted c.out) ∧
      c'.out = c.out.drop (wr.accepted c.out) := by
  obtain ⟨c', hc', hw⟩ := c.writeConn_written hlock wr
  exact ⟨c', hc', hw.kept.1.trans hlock, hw.kept.2, hw.accepted⟩

/-- Every byte that was in the output of `c` or was appended is accepted or waits, in order. -/
structure Conserved (c : Conn) (s : OutRun) : Prop where
  unlocked : s.conn.lock = false
  bytes : s.accepted ++ s.conn.out = c.out ++ s.appended.flatten
  sent : s.conn.sent = c.sent ++ s.accepted

/-- What is appended goes behind everything else. -/
theorem Conserved.append {s : OutRun} (h : Conserved c s) (p : Bytes) :
    Conserved c { s with
      conn := { s.conn with out := s.conn.out ++ p }, appended := s.appended ++ [p] } := by
  refine ⟨h.unlocked, ?_, h.sent⟩
  rw [← List.append_assoc, h.bytes, List.flatten_append, List.flatten_singleton, List.append_assoc]

/-- One action returns and keeps the bytes together. -/
theorem outStep_conserved {s : OutRun} (h : Conserved c s) (a : OutAct) :
    ∃ s', outStep s a = .ok s' ∧ Conserved c s' := by
  cases a with
  | call k => exact ⟨_, by rw [outStep, k.run_eq h.unlocked]; rfl, h.append _⟩
  | append p => exact ⟨_, by rw [outStep, Redis.appendOut_eq h.unlocked]; rfl, h.append _⟩
  | writeConn wr =>
    obtain ⟨d, hd, hlock, -, hsent, hout⟩ := s.conn.writeConn_unlocked h.unlocked wr
    refine ⟨{ s with
      conn := d, accepted := s.accepted ++ s.conn.out.take (wr.accepted s.conn.out) },
      by rw [outStep, hd]; rfl, hlock, ?_, ?_⟩
    · rw [hout, List.append_assoc, List.take_append_drop, h.bytes]
    · rw [hsent, h.sent, List.append_assoc]

/-- **The output.**  Over every run of appends and writes on a connection, what the write calls have
    accepted followed by what waits is what was there and what was appended, in order; so what was
    accepted is a prefix of it, and it is what the connection has sent. -/
theorem output_conserved (hlock : c.lock = false) (acts : List OutAct) :
    ∃ s, acts.foldlM outStep { conn := c } = .ok s ∧
      s.accepted ++ s.conn.out = c.out ++ s.appended.flatten ∧
      s.accepted <+: c.out ++ s.appended.flatten ∧ s.conn.sent = c.sent ++ s.accepted := by
  have hrun : ∀ s, Conserved c s → ∃ s', acts.foldlM outStep s = .ok s' ∧ Conserved c s' := by
    induction acts with
    | nil => exact fun s h => ⟨s, rfl, h⟩
    | cons a acts ih =>
      intro s h
      obtain ⟨s₁, hstep, h₁⟩ := outStep_conserved h a
      obtain ⟨s', hacts, h'⟩ := ih s₁ h₁
      refine ⟨s', ?_, h'⟩
      rw [List.foldlM_cons, hstep]
      exact hacts
  obtain ⟨s, hacts, h⟩ := hrun { conn := c } ⟨hlock, by simp, by simp⟩
  exact ⟨s, hacts, h.bytes, h.bytes ▸ List.prefix_append .., h.sent⟩

/-- Two writers and a socket that takes a few bytes at a time, and fails in the end. -/
def shortWrites : List OutAct :=
  [.call (.writeSimpleString (ascii "OK")), .writeConn (.ok 2), .append (ascii "x"),
    .writeConn (.again 0), .call (.writeInt 255 16), .writeConn (.ok 3), .call (.write (ascii "y")),
    .writeConn (.error (ascii "broken pipe")), .call (.write (ascii "z"))]

theorem output_conserved_short_writes :
    ∃ s, shortWrites.foldlM outStep { conn := {} } = .ok s ∧
      s.accepted ++ s.conn.out = s.appended.flatten ∧ s.conn.closed = true ∧
      s.accepted = ascii "+OK\r\n" ∧ s.conn.out = ascii "xffy" := by
  obtain ⟨s, hrun, hbytes, -⟩ := output_conserved (c := {}) rfl shortWrites
  have heval : (shortWrites.foldlM outStep { conn := {} }).map
      (fun s => (s.conn.closed, s.accepted, s.conn.out))
        = .ok (true, ascii "+OK\r\n", ascii "xffy") := by
    decide +kernel
  rw [hrun] at heval
  simp only [Except.map, Except.ok.injEq, Prod.mk.injEq] at heval
  exact ⟨s, hrun, hbytes, heval⟩

end Resh.Server
