import Resh.Client.Command
import Resh.Server.Requests

namespace Resh.RoundTrip

open Resh.Go Resh.Client Resh.Server

/-!
# Commands from the client to the server

The encoder of `Client.Exec` and the parser of the server are separate pieces of code.  The
encoding is a count and one group per argument (`appendCommand_eq`), so the walk of the parser
goes along the argument list, whatever bytes the arguments hold:

* `exec_round_trip` — the server reads back the command, whatever follows it, and waits at every
  proper cut of it.
-/

/-- The group of an argument. -/
def groupOf (a : Arg) : Bytes × Bytes := (formatInt a.text.length, a.text)

/-- The loop of `appendCommand` writes one group for each argument. -/
theorem foldl_appendArg (cmdArgs : List Arg) (out : Bytes) :
    cmdArgs.foldl appendArg out = out ++ (cmdArgs.map groupOf).flatMap encodeGroup := by
  induction cmdArgs generalizing out with
  | nil => simp
  | cons a as ih => rw [List.foldl_cons, ih]; simp [appendArg, encodeGroup, groupOf]

/-- **The encoding of a command** is a request in the form of the protocol. -/
theorem appendCommand_eq (cmdArgs : List Arg) (out : Bytes) :
    appendCommand cmdArgs out
      = out ++ encodeRequest (formatInt cmdArgs.length) (cmdArgs.map groupOf) := by
  rw [appendCommand, foldl_appendArg, encodeRequest]
  simp

/-- The length of each argument is written in front of it. -/
theorem numeral_groupOf {cmdArgs : List Arg} {g : Bytes × Bytes} (hg : g ∈ cmdArgs.map groupOf) :
    Numeral g.1 g.2.length := by
  obtain ⟨a, -, rfl⟩ := List.mem_map.mp hg
  exact numeral_formatInt a.text.length

/-- The request the server makes of a command. -/
def commandRequest (cmdArgs : List Arg) : Redis :=
  requestOf (appendCommand cmdArgs []) cmdArgs.length
    (offsets ((formatInt cmdArgs.length).length + 3) (cmdArgs.map groupOf))
    (appendCommand cmdArgs []).length

section Command

variable {cmdArgs : List Arg}

/-- The parser walks over the arguments of a command to its end, and counts them. -/
theorem walk_command (hn : cmdArgs.length ≤ 65535)
    (hlen : (appendCommand cmdArgs []).length < 2 ^ 32) :
    Walk (appendCommand cmdArgs []) cmdArgs.length ((formatInt cmdArgs.length).length + 3)
      (offsets ((formatInt cmdArgs.length).length + 3) (cmdArgs.map groupOf))
      (appendCommand cmdArgs []).length := by
  have henc := appendCommand_eq cmdArgs []
  rw [List.nil_append] at henc
  rw [henc] at hlen ⊢
  have hwalk := walk_of_groups [] (numeral_formatInt cmdArgs.length) (by omega)
    (by rw [List.length_map]) (fun g hg => numeral_groupOf hg) hlen
  rwa [List.append_nil] at hwalk

/-- The command alone is accepted. -/
theorem callOnce_command (env : Env) (hn : cmdArgs.length ≤ 65535)
    (hlen : (appendCommand cmdArgs []).length < 2 ^ 32) :
    callOnce env (appendCommand cmdArgs []) = .redis (commandRequest cmdArgs) :=
  (callOnce_eq_redis_iff env hlen).mpr ⟨_, _, _, _, walk_command hn hlen, by
    rw [offsets_length, List.length_map]; omega, rfl⟩

/-- `Get` returns the text of each argument, whatever stands behind the request in the buffer. -/
theorem commandRequest_get (hn : cmdArgs.length ≤ 65535)
    (hlen : (appendCommand cmdArgs []).length < 2 ^ 32) {i : ℕ}
    {a : Arg} (ha : cmdArgs[i]? = some a)
    (behind : Bytes) : (commandRequest cmdArgs).get behind i = some a.text := by
  have henc := appendCommand_eq cmdArgs []
  have hdrop : (appendCommand cmdArgs []).drop ((formatInt cmdArgs.length).length + 3)
      = (cmdArgs.map groupOf).flatMap encodeGroup ++ [] := by
    rw [henc, List.nil_append, encodeRequest, List.append_nil, List.drop_left' (by simp)]
  have hg : (cmdArgs.map groupOf)[i]? = some (groupOf a) := by rw [List.getElem?_map, ha]; rfl
  exact (walk_command hn hlen).get_of_groups hlen hdrop hg behind

/-- At a proper cut of the command the parser waits: a decisive outcome there would be the
    request of the whole command, which consumes more. -/
theorem callOnce_command_cut (env : Env) (hn : cmdArgs.length ≤ 65535)
    (hlen : (appendCommand cmdArgs []).length < 2 ^ 32) {p : Bytes}
    (hp : p <+: appendCommand cmdArgs []) (hne : p ≠ appendCommand cmdArgs []) :
    callOnce env p = .more := by
  obtain ⟨t, ht⟩ := hp
  have hle : p.length ≤ (appendCommand cmdArgs []).length := by
    rw [← ht, List.length_append]; omega
  by_contra hmore
  have hacc := callOnce_append env hmore t
  rw [ht, callOnce_command env hn hlen] at hacc
  obtain ⟨num, w, gs, q, hwalk, -, hr⟩ := (callOnce_eq_redis_iff env (by omega)).mp hacc.symm
  have hread : (appendCommand cmdArgs []).length = q := congrArg Redis.read hr
  have hq := hwalk.end_le
  have htnil : t = [] := by
    have := congrArg List.length ht
    rw [List.length_append] at this
    exact List.length_eq_zero_iff.mp (by omega)
  exact hne (by rw [← ht, htnil, List.append_nil])

end Command

/-- **Command round trip.** -/
theorem exec_round_trip (env : Env) (cmdArgs : List Arg) (t : Bytes) (hn : cmdArgs.length ≤ 65535)
    (hmax : env.requestMaxBytes < 2 ^ 32)
    (hlen : ((appendCommand cmdArgs []).length : ℤ) ≤ env.requestMaxBytes) :
    (∃ r, callOnce env (appendCommand cmdArgs [] ++ t) = .redis r ∧ r.len = cmdArgs.length ∧
      r.read = (appendCommand cmdArgs []).length ∧ r.data = appendCommand cmdArgs [] ∧
      ∀ (i : ℕ) (a : Arg) (behind : Bytes), cmdArgs[i]? = some a → r.get behind i = some a.text ∧
        ∀ v, a.value? = some v → InInt64 v → r.int64 behind i = some (v, none)) ∧
      ∀ p, p <+: appendCommand cmdArgs [] → p ≠ appendCommand cmdArgs [] →
      callOnce env p = .more := by
  have hlen' : (appendCommand cmdArgs []).length < 2 ^ 32 := by omega
  have hacc := callOnce_command env hn hlen'
  refine ⟨⟨commandRequest cmdArgs, ?_, ?_, rfl, ?_, fun i a behind ha => ?_⟩, fun p hp hne => ?_⟩
  · rw [callOnce_append env (by rw [hacc]; simp), hacc]
  · rw [Redis.len, commandRequest, requestOf, List.length_map, offsets_length, List.length_map]
  · rw [commandRequest, requestOf, List.take_length]
  · have hget := commandRequest_get hn hlen' ha behind
    refine ⟨hget, fun v hv hrange => ?_⟩
    have htext : a.text = formatInt v := by
      cases a with
      | int u => rw [Arg.value?, Option.some.injEq] at hv; rw [Arg.text, hv]
      | int64 u => rw [Arg.value?, Option.some.injEq] at hv; rw [Arg.text, hv]
      | bytes b => exact absurd hv (by simp [Arg.value?])
      | string s => exact absurd hv (by simp [Arg.value?])
      | other s => exact absurd hv (by simp [Arg.value?])
    rw [Redis.int64, Redis.str, hget, htext, Option.map_some, parseInt_formatInt hrange]
  · exact callOnce_command_cut env hn hlen' hp hne

/-- `SET` with a binary value that looks like protocol, an empty one and a number. -/
theorem exec_round_trip_set :
    callOnce .plain
    (appendCommand [.string (ascii "SET"), .bytes (ascii "*1\r\n$"), .bytes [], .int (-7)] []
      ++ ascii "*1") ≠ .more := by
  obtain ⟨⟨r, h, -⟩, -⟩ := exec_round_trip .plain
    [.string (ascii "SET"), .bytes (ascii "*1\r\n$"), .bytes [], .int (-7)] (ascii "*1")
    (by decide) (by decide) (by decide)
  rw [h]
  simp

end Resh.RoundTrip
