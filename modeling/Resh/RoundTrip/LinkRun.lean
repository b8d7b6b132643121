import Resh.RoundTrip.Link
import Resh.Server.Stream
import Resh.Simulation

namespace Resh.RoundTrip

open Resh.Go Resh.Client Resh.Server

/-!
# Runs of the client and the server

* `Link.abstract` — the link as a `Session` whose server answers with the replies of the database;
* `Link.Rel` — where the commands are between the events;
* `Link.step_simulates` — an event is a step of that session or goes unnoticed;
* `link_matching` — every callback gets the reply of the database to its own command;
* `link_quiescent` — a link without bytes on their way has answered everything, but for the first
  command of a client with a password.
-/

/-! ### The link as a session -/

namespace Link

/-- The session behind a link: what the server has written is on the wire of the client, and the
    replies are those of the database to the commands that were handled. -/
def abstract (db : Database) (done : List (List Arg)) (l : Link) : Session :=
  withServer l.client (db.replies (done.map textsOf)) (l.client.wire ++ l.server.out)

/-- **Between the events**: the server has handled the commands `done`, and the others are in its
    buffer, on their way or in the output of the client. -/
structure Rel (env : Env) (cfg : Client.Config) (l : Link) (b : Inbox)
    (done rest : List (List Arg)) : Prop where
  running : l.crashed = false
  shows : Shows env [] b l.server
  opened : b.closed = false
  commands : allCommands cfg l.client.issued = done ++ rest
  small : ∀ cmdArgs ∈ l.client.issued, Good env cfg (.exec cmdArgs)
  taken : ∀ cmdArgs ∈ done, Taken cmdArgs
  log : b.log = done.map fun cmdArgs => .redis (commandRequest cmdArgs)
  stream : l.client.sent = encodeCommands done ++ (b.pending ++ l.upstream)
  /-- a complete command waits in the buffer only behind `AUTH` -/
  waiting : ∀ cmdArgs cmds, rest = cmdArgs :: cmds →
    b.pending.length < (appendCommand cmdArgs []).length ∨
    done = [authArgs cfg.auth] ∧ cfg.auth ≠ []

section Events

variable {env : Env} {cfg : Client.Config} {db : Database} {l l' : Link} {b : Inbox}
  {done rest : List (List Arg)}

theorem rel_start (env : Env) (cfg : Client.Config) : Rel env cfg {} {} [] (allCommands cfg []) :=
  ⟨rfl, shows_start env, rfl, rfl, by simp, by simp, rfl, rfl, fun cmdArgs _ _ =>
    .inl (List.length_pos_iff.mpr (appendCommand_ne_nil cmdArgs))⟩

/-- What the server has not handled is the begin of the other commands. -/
theorem Rel.prefix_rest (h : Rel env cfg l b done rest) (hs : Running cfg (l.abstract db done)) :
    b.pending ++ l.upstream <+: encodeCommands rest := by
  have hstream := h.stream
  rcases hs with hnew | ⟨c, cs, ps, hinv⟩
  · have hsent : l.client.sent = [] := congrArg Session.sent hnew
    rw [hsent] at hstream
    rw [(List.append_eq_nil_iff.mp hstream.symm).2]
    exact List.nil_prefix
  · have hout : l.client.sent ++ c.out = encodeCommands (done ++ rest) := by
      rw [← h.commands, encodeCommands, ← commands_eq]
      exact hinv.output
    rw [hstream, encodeCommands_append, List.append_assoc] at hout
    exact ⟨c.out, List.append_cancel_left hout⟩

/-- Every command that was issued can be taken, and `AUTH` as well. -/
theorem Rel.taken_of_mem (h : Rel env cfg l b done rest) (hmax : env.requestMaxBytes < 2 ^ 31)
    (hissued : l.client.issued ≠ []) {cmdArgs : List Arg} (hmem : cmdArgs ∈ done ++ rest) :
    Taken cmdArgs ∧ ((appendCommand cmdArgs []).length : ℤ) ≤ env.requestMaxBytes := by
  rw [← h.commands, allCommands, List.mem_append] at hmem
  rcases hmem with hauth | hmem
  · obtain ⟨first, hfirst⟩ := List.exists_mem_of_ne_nil _ hissued
    have hlen := (h.small first hfirst).2
    split at hauth
    · cases hauth
    · rename_i hne
      rw [List.mem_singleton.mp hauth]
      rw [appendAuth_eq hne, List.length_append] at hlen
      have hle : ((appendCommand (authArgs cfg.auth) []).length : ℤ) ≤ env.requestMaxBytes := by
        unfold authArgs
        omega
      exact ⟨⟨by simp [authArgs], by omega⟩, hle⟩
  · obtain ⟨hn, hlen⟩ := h.small cmdArgs hmem
    rw [List.length_append] at hlen
    exact ⟨⟨hn, by omega⟩, by omega⟩

/-- **One command is outstanding**, or `AUTH` and the first one. -/
theorem Rel.outstanding (h : Rel env cfg l b done rest) (hmax : env.requestMaxBytes < 2 ^ 31)
    {c : Client.Conn} {cs ps : List Reply} (hinv : Session.Inv cfg (l.abstract db done) c cs ps)
    {cmdArgs : List Arg} {cmds : List (List Arg)} (hrest : rest = cmdArgs :: cmds) :
    Taken cmdArgs ∧ ((encodeCommands rest).length : ℤ) ≤ env.requestMaxBytes ∧
      (cmds = [] ∨ done = [] ∧ cmdArgs = authArgs cfg.auth ∧ cfg.auth ≠ []) := by
  have hreplies : done.length = cs.length + ps.length := by
    have := congrArg List.length hinv.replies
    rw [List.length_append] at this
    rw [← this]
    show _ = (db.replies (done.map textsOf)).length
    rw [Database.replies_length, List.length_map]
  have hcount : done.length + rest.length = Session.authCount cfg + l.client.issued.length := by
    rw [← List.length_append, ← h.commands, allCommands_length]
  have hlen : rest.length = cmds.length + 1 := by rw [hrest, List.length_cons]
  have hmem : cmdArgs ∈ done ++ rest := by simp [hrest]
  have hissued : (l.abstract db done).issued = l.client.issued := rfl
  have hphase := hinv.phase
  rw [hissued] at hphase
  -- in the pool nothing is outstanding; else one command, or AUTH and the first one
  cases hphase with
  | pooled _ htaken => omega
  | command _ htaken hpos =>
    have hne : l.client.issued ≠ [] := List.length_pos_iff.mp hpos
    obtain rfl : cmds = [] := List.length_eq_zero_iff.mp (by omega)
    obtain ⟨htake, hsize⟩ := h.taken_of_mem hmax hne hmem
    refine ⟨htake, ?_, .inl rfl⟩
    rw [hrest, encodeCommands_cons, encodeCommands_nil, List.append_nil]
    exact hsize
  | auth _ htaken hone hneed =>
    obtain ⟨first, hfirst⟩ := List.length_eq_one_iff.mp hone
    have hall : done ++ rest = [authArgs cfg.auth, first] := by
      rw [← h.commands, hfirst, allCommands, if_neg hneed]
      rfl
    obtain ⟨htake, -⟩ := h.taken_of_mem hmax (by simp [hfirst]) hmem
    refine ⟨htake, ?_, ?_⟩
    · have hsmall := (h.small first (by simp [hfirst])).2
      rw [appendAuth_eq hneed] at hsmall
      have htotal : (encodeCommands (done ++ rest)).length = (appendCommand (authArgs cfg.auth) []
          ++ appendCommand first []).length := by
        rw [hall, encodeCommands_cons, encodeCommands_cons, encodeCommands_nil, List.append_nil]
      rw [encodeCommands_append, List.length_append] at htotal
      unfold authArgs at htotal
      omega
    · cases done with
      | nil =>
        rw [List.nil_append, hrest] at hall
        exact .inr ⟨rfl, (List.cons.inj hall).1, hneed⟩
      | cons x xs =>
        rw [List.length_cons] at hcount
        have hauth : Session.authCount cfg = 1 := if_neg hneed
        exact .inl (List.length_eq_zero_iff.mp (by omega))

/-- The bytes for the client, after a turn of the server that writes `w`. -/
theorem wire_eq {old : Bytes} {b' : Inbox} {c c' : Server.Conn} (h : Shows env old b c)
    (h' : Shows env c.sent b' c') {w : Bytes}
    (hw : b'.written ++ b'.dropped = b.written ++ b.dropped ++ w) (wire : Bytes) :
    wire ++ c'.sent.drop c.sent.length ++ c'.out = wire ++ c.out ++ w := by
  obtain ⟨y, hy⟩ := h'.grown
  have hout : y ++ c'.out = c.out ++ w := by
    have heq := h'.output
    rw [hw, ← h.output, ← hy, List.append_assoc, List.append_assoc] at heq
    exact List.append_cancel_left heq
  rw [← hy, List.drop_left, List.append_assoc, hout, List.append_assoc]

/-- What the server makes of the next bytes: a reply to the next command, or nothing yet. -/
theorem Rel.read_eq (h : Rel env cfg l b done rest) (hmax : env.requestMaxBytes < 2 ^ 31)
    (hs : Running cfg (l.abstract db done)) {d up : Bytes} (hd : d ≠ [])
    (hup : d ++ up = l.upstream) : ∃ cmdArgs cmds, rest = cmdArgs :: cmds ∧ Taken cmdArgs ∧
      (cmds = [] ∨ done = [] ∧ cmdArgs = authArgs cfg.auth ∧ cfg.auth ≠ []) ∧
      ((b.pending ++ d).length < (appendCommand cmdArgs []).length ∧
          b.read env db.service d = some { b with pending := b.pending ++ d } ∨
        ∃ t, b.pending ++ d = appendCommand cmdArgs [] ++ t ∧
          b.read env db.service d
            = some (b.handle db.service (.redis (commandRequest cmdArgs)) (b.pending ++ d))) := by
  have hprefix : b.pending ++ d <+: encodeCommands rest := by
    refine List.IsPrefix.trans ⟨up, ?_⟩ (h.prefix_rest hs)
    rw [List.append_assoc, hup]
  obtain ⟨cmdArgs, cmds, hrest⟩ : ∃ cmdArgs cmds, rest = cmdArgs :: cmds := by
    refine List.exists_cons_of_ne_nil fun hnil => hd ?_
    rw [hnil, encodeCommands_nil] at hprefix
    exact (List.append_eq_nil_iff.mp (List.prefix_nil.mp hprefix)).2
  rcases hs with hnew | ⟨c, cs, ps, hinv⟩
  · -- before the first command nothing is on its way
    have hsent : l.client.sent = [] := congrArg Session.sent hnew
    have hstream := h.stream
    rw [hsent, ← hup] at hstream
    exact absurd (List.append_eq_nil_iff.mp (List.append_eq_nil_iff.mp
      (List.append_eq_nil_iff.mp hstream.symm).2).2).1 hd
  · obtain ⟨htake, hsize, hone⟩ := h.outstanding hmax hinv hrest
    have hfit : ¬ env.requestMaxBytes < ((b.pending ++ d).length : ℤ) := by
      have hle := hprefix.length_le
      omega
    refine ⟨cmdArgs, cmds, hrest, htake, hone, ?_⟩
    unfold Inbox.read
    simp only [if_neg hfit]
    rcases callOnce_commands env (hrest ▸ hprefix) htake with ⟨hlt, hcall⟩ | ⟨t, hsplit, hcall⟩
    · rw [hcall]
      exact .inl ⟨hlt, rfl⟩
    · rw [hcall]
      exact .inr ⟨t, hsplit, rfl⟩

/-- A turn of the server in which no command is handled goes unnoticed. -/
theorem Rel.unnoticed (h : Rel env cfg l b done rest) (db : Database)
    {c : Server.Conn} (pending up : Bytes)
    (hs : Shows env l.server.sent { b with pending := pending } c)
    (hstream : pending ++ up = b.pending ++ l.upstream)
    (hwaiting : ∀ cmdArgs cmds, rest = cmdArgs :: cmds →
      pending.length < (appendCommand cmdArgs []).length ∨
      done = [authArgs cfg.auth] ∧ cfg.auth ≠ []) : Rel env cfg { l with
        client := { l.client with wire := l.client.wire ++ c.sent.drop l.server.sent.length }
        upstream := up
        server := c } { b with pending := pending } done rest ∧
      l.abstract db done = Link.abstract db done { l with
        client := { l.client with wire := l.client.wire ++ c.sent.drop l.server.sent.length }
        upstream := up
        server := c } := by
  refine ⟨⟨h.running, { hs with grown := List.nil_prefix }, h.opened,
    h.commands, h.small, h.taken, h.log, ?_, hwaiting⟩, ?_⟩
  · show l.client.sent = encodeCommands done ++ (pending ++ up)
    rw [hstream]
    exact h.stream
  · have hwire := wire_eq h.shows hs (w := []) (by rw [List.append_nil]) l.client.wire
    rw [List.append_nil] at hwire
    show withServer _ _ _ = withServer _ _ _
    rw [hwire]
    rfl

/-- The answer of the database, in the log of the server. -/
theorem Rel.service_eq (h : Rel env cfg l b done rest) (db : Database) {cmdArgs : List Arg}
    (htake : Taken cmdArgs) :
    db.service (b.log ++ [.redis (commandRequest cmdArgs)])
      = ((db ((done ++ [cmdArgs]).map textsOf)).encode, true) := by
  have hargs : ∀ x : List Arg, Taken x → argsOf (.redis (commandRequest x)) = textsOf x :=
    fun x hx => argTexts_commandRequest hx
  have hdone : b.log.map argsOf = done.map textsOf := by
    rw [h.log, List.map_map]
    exact List.map_congr_left fun x hx => hargs x (h.taken x hx)
  rw [Database.service, List.map_append, List.map_append, hdone,
    List.map_singleton, List.map_singleton, hargs cmdArgs htake]

/-- The server has the next command in full. -/
theorem Rel.lt_complete (h : Rel env cfg l b done rest) {cmdArgs : List Arg}
    {cmds : List (List Arg)} (hrest : rest = cmdArgs :: cmds) {tail : Bytes}
    (htail : b.pending ++ l.upstream = appendCommand cmdArgs [] ++ tail) :
    done.length < Session.complete (Session.commands cfg l.client.issued) l.client.sent.length := by
  have htake : ((Session.commands cfg l.client.issued).take (done.length + 1)).flatten
      = encodeCommands (done ++ [cmdArgs]) := by
    rw [commands_eq, h.commands, hrest, ← List.map_take, List.append_cons,
      List.take_left' (by rw [List.length_append, List.length_singleton])]
    rfl
  refine le_complete ?_ ?_
  · rw [commands_eq, List.length_map, h.commands, hrest, List.length_append, List.length_cons]
    omega
  · rw [htake, h.stream, htail, encodeCommands_append, encodeCommands_cons, encodeCommands_nil]
    simp only [List.length_append, List.length_nil]
    omega

/-- A turn of the server in which a command is handled is an answer of the session. -/
theorem Rel.answered (h : Rel env cfg l b done rest) (hdb : db.Fits cfg)
    (hs : Running cfg (l.abstract db done)) {cmdArgs : List Arg} {cmds : List (List Arg)}
    (hrest : rest = cmdArgs :: cmds) (htake : Taken cmdArgs)
    (hone : cmds = [] ∨ done = [] ∧ cmdArgs = authArgs cfg.auth ∧ cfg.auth ≠ [])
    {c : Server.Conn} {d up tail : Bytes} (hup : d ++ up = l.upstream)
    (hsplit : b.pending ++ d = appendCommand cmdArgs [] ++ tail)
    (hc : Shows env l.server.sent
      (b.handle db.service (.redis (commandRequest cmdArgs)) (b.pending ++ d)) c) :
    ∃ r, Session.Orderly cfg (l.abstract db done) (.serve r) ∧
      Session.step cfg (l.abstract db done) (.serve r)
        = some (Link.abstract db (done ++ [cmdArgs]) { l with
        client := { l.client with wire := l.client.wire ++ c.sent.drop l.server.sent.length }
        upstream := up
        server := c }) ∧
      Rel env cfg { l with
        client := { l.client with wire := l.client.wire ++ c.sent.drop l.server.sent.length }
        upstream := up
        server := c } (b.handle db.service (.redis (commandRequest cmdArgs)) (b.pending ++ d))
        (done ++ [cmdArgs]) cmds := by
  have hservice := h.service_eq db htake
  have hread : Event.taken (.redis (commandRequest cmdArgs))
      = (appendCommand cmdArgs []).length := rfl
  -- the command is cut off the server's buffer, recorded and answered
  have hhandle : b.handle db.service (.redis (commandRequest cmdArgs)) (b.pending ++ d) = { b with
      pending := tail
      log := b.log ++ [.redis (commandRequest cmdArgs)]
      written := b.written ++ (db ((done ++ [cmdArgs]).map textsOf)).encode } := by
    rw [Inbox.handle, hservice, if_pos rfl, hread, hsplit, List.drop_left]
  -- what follows it is in the buffer or still on the way
  have htail : b.pending ++ l.upstream = appendCommand cmdArgs [] ++ (tail ++ up) := by
    rw [← hup, ← List.append_assoc, hsplit, List.append_assoc]
  have hreplies : (l.abstract db done).replies ++ [db ((done ++ [cmdArgs]).map textsOf)]
      = db.replies ((done ++ [cmdArgs]).map textsOf) := by
    rw [List.map_append, List.map_singleton, db.replies_snoc]
    rfl
  -- the answer is the session's `serve`, and the relation holds again behind it
  rw [hhandle] at hc ⊢
  have hdropped := (h.shows.ready h.opened).dropped
  refine ⟨db ((done ++ [cmdArgs]).map textsOf), ?_, ?_,
    ⟨h.running, { hc with grown := List.nil_prefix }, h.opened, ?_, h.small, ?_, ?_, ?_, ?_⟩⟩
  · show Session.Fits cfg _
    rw [hreplies]
    exact Database.fits_replies hdb _
  · have hup : (l.abstract db done).down = false := by
      rcases hs with hnew | ⟨c, cs, ps, hinv⟩
      · exact hnew ▸ rfl
      · exact hinv.up
    have hlt : (l.abstract db done).replies.length
        < Session.complete (Session.commands cfg (l.abstract db done).issued)
          (l.abstract db done).sent.length := by
      show (db.replies (done.map textsOf)).length < _
      rw [Database.replies_length, List.length_map]
      exact h.lt_complete hrest htail
    have hwire := wire_eq h.shows hc (w := (db ((done ++ [cmdArgs]).map textsOf)).encode)
      (by simp [hdropped]) l.client.wire
    unfold Session.step
    rw [if_neg (by simp [hup])]
    simp only [if_pos hlt, hreplies]
    show some (withServer _ _ _) = some (withServer _ _ _)
    rw [hwire]
    rfl
  · rw [h.commands, hrest, List.append_cons]
  · intro x hx
    rcases List.mem_append.mp hx with hold | hnew
    · exact h.taken x hold
    · exact List.mem_singleton.mp hnew ▸ htake
  · show b.log ++ _ = _
    rw [h.log, List.map_append, List.map_singleton]
  · show l.client.sent = encodeCommands (done ++ [cmdArgs]) ++ (tail ++ up)
    rw [h.stream, htail, encodeCommands_append, encodeCommands_cons,
      encodeCommands_nil, List.append_nil, List.append_assoc]
  · intro x xs hx
    rcases hone with rfl | ⟨rfl, rfl, hauth⟩
    · cases hx
    · exact .inr ⟨rfl, hauth⟩

/-- **A turn of the server** is an answer of the session, or goes unnoticed. -/
theorem Rel.serverTurn (h : Rel env cfg l b done rest) (hmax : env.requestMaxBytes < 2 ^ 31)
    (hdb : db.Fits cfg) (hs : Running cfg (l.abstract db done))
    {t : Turn} {up : Bytes} (ht : t.Sound) (hup : t.input ++ up = l.upstream) :
    ∃ as s', run (Session.step cfg) (l.abstract db done) as = some s' ∧
      Meets (Session.step cfg) (Session.Orderly cfg) (l.abstract db done) as ∧
      ∃ b' done' rest', Rel env cfg (l.serverTurn env db.handlers t up) b' done' rest' ∧
        s' = (l.serverTurn env db.handlers t up).abstract db done' := by
  have hold : Shows env l.server.sent b l.server := { h.shows with grown := List.prefix_rfl }
  rcases turn_shows db.handlers_follow hmax hold
    t with ⟨b', c', hturn, hstep, hs'⟩ | ⟨-, -, hd, hread⟩
  · have hlink : l.serverTurn env db.handlers t up = { l with
        client := { l.client with wire := l.client.wire ++ c'.sent.drop l.server.sent.length }
        upstream := up
        server := c' } := by
      unfold Link.serverTurn
      rw [hturn]
    rw [hlink]
    rcases hstep.eq_of_sound h.opened ht with ⟨hd, rfl⟩ | ⟨hd, hread⟩
    · -- a write event, or a read of nothing
      rw [hd, List.nil_append] at hup
      obtain ⟨hrel, habs⟩ := h.unnoticed db b'.pending up hs'
        (by rw [hup]) h.waiting
      exact ⟨[], _, rfl, trivial, b', done, rest, hrel, habs⟩
    · obtain ⟨cmdArgs, cmds, hrest, htake, hone, ⟨hlt, heq⟩ | ⟨tail, hsplit, heq⟩⟩ :=
        h.read_eq hmax hs hd hup
      · rw [heq, Option.some.injEq] at hread
        subst hread
        obtain ⟨hrel, habs⟩ := h.unnoticed db (b.pending ++ t.input) up hs'
          (by rw [List.append_assoc, hup])
          (fun x xs hx => .inl (by rw [hrest] at hx; rwa [← (List.cons.inj hx).1]))
        exact ⟨[], _, rfl, trivial, _, done, rest, hrel, habs⟩
      · rw [heq, Option.some.injEq] at hread
        subst hread
        obtain ⟨r, hfits, hserve, hrel⟩ := h.answered hdb hs hrest htake hone hup hsplit hs'
        exact ⟨[.serve r], _, run_single hserve, .single hfits, _, _, cmds, hrel, rfl⟩
  · obtain ⟨cmdArgs, cmds, -, -, -, ⟨-, heq⟩ | ⟨-, -, heq⟩⟩ := h.read_eq hmax hs hd hup
    · rw [heq] at hread; cases hread
    · rw [heq] at hread; cases hread

/-- What an event at the client leaves of the other side. -/
theorem Rel.client (h : Rel env cfg l b done rest) (s' : Session) (up : Bytes)
    (issued : List (List Arg)) (hissued : s'.issued = l.client.issued ++ issued)
    (hsmall : ∀ cmdArgs ∈ issued, Good env cfg (.exec cmdArgs))
    (hsent : s'.sent = l.client.sent ++ up)
    (hwaiting : ∀ cmdArgs cmds, rest ++ issued = cmdArgs :: cmds →
      b.pending.length < (appendCommand cmdArgs []).length ∨
      done = [authArgs cfg.auth] ∧ cfg.auth ≠ []) :
    Rel env cfg { l with client := s', upstream := l.upstream ++ up } b done (rest ++ issued) := by
  refine ⟨h.running, h.shows, h.opened, ?_, ?_, h.taken, h.log, ?_, hwaiting⟩
  · show allCommands cfg s'.issued = done ++ (rest ++ issued)
    rw [hissued, allCommands, ← List.append_assoc, ← allCommands, h.commands, List.append_assoc]
  · intro x hx
    have hx' : x ∈ s'.issued := hx
    rw [hissued, List.mem_append] at hx'
    exact hx'.elim (h.small x) (hsmall x)
  · show s'.sent = encodeCommands done ++ (b.pending ++ (l.upstream ++ up))
    rw [hsent, h.stream]
    simp only [List.append_assoc]

/-- **One event.** -/
theorem step_simulates (hmax : env.requestMaxBytes < 2 ^ 31) (hdb : db.Fits cfg) {a : Action}
    (h : Rel env cfg l b done rest) (hs : Running cfg (l.abstract db done)) (ha : Good env cfg a)
    (hstep : l.step env cfg db.handlers a = some l') :
    ∃ as s', run (Session.step cfg) (l.abstract db done) as = some s' ∧
      Meets (Session.step cfg) (Session.Orderly cfg) (l.abstract db done) as ∧
      ∃ b' done' rest', Rel env cfg l' b' done' rest' ∧ s' = l'.abstract db done' := by
  cases a with
  | exec cmdArgs =>
    obtain ⟨s₁, hs₁, rfl⟩ := Option.map_eq_some_iff.mp hstep
    obtain ⟨hsent, hwire⟩ := exec_frame hs₁
    have habs := exec_withServer cfg l.client (db.replies (done.map textsOf))
      (l.client.wire ++ l.server.out) cmdArgs
    rw [hs₁, Option.map_some] at habs
    have hissued :
        (withServer s₁ (db.replies (done.map textsOf)) (l.client.wire ++ l.server.out)).issued
        = (l.abstract db done).issued ++ [cmdArgs] := exec_issued hs habs
    have hrel := h.client s₁ [] [cmdArgs] hissued (by simpa using ha)
      (by rw [hsent, List.append_nil]) (by
      intro x xs hx
      cases hrest : rest with
      | nil =>
        -- nothing is on its way, the buffer of the server is empty
        have hpre := h.prefix_rest hs
        rw [hrest, encodeCommands_nil, List.prefix_nil] at hpre
        rw [(List.append_eq_nil_iff.mp hpre).1]
        exact .inl (List.length_pos_iff.mpr (appendCommand_ne_nil x))
      | cons y ys =>
        rw [hrest, List.cons_append] at hx
        exact (List.cons.inj hx).1 ▸ h.waiting y ys hrest)
    rw [List.append_nil] at hrel
    refine ⟨[.exec cmdArgs], _, run_single habs, .single trivial, b, done, _, hrel, ?_⟩
    show withServer _ _ _ = withServer _ _ _
    rw [hwire]
  | clientWrite wr =>
    obtain ⟨s₁, hs₁, rfl⟩ := Option.map_eq_some_iff.mp hstep
    obtain ⟨⟨y, hy⟩, hwire, hissued⟩ := write_frame hs₁
    have habs := write_withServer cfg l.client (db.replies (done.map textsOf))
      (l.client.wire ++ l.server.out) wr
    rw [hs₁, Option.map_some] at habs
    have hrel := h.client s₁ y [] (by rw [hissued, List.append_nil]) (by simp)
      hy.symm (by rw [List.append_nil]; exact h.waiting)
    rw [List.append_nil] at hrel
    have hdrop : s₁.sent.drop l.client.sent.length = y := by rw [← hy, List.drop_left]
    simp only [hdrop]
    refine ⟨[.write wr], _, run_single habs, .single ha, b, done, rest, hrel, ?_⟩
    show withServer _ _ _ = withServer _ _ _
    rw [hwire]
  | clientRead n len =>
    obtain ⟨s₁, hs₁, rfl⟩ := Option.map_eq_some_iff.mp hstep
    obtain ⟨hsent, hissued⟩ := read_frame hs₁
    have habs := read_withServer cfg l.client (db.replies (done.map textsOf)) l.server.out n len
    rw [hs₁, Option.map_some] at habs
    have hrel := h.client s₁ [] [] (by rw [hissued, List.append_nil]) (by simp)
      (by rw [hsent, List.append_nil]) (by rw [List.append_nil]; exact h.waiting)
    rw [List.append_nil, List.append_nil] at hrel
    exact ⟨[.read (min n l.client.wire.length) len], _, run_single habs,
      .single ha, b, done, rest, hrel, rfl⟩
  | serverRead n wr =>
    simp only [Link.step, h.running, Bool.false_eq_true, if_false, Option.some.injEq] at hstep
    subst hstep
    refine h.serverTurn hmax hdb hs ?_ ?_
    · split
      · trivial
      · rename_i hd
        exact ⟨hd, ha⟩
    · split
      · rename_i hd
        rw [hd]
        rfl
      · exact List.prefix_iff_eq_append.mp ( List.take_prefix _ _)
  | serverWrite wr =>
    simp only [Link.step, h.running, Bool.false_eq_true, if_false, Option.some.injEq] at hstep
    subst hstep
    exact h.serverTurn hmax hdb hs ha rfl

/-- **Every run** of the link is a run of the session behind it. -/
theorem run_simulates (hmax : env.requestMaxBytes < 2 ^ 31) (hmaxC : cfg.responseMaxBytes < 2 ^ 63)
    (hdb : db.Fits cfg) {acts : List Action} (hgood : ∀ a ∈ acts, Good env cfg a)
    (hr : run (Link.step env cfg db.handlers) {} acts = some l) :
    ∃ b done rest, Rel env cfg l b done rest ∧ Running cfg (l.abstract db done) := by
  obtain ⟨-, s', -, -, ⟨b, done, rest, hrel, rfl⟩, hs⟩ := simulation
    (R := fun l s => ∃ b done rest, Rel env cfg l b done rest ∧ s = l.abstract db done)
    (P := Running cfg) (fun s a s' hs ha hstep => step_running hmaxC hs ha hstep)
    (fun l a l' s ⟨b, done, rest, hrel, hs⟩ hP ha hstep => by
      subst hs
      exact step_simulates hmax hdb hrel hP ha hstep)
    ⟨{}, [], _, rel_start env cfg, rfl⟩ (.inl rfl) hgood hr
  exact ⟨b, done, rest, hrel, hs⟩

/-- The commands that were handled are those that were answered. -/
theorem done_length {c : Client.Conn} {cs ps : List Reply}
    (hinv : Session.Inv cfg (l.abstract db done) c cs ps) :
    done.length = cs.length + ps.length := by
  rw [← List.length_append, ← hinv.replies]
  show _ = (db.replies (done.map textsOf)).length
  rw [Database.replies_length, List.length_map]

end Events

/-- Nothing is on its way, and neither side has anything to write. -/
structure Quiet (l : Link) : Prop where
  upstream : l.upstream = []
  output : ∀ c, l.client.conn = some c → c.out = []
  wire : l.client.wire = []
  written : l.server.out = []

end Link

/-- **The replies of the database.**  In every run of the two connections, in any order of the
    events and with any cuts: neither side closes or panics; the server hands the commands of the
    client to the database, in order and with their own arguments, and the client calls each
    callback once, with the reply to its own command. -/
theorem link_matching (env : Env) (hmax : env.requestMaxBytes < 2 ^ 31) (cfg : Client.Config)
    (hmaxC : cfg.responseMaxBytes < 2 ^ 63) (db : Database) (hdb : db.Fits cfg)
    (acts : List Link.Action) (hgood : ∀ a ∈ acts, Link.Good env cfg a) (l : Link)
    (hr : run (Link.step env cfg db.handlers) {} acts = some l) :
    l.crashed = false ∧ l.client.down = false ∧ l.server.closed = false ∧
      ∃ done rest taken pending, allCommands cfg l.client.issued = done ++ rest ∧
        l.server.log = done.map (fun cmdArgs => .redis (commandRequest cmdArgs)) ∧
        (∀ cmdArgs ∈ done, argTexts (commandRequest cmdArgs) = textsOf cmdArgs) ∧
        db.replies (done.map textsOf) = taken ++ pending ∧
        l.client.log = Session.expected cfg taken ∧
        (l.client.pooled = true → rest = [] ∧ pending = []) := by
  obtain ⟨b, done, rest, h, hs⟩ := Link.run_simulates hmax hmaxC hdb hgood hr
  have hready := h.shows.ready h.opened
  have hlog := hready.log.trans h.log
  have hargs := fun cmdArgs hmem => argTexts_commandRequest (h.taken cmdArgs hmem)
  have hclosed := h.shows.closed.trans h.opened
  rcases hs with hnew | ⟨c, cs, ps, hinv⟩
  · have hreplies : db.replies (done.map textsOf) = [] := congrArg Session.replies hnew
    have hpooled : l.client.pooled = false := congrArg Session.pooled hnew
    exact ⟨h.running, congrArg Session.down hnew, hclosed, done,
      rest, [], [], h.commands, hlog, hargs,
      hreplies, (congrArg Session.log hnew).trans (by simp [Session.expected]), fun hp => absurd hp
        (by simp [hpooled])⟩
  · refine ⟨h.running, hinv.up, hclosed, done, rest, cs, ps, h.commands,
      hlog, hargs, hinv.replies, hinv.log, fun hp => ?_⟩
    have hdone := Link.done_length hinv
    have hcount : done.length + rest.length = Session.authCount cfg + l.client.issued.length := by
      rw [← List.length_append, ← h.commands, allCommands_length]
    have htaken : cs.length = Session.authCount cfg + l.client.issued.length := by
      cases hinv.phase with
      | pooled _ htaken => exact htaken
      | auth hp' => exact absurd (hp'.symm.trans hp) (by simp)
      | command hp' => exact absurd (hp'.symm.trans hp) (by simp)
    exact ⟨List.length_eq_zero_iff.mp (by omega), List.length_eq_zero_iff.mp (by omega)⟩

/-- **No deadlock**, but one.  When nothing is on its way and neither side has anything to write,
    every command was answered and the connection is back in the pool, or the client has a password
    and its first command lies complete in the buffer of the server, behind the `AUTH` that was
    handled. -/
theorem link_quiescent (env : Env) (hmax : env.requestMaxBytes < 2 ^ 31) (cfg : Client.Config)
    (hmaxC : cfg.responseMaxBytes < 2 ^ 63) (db : Database) (hdb : db.Fits cfg)
    (acts : List Link.Action) (hgood : ∀ a ∈ acts, Link.Good env cfg a) (l : Link)
    (hr : run (Link.step env cfg db.handlers) {} acts = some l) (hquiet : l.Quiet) :
    l.client.issued = [] ∨
      (l.client.pooled = true ∧
        l.client.log = Session.expected cfg
        (db.replies ((allCommands cfg l.client.issued).map textsOf))) ∨
      (cfg.auth ≠ [] ∧ ∃ cmdArgs, l.client.issued = [cmdArgs] ∧
        l.server.log = [.redis (commandRequest (authArgs cfg.auth))] ∧
        l.server.inp = appendCommand cmdArgs []) := by
  obtain ⟨b, done, rest, h, hs⟩ := Link.run_simulates hmax hmaxC hdb hgood hr
  rcases hs with hnew | ⟨c, cs, ps, hinv⟩
  · exact .inl (congrArg Session.issued hnew)
  have hwire : (l.abstract db done).wire = [] := by
    show l.client.wire ++ l.server.out = []
    rw [hquiet.wire, hquiet.written]
    rfl
  obtain rfl : ps = [] := hinv.pending_eq_nil hmaxC hwire
  have hdone : done.length = cs.length := Link.done_length hinv
  have hreplies : db.replies (done.map textsOf) = cs := hinv.replies.trans (List.append_nil cs)
  have hcount : done.length + rest.length = Session.authCount cfg + l.client.issued.length := by
    rw [← List.length_append, ← h.commands, allCommands_length]
  -- what was not handled is in the buffer of the server, all of it
  have hpending : b.pending = encodeCommands rest := by
    have hout : l.client.sent ++ c.out = encodeCommands (done ++ rest) := by
      rw [← h.commands, encodeCommands, ← commands_eq]
      exact hinv.output
    rw [hquiet.output c hinv.conn, List.append_nil, h.stream, hquiet.upstream, List.append_nil,
      encodeCommands_append] at hout
    exact List.append_cancel_left hout
  have hlong : ∀ cmdArgs cmds, rest = cmdArgs :: cmds → done = [authArgs cfg.auth] ∧
      cfg.auth ≠ [] := by
    intro cmdArgs cmds hrest
    rcases h.waiting cmdArgs cmds hrest with hlt | hauth
    · rw [hpending, hrest, encodeCommands_cons, List.length_append] at hlt
      omega
    · exact hauth
  right
  cases hrest : rest with
  | nil =>
    have hall : allCommands cfg l.client.issued = done := by rw [h.commands, hrest, List.append_nil]
    rw [hrest, List.length_nil] at hcount
    left
    rw [hall, hreplies]
    refine ⟨?_, hinv.log⟩
    have hissued : (l.abstract db done).issued = l.client.issued := rfl
    have hphase := hinv.phase
    rw [hissued] at hphase
    cases hphase with
    | pooled hp => exact hp
    | auth _ htaken hone =>
      rw [htaken, List.length_nil] at hdone
      omega
    | command _ htaken => omega
  | cons cmdArgs cmds =>
    obtain ⟨hdone', hauth⟩ := hlong cmdArgs cmds hrest
    right
    refine ⟨hauth, cmdArgs, ?_⟩
    have hissued : l.client.issued = cmdArgs :: cmds := by
      have hall := h.commands
      rw [hdone', hrest, allCommands, if_neg hauth] at hall
      exact List.append_cancel_left hall
    obtain ⟨htake, -, hone⟩ := h.outstanding hmax hinv hrest
    obtain rfl : cmds = [] := hone.resolve_right fun h0 => by rw [hdone'] at h0; cases h0.1
    have hready := h.shows.ready h.opened
    refine ⟨hissued, ?_, ?_⟩
    · rw [hready.log, h.log, hdone']
      rfl
    · have hcommand : b.pending = appendCommand cmdArgs [] := by
        rw [hpending, hrest, encodeCommands_cons, encodeCommands_nil, List.append_nil]
      rw [hready.inp_eq (hcommand ▸ callOnce_command env htake.1 htake.2), hcommand]

/-- A database with one key. -/
def oneKey : Database := fun cmds =>
  if cmds.getLast? = some [ascii "GET", ascii "k"] then .bulk (ascii "v\r\n") else .null

/-- A client with a password. -/
def withPassword : Client.Config := { auth := ascii "pw", poolSize := 1 }

theorem oneKey_fits : oneKey.Fits withPassword := by
  have hle : ∀ h, (oneKey h).encode.length ≤ 9 := by
    intro h
    unfold oneKey
    split
    · decide
    · decide
  have hmax : 18 ≤ withPassword.responseMaxBytes := by decide
  refine ⟨fun h => ?_, fun _ h h' => ?_⟩
  · have h₁ := hle h
    omega
  · have h₁ := hle h
    have h₂ := hle h'
    omega

/-- A client with a password; the cuts are within `AUTH`, between it and the command, and in the
    reply. -/
def linkActs : List Link.Action :=
  [.exec [.string (ascii "GET"), .string (ascii "k")], .clientWrite (.ok 20), .serverRead 9 (.ok 9),
    .serverRead 99 (.ok 9), .clientWrite (.again 30), .serverRead 20 (.ok 2),
    .clientRead 1 1, .serverWrite (.ok 4), .clientRead 99 1, .serverRead 99 (.again 3),
    .serverWrite (.ok 99), .clientRead 5 1, .clientRead 99 1]

theorem link_matching_cut :
    ∃ l, run (Link.step .plain withPassword oneKey.handlers) {} linkActs = some l ∧
      l.client.log = Session.expected withPassword [.null, .bulk (ascii "v\r\n")] := by
  obtain ⟨l, hr, hpooled, hissued⟩ :
      ∃ l ∈ run (Link.step .plain withPassword oneKey.handlers) {} linkActs,
      l.client.pooled = true ∧ l.client.issued.map textsOf = [[ascii "GET", ascii "k"]] := by
    decide +kernel
  obtain ⟨-, -, -, done, rest, taken, pending, hall, -, -, hreplies, hlog, hend⟩ :=
    link_matching .plain (by decide) withPassword (by decide) oneKey oneKey_fits linkActs
      (by decide) l hr
  obtain ⟨rfl, rfl⟩ := hend hpooled
  rw [List.append_nil] at hall hreplies
  rw [← hall, allCommands, List.map_append, hissued] at hreplies
  exact ⟨l, hr, by rw [hlog, ← hreplies]; rfl⟩

/-- The same client, with both commands in one read: the server does not come to the second one. -/
def stuckActs : List Link.Action :=
  [.exec [.string (ascii "GET"), .string (ascii "k")], .clientWrite (.ok 99),
    .serverRead 99 (.ok 99), .clientRead 99 1]

theorem link_quiescent_stuck :
    ∃ l, run (Link.step .plain withPassword oneKey.handlers) {} stuckActs = some l ∧
      l.server.log = [.redis (commandRequest (authArgs (ascii "pw")))] ∧
      l.server.inp = appendCommand [.string (ascii "GET"), .string (ascii "k")] [] := by
  obtain ⟨l, hr, hpooled, hissued, hup, hout, hwire, hwritten⟩ :
      ∃ l ∈ run (Link.step .plain withPassword oneKey.handlers) {} stuckActs,
        l.client.pooled = false ∧ l.client.issued = [[.string (ascii "GET"), .string (ascii "k")]] ∧
        l.upstream = [] ∧ l.client.conn.map (·.out) = some [] ∧ l.client.wire = [] ∧
        l.server.out = [] := by decide +kernel
  rcases link_quiescent .plain (by decide) withPassword (by decide)
    oneKey oneKey_fits stuckActs (by decide)
    l hr ⟨hup, fun c hc => by rw [hc] at hout; exact Option.some.inj hout, hwire, hwritten⟩ with
    hnil | ⟨hp, -⟩ | ⟨-, cmdArgs, hone, hlog, hinp⟩
  · rw [hnil] at hissued
    cases hissued
  · rw [hpooled] at hp
    cases hp
  · rw [hissued, List.singleton_inj] at hone
    exact ⟨l, hr, hlog, hone ▸ hinp⟩

end Resh.RoundTrip
