import Resh.Server.Effects
import Resh.Server.ListenerConn

namespace Resh.Server

open Resh.Go Resh.Incremental

/-!
# server.go — a callback of the event loop

`Resh.Server.Listener` has the callback of `Poll.Wait` in single steps and leaves to the action what
the parser and the handlers make of the input; `Resh.Server.Conn` has the functions that the
callback calls, down to the bytes.  Here the two are put together: the functions decide which steps
the listener takes.

* `Conn.callback` — what the callback does with a connection;
* `Conn.callbackActs` — the steps that the listener takes meanwhile;
* `callback_reaches` — the steps can be taken, they end at `ln.Timeout > 0`, and the listener shows
  the result of the functions.
-/

/-- What the system calls of a callback return: the write of a write event, the read, and the write
    behind a handler. -/
structure Returns where
  first : WriteResult
  rd : ReadResult
  wr : WriteResult
  deriving DecidableEq, Repr

namespace Conn

/-- `ev&WRITE > 0`. -/
def onWrite (ev : Flags) (wr : WriteResult) (c : Conn) : Except Halt Conn :=
  if ev.write then c.writeConn wr else .ok c

/-- `ev&READ > 0`. -/
def onRead (env : Env) (H : Handlers) (ev : Flags) (rd : ReadResult) (wr : WriteResult) (c : Conn) :
    Except Halt Conn :=
  if ev.read then c.readConn env H rd wr else .ok c

/-- `ev&EOF > 0`. -/
def onEof (ev : Flags) (c : Conn) : Conn :=
  if ev.eof then c.closeConnWithError (ascii "eof") none else c

/-- The callback for a connection that was found. -/
def callback (env : Env) (H : Handlers) (ev : Flags) (x : Returns) (c : Conn) :
    Except Halt Conn := do
  let c ← c.onWrite ev x.first
  let c ← c.onRead env H ev x.rd x.wr
  .ok (c.onEof ev)

/-! ### The steps of the listener -/

/-- The steps of `writeConn`. -/
def writeActs (wr : WriteResult) (c : Conn) : List Act :=
  if c.out = [] then [.write wr, .mod]
  else match wr with
    | .error _ => [.write wr]
    | .again _ => [.write wr, .mod]
    | .ok room =>
      if room < c.out.length then [.write wr, .mod]
      else if c.ws.any (·.closed) then [.write wr, .drained]
      else [.write wr, .drained, .mod]

/-- What a handler has done to the connection that the listener sees. -/
def userActs (id : ℕ) (c c' : Conn) : List Act :=
  (if c.ws.isNone ∧ c'.ws.isSome then [.user (.upgrade id)] else []) ++
    (.user (.append none id (c'.out.drop c.out.length)) ::
      if c'.ws.any (·.closed) then [.user (.wsClose id)] else [])

/-- The steps of the end of `readConn`. -/
def finishActs (wr : WriteResult) (c : Conn) : List Act :=
  .finish :: if c.out = [] then [] else c.writeActs wr

/-- The steps behind a handler that was called for `c` and has left `r`. -/
def answerActs (id : ℕ) (wr : WriteResult) (c : Conn) (r : Conn × Bool) : List Act :=
  c.userActs id r.1 ++ if r.2 then .handled .done :: r.1.finishActs wr else [.handled .close]

/-- The steps behind a request that is not a frame. -/
def requestActs (H : Handlers) (id : ℕ) (wr : WriteResult) (c : Conn) : List Act :=
  match c.srs.http, c.srs.redis with
  | some req, _ =>
    match c.truncateInputBuffer (req.bodyLen + req.hdrLen) with
    | .ok (c, _) => c.answerActs id wr (H.onHTTP req { c with log := c.log ++ [.http req] })
    | .error _ => []
  | none, some req =>
    match c.truncateInputBuffer req.read with
    | .ok (c, _) => c.answerActs id wr (H.onRedis req { c with log := c.log ++ [.redis req] })
    | .error _ => []
  | none, none => []

/-- The steps behind a frame that was handled for `c` and has left `c'`; `again` are those of the
    next round. -/
def frameActs (id : ℕ) (wr : WriteResult) (c c' : Conn) (go : Bool)
    (remain : ℕ) (again : List Act) : List Act :=
  if go then
    .parse .complete :: (c.userActs id c' ++
      if remain > 0 then .handled .again :: again else .handled .done :: c'.finishActs wr)
  else [.parse .complete, .handled .close]

/-- The steps of `PARSE_NEXT`. -/
def parseActs (env : Env) (H : Handlers) (id : ℕ) (wr : WriteResult) : ℕ → Bytes → Conn → List Act
  | 0, _, _ => []
  | n + 1, buf, c =>
    let inp := c.inp ++ buf
    if env.requestMaxBytes < inp.length then [.parse .oversize]
    else match c.ws with
      | some ws =>
        if ws.closed then [.parse .more]
        else match parseFrame inp with
          | .more => [.parse .more]
          | .ok (req, inp) =>
            match ({ c with lock := false, inp := inp,
                            ws := some { ws with parsedFrame := req } } : Conn)
                |>.truncateInputBuffer req.len with
            | .error _ => []
            | .ok (c, remain) =>
              match onWebsocket env H req c with
              | .error _ => []
              | .ok (c', go) => frameActs id wr c c' go remain (parseActs env H id wr n [] c')
          | _ => []
      | none =>
        let call := process env c.srs inp
        match call.ret with
        | .more => [.parse .more]
        | .fail _ => [.parse .error]
        | .panic => []
        | .ok () =>
          .parse .complete :: requestActs H id wr
            { c with lock := false, srs := call.state, inp := call.buf }

/-- The steps of `readConn`. -/
def readActs (env : Env) (H : Handlers) (id : ℕ) (rd : ReadResult) (wr : WriteResult) (c : Conn) :
    List Act :=
  .read rd :: match rd with
    | .data [] => []
    | .again => [.mod]
    | .error _ => []
    | .data d => parseActs env H id wr (c.inp.length + d.length + 1) d c

/-- The steps of the callback. -/
def callbackActs (env : Env) (H : Handlers) (id : ℕ) (ev : Flags) (x : Returns) (c : Conn) :
    List Act :=
  (if ev.write then c.writeActs x.first else []) ++
    (match c.onWrite ev x.first with
      | .ok c => if ev.read then c.readActs env H id x.rd x.wr else []
      | .error _ => []) ++ [.eof]

/-! ### Handlers -/

/-- What a handler may do to its connection: write, upgrade it, and close the websocket. -/
structure Extends (c c' : Conn) : Prop where
  closed : c'.closed = c.closed
  out : c.out <+: c'.out
  ws : ∀ w, c.ws = some w → ∃ w', c'.ws = some w' ∧ (w.closed = true → w'.closed = true)

theorem Extends.refl (c : Conn) : c.Extends c := ⟨rfl, List.prefix_rfl, fun w hw => ⟨w, hw, id⟩⟩

theorem Extends.trans {c d e : Conn} (h : c.Extends d) (h' : d.Extends e) : c.Extends e := by
  refine ⟨h'.closed.trans h.closed, h.out.trans h'.out, fun w hw => ?_⟩
  obtain ⟨v, hv, hclosed⟩ := h.ws w hw
  obtain ⟨u, hu, hclosed'⟩ := h'.ws v hv
  exact ⟨u, hu, hclosed' ∘ hclosed⟩

end Conn

/-- Handlers that keep to their connection. -/
structure Handlers.Extend (H : Handlers) : Prop where
  onWSData : ∀ c m, Conn.Extends c (H.onWSData c m)
  onHTTP : ∀ r c, c.ws = none → Conn.Extends c (H.onHTTP r c).1
  onRedis : ∀ r c, c.ws = none → Conn.Extends c (H.onRedis r c).1

/-- A frame that does not close the connection does what a handler may do. -/
theorem onWebsocket_extends {env : Env} {H : Handlers} (hH : H.Extend) {req : WsFrame} {c c' : Conn}
    (hok : Conn.onWebsocket env H req c = .ok (c', true)) : c.Extends c' := by
  have hdata : ∀ (d : Conn) (m : Bytes), d.Extends (Conn.onWSData H d m) := by
    intro d m
    have hcall := hH.onWSData { d with log := d.log ++ [.wsData m] } m
    exact ⟨hcall.closed, hcall.out, hcall.ws⟩
  obtain ⟨ws, hws, h⟩ := Conn.handles_of_onWebsocket hok
  have hcont : ∀ cont, c.Extends (c.withCont ws cont) := by
    refine fun cont => ⟨rfl, List.prefix_rfl, fun w hw => ?_⟩
    obtain rfl := Option.some.inj (hws.symm.trans hw)
    exact ⟨_, rfl, id⟩
  cases h with
  | grows => exact hcont _
  | finishes _ _ _ _ hd =>
    subst hd
    refine ((hcont _).trans (hdata _ _)).trans ⟨rfl, List.prefix_rfl, fun w hw => ?_⟩
    exact ⟨{ w with contFrame := none }, by rw [hw]; rfl, id⟩
  | ping _ hd =>
    obtain ⟨-, hws', hclosed, hout⟩ := Conn.write_frame hd
    exact ⟨hclosed, hout, fun w hw => ⟨w, hws'.trans hw, id⟩⟩
  | pong => exact .refl c
  | message => exact hdata c req.data
  | opens => exact hcont _

/-- A frame that does closes it, and does nothing else that shows. -/
theorem onWebsocket_closes {env : Env} {H : Handlers} {req : WsFrame} {c c' : Conn}
    (hok : Conn.onWebsocket env H req c = .ok (c', false)) :
    ∃ c₀ errType err, c' = Conn.closeConnWithError c₀ errType err ∧
    c₀.out = c.out ∧ c₀.closed = c.closed ∧ c₀.ws.map (·.closed) = c.ws.map (·.closed) := by
  obtain ⟨ws, hws, h⟩ := Conn.handles_of_onWebsocket hok
  rw [hws]
  cases h with
  | unexpected => exact ⟨_, _, _, rfl, rfl, rfl, by rw [hws]⟩
  | tooLarge => exact ⟨_, _, _, rfl, rfl, rfl, rfl⟩
  | close => exact ⟨_, _, _, rfl, rfl, rfl, rfl⟩

namespace Listener

variable {cfg : Config} {l l' : Listener} {id : ℕ} {c c' : Conn}
  {ev : Flags} {todo : List PollEvent} {loop : Loop} {as : List Act}

theorem drop_min (p : Bytes) (room : ℕ) : p.drop (min room p.length) = p.drop room := by
  rcases Nat.le_total room p.length with hle | hle
  · rw [Nat.min_eq_left hle]
  · rw [Nat.min_eq_right hle, List.drop_of_length_le hle, List.drop_length]

/-- **`writeConn`.** -/
theorem write_reaches (hloop : l.loop = .serving id .write ev todo) (h : Shown l id c)
    (hopen : c.closed = false) {wr : WriteResult} (hok : c.writeConn wr = .ok c') :
    Reaches cfg id l (c.writeActs wr) (resume id ev todo) c' := by
  obtain ⟨-, hw⟩ := Conn.written_of_writeConn hok
  have hstep : step cfg l (.write wr) = some (l.writeConn id ev todo wr) :=
    step_serving hloop _ (fun _ => Act.noConfusion)
  have hout : (l.conns id).out = c.out := h.views.1
  have hdrop : ∀ {room}, c.out.length ≤ room → [] = c.out.drop (min room c.out.length) :=
    fun hroom => by rw [Nat.min_eq_right hroom, List.drop_length]
  simp only [writeConn, hout] at hstep
  unfold Conn.writeActs
  -- one case for each outcome of the write, and the steps of the listener that it takes
  cases hw with
  | empty hnil =>
    rw [if_pos hnil] at hstep ⊢
    exact .cons hstep (.same rfl rfl rfl) (mod_reaches rfl (h.same rfl rfl rfl) hopen)
  | failed hne =>
    rw [if_neg hne] at hstep ⊢
    exact close_reaches hstep (.same rfl rfl rfl) (h.same rfl rfl rfl) _ _
  | blocked hne =>
    rw [if_neg hne] at hstep ⊢
    refine (sent_reaches h hstep (drop_min c.out _).symm).append fun l' hl' hs' => ?_
    exact mod_reaches hl' hs' hopen
  | short hne hroom =>
    simp only [if_neg hne, if_neg (not_le.mpr hroom)] at hstep
    simp only [if_neg hne, if_pos hroom]
    refine (sent_reaches h hstep (drop_min c.out _).symm).append fun l' hl' hs' => ?_
    exact mod_reaches hl' hs' hopen
  | whole hne hroom hws =>
    simp only [if_neg hne, if_pos hroom] at hstep
    simp only [if_neg hne, if_neg (not_lt.mpr hroom), hws, Bool.false_eq_true, if_false]
    refine (sent_reaches h hstep (n := _) (hdrop hroom)).append fun l' hl' hs' => ?_
    have hflag : (l'.conns id).ws ≠ some true := fun hset =>
      Bool.eq_false_iff.mp hws (hs'.views.flag.mp hset)
    have hdrained : step cfg l' .drained = some (l'.goto (.serving id (.mod .read) ev todo)) := by
      rw [step_serving hl' _ (fun _ => Act.noConfusion), serve, if_neg hflag]
    exact .cons hdrained (.same rfl rfl rfl) (mod_reaches rfl (hs'.same rfl rfl rfl) hopen)
  | closing hne hroom hws =>
    simp only [if_neg hne, if_pos hroom] at hstep
    simp only [if_neg hne, if_neg (not_lt.mpr hroom), hws, if_true]
    refine (sent_reaches h hstep (n := _) (hdrop hroom)).append fun l' hl' hs' => ?_
    have hdrained : step cfg l' .drained
        = some ((l'.closeConnWithError id).goto (resume id ev todo)) := by
      rw [step_serving hl' _ (fun _ => Act.noConfusion), serve, if_pos (hs'.views.flag.mpr hws)]
    exact close_reaches hdrained (.refl id l') hs' _ _

/-! ### Handlers -/

/-- A listener that shows a connection shows every connection that looks the same. -/
theorem Shown.congr (h : Shown l id c) (hlooks : c'.out = c.out ∧ c'.closed = c.closed ∧
    c'.ws.map (·.closed) = c.ws.map (·.closed)) : Shown l id c' := by
  obtain ⟨hout, hclosed, hws⟩ := hlooks
  obtain ⟨hout', hclosed', hws'⟩ := h.views
  exact ⟨h.made, ⟨hout'.trans hout.symm, hclosed'.trans hclosed.symm, hws'.trans hws.symm⟩,
    fun hopen => h.registered (hclosed ▸ hopen)⟩

/-- **A handler** writes to the connection, upgrades it or closes the websocket. -/
theorem user_reaches (h : Shown l id c) (hext : c.Extends c') :
    Reaches cfg id l (c.userActs id c') l.loop c' := by
  -- first the upgrade, then the output, then the flag of the websocket
  have hupgrade :
      Reaches cfg id l (if c.ws.isNone ∧ c'.ws.isSome then [.user (.upgrade id)] else []) l.loop
      { c with ws := if c.ws.isNone ∧ c'.ws.isSome then some {} else c.ws } := by
    split
    · have hstep : step cfg l (.user (.upgrade id))
          = some ((l.setConn id { l.conns id with ws := some false }).record (.upgrade id)) := by
        rw [step_user, useConn, if_pos h.made]
      refine .cons hstep (.update rfl rfl rfl rfl) (.nil rfl ?_)
      exact h.update rfl rfl rfl rfl ⟨h.views.1, h.views.2.1, rfl⟩ rfl
    · exact .nil rfl h
  refine hupgrade.append fun l₁ hl₁ h₁ => ?_
  have hwrite : step cfg l₁ (.user (.append none id (c'.out.drop c.out.length)))
      = some (l₁.append none id (c'.out.drop c.out.length)) := by
    rw [step_user, useConn, if_pos h₁.made]
  have hout : c.out ++ c'.out.drop c.out.length = c'.out := List.prefix_iff_eq_append.mp hext.out
  have h₂ : Shown (l₁.append none id (c'.out.drop c.out.length)) id
      { c with ws := if c.ws.isNone ∧ c'.ws.isSome then some {} else c.ws, out := c'.out } := by
    refine h₁.update rfl rfl rfl rfl ⟨?_, h₁.views.2.1, h₁.views.2.2⟩ rfl
    show (l₁.conns id).out ++ c'.out.drop c.out.length = c'.out
    rw [h₁.views.1, hout]
  refine .cons hwrite (.update rfl rfl rfl rfl) ?_
  -- what is left is the flag
  have hloop : (l₁.append none id (c'.out.drop c.out.length)).loop = l.loop := hl₁
  split
  · rename_i hany
    have hstep : step cfg (l₁.append none id (c'.out.drop c.out.length)) (.user (.wsClose id))
        = some ((l₁.append none id (c'.out.drop c.out.length)).setConn id
          { (l₁.append none id (c'.out.drop c.out.length)).conns id with
            ws := ((l₁.append none id (c'.out.drop c.out.length)).conns id).ws.map
              fun _ => true }) := by
      rw [step_user, useConn, if_pos h₂.made]
    refine .cons hstep (.update rfl rfl rfl rfl) (.nil hloop ?_)
    refine h₂.update rfl rfl rfl rfl ⟨h₂.views.1, h₂.views.2.1.trans hext.closed.symm, ?_⟩
      hext.closed
    show ((l₁.append none id (c'.out.drop c.out.length)).conns id).ws.map (fun _ => true) = _
    rw [h₂.views.2.2]
    cases hws' : c'.ws with
    | none => rw [hws'] at hany; cases hany
    | some w' =>
      have hclosed : w'.closed = true := by simpa [hws'] using hany
      cases hws : c.ws with
      | none => simp [hclosed]
      | some w => simp [hclosed]
  · rename_i hany
    refine .nil hloop (h₂.congr ⟨rfl, hext.closed, ?_⟩)
    cases hws : c.ws with
    | none =>
      cases hws' : c'.ws with
      | none => simp
      | some w' => simpa [hws'] using hany
    | some w =>
      obtain ⟨w', hw', hkeep⟩ := hext.ws w hws
      have hopen : w'.closed = false := by simpa [hw'] using hany
      have hopen' : w.closed = false := by
        cases hw : w.closed with
        | false => rfl
        | true => rw [hkeep hw] at hopen; cases hopen
      simp [hw', hopen, hopen']

/-! ### `readConn` -/

/-- The end of `readConn`. -/
theorem finish_reaches (hloop : l.loop = .serving id .finish ev todo) (h : Shown l id c)
    (hopen : c.closed = false) {wr : WriteResult} (hok : c.finishRead wr = .ok c') :
    Reaches cfg id l (c.finishActs wr) (resume id ev todo) c' := by
  have hstep : step cfg l .finish = l.serve id ev todo .finish .finish :=
    step_serving hloop _ (fun _ => Act.noConfusion)
  have hout : (l.conns id).out = c.out := h.views.1
  simp only [serve, hout] at hstep
  simp only [Conn.finishRead, ne_eq, List.length_eq_zero_iff] at hok
  unfold Conn.finishActs
  split at hok
  · rename_i hne
    rw [if_neg hne] at hstep ⊢
    refine .cons hstep (.same rfl rfl rfl) ?_
    exact write_reaches (l := l.goto (.serving id .write ev todo))
      (c := { c with srs := {} }) rfl ⟨h.made, h.views, h.registered⟩ hopen hok
  · rename_i hnil
    rw [not_not] at hnil
    rw [if_pos hnil] at hstep ⊢
    cases hok
    exact .cons hstep (.same rfl rfl rfl) (.nil rfl ⟨h.made, h.views, h.registered⟩)

/-- A handler and what follows it. -/
theorem answer_reaches {r : Conn × Bool} (hloop : l.loop = .serving id .handler ev todo)
    (h : Shown l id c) (hopen : c.closed = false) (hext : c.Extends r.1) {wr : WriteResult}
    (hok : (if r.2 then r.1.finishRead wr else .ok (r.1.closeConnWithError [] none)) = .ok c') :
    Reaches cfg id l (c.answerActs id wr r) (resume id ev todo) c' := by
  refine (user_reaches h hext).append fun l₁ hl₁ h₁ => ?_
  rw [hloop] at hl₁
  cases hr : r.2 with
  | true =>
    rw [hr, if_pos rfl] at hok
    have hstep : step cfg l₁ (.handled .done) = some (l₁.goto (.serving id .finish ev todo)) :=
      step_serving hl₁ _ (fun _ => Act.noConfusion)
    refine .cons hstep (.same rfl rfl rfl) ?_
    exact finish_reaches (l := l₁.goto (.serving id .finish ev todo))
      rfl (h₁.same rfl rfl rfl) (hext.closed.trans hopen) hok
  | false =>
    rw [hr, if_neg Bool.false_ne_true] at hok
    cases hok
    have hstep : step cfg l₁ (.handled .close)
        = some ((l₁.closeConnWithError id).goto (resume id ev todo)) :=
      step_serving hl₁ _ (fun _ => Act.noConfusion)
    exact close_reaches hstep (.refl id l₁) h₁ _ _

/-- `truncateInputBuffer` works on the input only. -/
theorem truncate_shown {sz : ℤ} {n : ℕ} (h : Shown l id c) (hopen : c.closed = false)
    (hok : c.truncateInputBuffer sz = .ok (c', n)) :
    Shown l id c' ∧ c'.closed = false ∧ c'.ws = c.ws := by
  unfold Conn.truncateInputBuffer Conn.spinLock at hok
  split at hok
  · cases hok
  · simp only [bind, Except.bind] at hok
    split at hok
    · cases hok
    · cases hok
      exact ⟨⟨h.made, h.views, h.registered⟩, hopen, rfl⟩

/-- A request that is not a frame. -/
theorem request_reaches {H : Handlers} (hH : H.Extend)
    (hloop : l.loop = .serving id .handler ev todo)
    (h : Shown l id c) (hopen : c.closed = false) (hws : c.ws = none) {wr : WriteResult}
    (hok : c.onRequest H wr = .ok c') :
    Reaches cfg id l (c.requestActs H id wr) (resume id ev todo) c' := by
  unfold Conn.onRequest at hok
  unfold Conn.requestActs
  cases hhttp : c.srs.http with
  | some req =>
    simp only [hhttp] at hok ⊢
    cases htr : c.truncateInputBuffer (req.bodyLen + req.hdrLen) with
    | error e => simp only [htr, bind, Except.bind] at hok; cases hok
    | ok p =>
      simp only [htr, bind, Except.bind] at hok ⊢
      obtain ⟨h₁, hopen₁, hws₁⟩ := truncate_shown h hopen htr
      have hext := hH.onHTTP req { p.1 with log := p.1.log ++ [.http req] } (hws₁.trans hws)
      exact answer_reaches hloop h₁ hopen₁ ⟨hext.closed, hext.out, hext.ws⟩ hok
  | none =>
    cases hredis : c.srs.redis with
    | none => simp only [hhttp, hredis] at hok; cases hok
    | some req =>
      simp only [hhttp, hredis] at hok ⊢
      cases htr : c.truncateInputBuffer req.read with
      | error e => simp only [htr, bind, Except.bind] at hok; cases hok
      | ok p =>
        simp only [htr, bind, Except.bind] at hok ⊢
        obtain ⟨h₁, hopen₁, hws₁⟩ := truncate_shown h hopen htr
        have hext := hH.onRedis req { p.1 with log := p.1.log ++ [.redis req] } (hws₁.trans hws)
        exact answer_reaches hloop h₁ hopen₁ ⟨hext.closed, hext.out, hext.ws⟩ hok

section Parse

variable {env : Env} {H : Handlers} {wr : WriteResult}

/-- The step of the listener that ends a section of `PARSE_NEXT`. -/
theorem step_parse (hloop : l.loop = .serving id .parse ev todo) (res : ParseResult) :
    step cfg l (.parse res) = l.parseConn id ev todo res :=
  step_serving hloop _ (fun _ => Act.noConfusion)

/-- The input is not complete. -/
theorem more_reaches (hloop : l.loop = .serving id .parse ev todo) (h : Shown l id c) :
    Reaches cfg id l [.parse .more] (resume id ev todo) c :=
  .cons (step_parse hloop .more) (.same rfl rfl rfl) (.nil rfl (h.same rfl rfl rfl))

/-- **A frame** is handled, and then the loop goes on, ends, or the connection is closed. -/
theorem frame_reaches (hH : H.Extend) {req : WsFrame} {d : Conn} {go : Bool} {n remain : ℕ}
    {again : List Act} (hloop : l.loop = .serving id .parse ev todo) (h : Shown l id c)
    (hopen : c.closed = false) (hws : c.ws.any (·.closed) = false)
    (hon : Conn.onWebsocket env H req c = .ok (d, go))
    (hok : (if go then if remain > 0 then d.parseNext env H wr n [] else d.finishRead wr else .ok d)
      = .ok c')
    (hnext : ∀ {l' : Listener}, l'.loop = .serving id .parse ev todo → Shown l' id d →
      d.closed = false → d.parseNext env H wr n [] = .ok c' →
      Reaches cfg id l' again (resume id ev todo) c') :
    Reaches cfg id l (Conn.frameActs id wr c d go remain again) (resume id ev todo) c' := by
  have hflag : (l.conns id).ws ≠ some true := fun hset =>
    Bool.eq_false_iff.mp hws (h.views.flag.mp hset)
  have hcomplete : step cfg l (.parse .complete)
      = some (l.goto (.serving id .handler ev todo)) := by
    rw [step_parse hloop, parseConn, if_neg hflag]
  have h' : Shown (l.goto (.serving id .handler ev todo)) id c := h.same rfl rfl rfl
  cases go with
  | false =>
    cases hok
    -- `onWebsocket` has closed the connection
    obtain ⟨c₀, errType, err, rfl, hlooks⟩ := onWebsocket_closes hon
    have hclose : step cfg (l.goto (.serving id .handler ev todo)) (.handled .close)
        = some (((l.goto (.serving id .handler ev todo)).closeConnWithError id).goto
          (resume id ev todo)) := rfl
    exact .cons hcomplete (.same rfl rfl rfl)
      (close_reaches hclose (.refl id _) (h'.congr hlooks) _ _)
  | true =>
    -- the handler has written, and the loop goes round again or to its end
    have hext := onWebsocket_extends hH hon
    rw [if_pos rfl] at hok
    refine .cons hcomplete (.same rfl rfl rfl) ((user_reaches h' hext).append fun l₂ hl₂ h₂ => ?_)
    split at hok
    · rename_i hremain
      rw [if_pos hremain]
      have hagain : step cfg l₂ (.handled .again) = some (l₂.goto (.serving id .parse ev todo)) :=
        step_serving hl₂ _ (fun _ => Act.noConfusion)
      exact .cons hagain (.same rfl rfl rfl)
        (hnext rfl (h₂.same rfl rfl rfl) (hext.closed.trans hopen) hok)
    · rename_i hremain
      rw [if_neg hremain]
      have hdone : step cfg l₂ (.handled .done) = some (l₂.goto (.serving id .finish ev todo)) :=
        step_serving hl₂ _ (fun _ => Act.noConfusion)
      refine .cons hdone (.same rfl rfl rfl) ?_
      exact finish_reaches (l := l₂.goto (.serving id .finish ev todo)) rfl
        (h₂.same rfl rfl rfl) (hext.closed.trans hopen) hok

/-- **A call of `process`** on a connection that is not upgraded. -/
theorem process_reaches (hH : H.Extend) {call : Incremental.Call ServerReadState UInt8 Err Unit}
    (hloop : l.loop = .serving id .parse ev todo)
    (h : Shown l id c) (hopen : c.closed = false) (hws : c.ws = none)
    (hok : (match call.ret with
      | .more => .ok { c with srs := call.state, inp := call.buf }
      | .fail e => .ok (({ c with srs := call.state, inp := call.buf } : Conn).closeConnWithError
          (ascii "read") (some (.process e)))
      | .panic => .error .panic
      | .ok () => ({ c with srs := call.state, inp := call.buf } : Conn).onRequest H wr :
        Except Halt Conn) = .ok c') :
    Reaches cfg id l (match call.ret with
      | .more => [.parse .more]
      | .fail _ => [.parse .error]
      | .panic => []
      | .ok () => .parse .complete ::
          ({ c with srs := call.state, inp := call.buf } : Conn).requestActs H id wr)
      (resume id ev todo) c' := by
  have hflag : (l.conns id).ws = none := by
    rw [h.views.2.2, hws]
    rfl
  have h' : Shown l id { c with srs := call.state, inp := call.buf } := h.congr ⟨rfl, rfl, rfl⟩
  -- as in the source, by the result of `process`
  cases hret : call.ret with
  | more =>
    simp only [hret] at hok ⊢
    cases hok
    exact more_reaches hloop h'
  | fail e =>
    simp only [hret] at hok ⊢
    cases hok
    have herror : step cfg l (.parse .error)
        = some ((l.closeConnWithError id).goto (resume id ev todo)) := by
      rw [step_parse hloop, parseConn, if_pos hflag]
    exact close_reaches herror (.refl id l) h' _ _
  | panic => simp only [hret] at hok; cases hok
  | ok u =>
    simp only [hret] at hok ⊢
    have hcomplete : step cfg l (.parse .complete)
        = some (l.goto (.serving id .handler ev todo)) := by
      rw [step_parse hloop, parseConn, if_neg (by rw [hflag]; simp)]
    refine .cons hcomplete (.same rfl rfl rfl) ?_
    exact request_reaches (l := l.goto (.serving id .handler ev todo))
      hH rfl (h'.same rfl rfl rfl) hopen hws hok

/-- **`PARSE_NEXT`.** -/
theorem parse_reaches (hH : H.Extend) (n : ℕ) (buf : Bytes)
    (hloop : l.loop = .serving id .parse ev todo) (h : Shown l id c) (hopen : c.closed = false)
    (hok : c.parseNext env H wr n buf = .ok c') :
    Reaches cfg id l (c.parseActs env H id wr n buf) (resume id ev todo) c' := by
  -- by induction over the rounds of `PARSE_NEXT`
  induction n generalizing l c buf with
  | zero => cases hok
  | succ n ih =>
    rw [Conn.parseNext] at hok
    rw [Conn.parseActs]
    -- a lock that somebody holds would block the loop
    cases hspin : c.spinLock with
    | error e => simp only [hspin, bind, Except.bind] at hok; cases hok
    | ok d =>
      obtain ⟨hlock, rfl⟩ := Conn.spinLock_eq_ok_iff.mp hspin
      simp only [hspin, bind, Except.bind] at hok
      simp only
      split at hok
      · rename_i hover
        rw [if_pos hover]
        cases hok
        exact close_reaches (c := { c with lock := true, inp := c.inp ++ buf })
          (step_parse hloop .oversize) (.refl id l) (h.congr ⟨rfl, rfl, rfl⟩) _ _
      · rename_i hfit
        rw [if_neg hfit]
        cases hws : c.ws with
        | none =>
          simp only [hws] at hok ⊢
          exact process_reaches (c := { c with lock := false, ws := none }) hH hloop
            (h.congr ⟨rfl, rfl, by rw [hws]⟩) hopen rfl hok
        | some ws =>
          simp only [hws] at hok ⊢
          cases hclosed : ws.closed with
          | true =>
            simp only [hclosed, if_true] at hok ⊢
            cases hok
            exact more_reaches hloop (h.congr ⟨rfl, rfl, by simp [Conn.spinUnlock, hws, hclosed]⟩)
          | false =>
            simp only [hclosed, Bool.false_eq_true, if_false] at hok ⊢
            cases hframe : parseFrame (c.inp ++ buf) with
            | more =>
              simp only [hframe] at hok ⊢
              cases hok
              exact more_reaches hloop (h.congr ⟨rfl, rfl, by simp [Conn.spinUnlock, hws, hclosed]⟩)
            | fail e => simp only [hframe] at hok; cases hok
            | panic => simp only [hframe] at hok; cases hok
            | ok p =>
              obtain ⟨req, inp⟩ := p
              simp only [hframe, Conn.spinUnlock] at hok ⊢
              have hshown : Shown l id { c with
                  lock := false, inp := inp, ws :=
                    some { ws with parsedFrame := req, closed := false } } :=
                h.congr ⟨rfl, rfl, by simp [hws, hclosed]⟩
              cases htr : ({ c with
                  lock := false, inp := inp, ws :=
                    some { ws with parsedFrame := req, closed := false } } : Conn)
                    |>.truncateInputBuffer req.len with
              | error e => simp only [htr] at hok; cases hok
              | ok p =>
                obtain ⟨d, remain⟩ := p
                simp only [htr] at hok ⊢
                -- the frame is cut off and handled; the next round starts without new bytes
                obtain ⟨hd, hopen_d, hws_d⟩ := truncate_shown hshown hopen htr
                cases hon : Conn.onWebsocket env H req d with
                | error e => simp only [hon] at hok; cases hok
                | ok q =>
                  simp only [hon] at hok ⊢
                  exact frame_reaches hH hloop hd hopen_d (by rw [hws_d]; rfl) hon hok
                    fun hl hs ho hnext => ih [] hl hs ho hnext

end Parse

/-- **`readConn`.**  A read from a connection that is closed fails. -/
theorem read_reaches {env : Env} {H : Handlers} (hH : H.Extend) {rd : ReadResult} {wr : WriteResult}
    (hloop : l.loop = .serving id .read ev todo) (h : Shown l id c)
    (hopen : c.closed = true → ∃ text, rd = .error text) (hok : c.readConn env H rd wr = .ok c') :
    Reaches cfg id l (c.readActs env H id rd wr) (resume id ev todo) c' := by
  have hstep : step cfg l (.read rd) = some (l.readConn id ev todo rd) :=
    step_serving hloop _ (fun _ => Act.noConfusion)
  have halive : (∀ text, rd ≠ .error text) → c.closed = false := by
    intro hrd
    cases hc : c.closed with
    | false => rfl
    | true =>
      obtain ⟨text, htext⟩ := hopen hc
      exact absurd htext (hrd text)
  have hrecord : Apart id l (l.record (.read id)) := .same rfl rfl rfl
  have hshown : Shown (l.record (.read id)) id c := h.same rfl rfl rfl
  unfold Conn.readConn at hok
  unfold Conn.readActs
  cases rd with
  | data d =>
    have hc := halive nofun
    cases d with
    | nil =>
      cases hok
      exact close_reaches hstep hrecord hshown _ _
    | cons b d =>
      refine .cons hstep (.same rfl rfl rfl) ?_
      exact parse_reaches hH _ _ rfl (h.same rfl rfl rfl) hc hok
  | again =>
    cases hok
    refine .cons hstep (.same rfl rfl rfl) ?_
    exact mod_reaches rfl (h.same rfl rfl rfl) (halive nofun)
  | error text =>
    cases hok
    exact close_reaches hstep hrecord hshown _ _

/-- The callback up to `ev&READ > 0`. -/
theorem onWrite_reaches {wr : WriteResult} (hloop : l.loop = dispatch id ev todo) (h : Shown l id c)
    (hopen : c.closed = false) (hok : c.onWrite ev wr = .ok c') :
    Reaches cfg id l (if ev.write then c.writeActs wr else []) (resume id ev todo) c' := by
  unfold dispatch at hloop
  unfold Conn.onWrite at hok
  split at hok
  · rename_i hwrite
    rw [if_pos hwrite] at hloop ⊢
    exact write_reaches hloop h hopen hok
  · rename_i hwrite
    rw [if_neg hwrite] at hloop ⊢
    cases hok
    exact .nil hloop h

/-- The callback from there up to `ev&EOF > 0`. -/
theorem onRead_reaches {env : Env} {H : Handlers} (hH : H.Extend)
    {rd : ReadResult} {wr : WriteResult} (hloop : l.loop = resume id ev todo) (h : Shown l id c)
    (hopen : c.closed = true → ∃ text, rd = .error text) (hok : c.onRead env H ev rd wr = .ok c') :
    Reaches cfg id l (if ev.read then c.readActs env H id rd wr else [])
      (.serving id .eof { ev with read := false } todo) c' := by
  unfold resume at hloop
  unfold Conn.onRead at hok
  split at hok
  · rename_i hread
    rw [if_pos hread] at hloop ⊢
    exact read_reaches hH hloop h hopen hok
  · rename_i hread
    rw [if_neg hread] at hloop ⊢
    cases hok
    have hev : ({ ev with read := false } : Flags) = ev := by
      simp only [Bool.not_eq_true] at hread
      rw [← hread]
    rw [hev]
    exact .nil hloop h

/-- **The callback.**  For a connection that is open, the steps of the listener end where the
    time-outs are looked at, and the listener shows there what the functions have made of the
    connection.  A connection that the write has closed is read from in vain. -/
theorem callback_reaches {env : Env} {H : Handlers} (hH : H.Extend) {x : Returns}
    (hloop : l.loop = dispatch id ev todo) (h : Shown l id c) (hopen : c.closed = false)
    (hread : ∀ d, c.onWrite ev x.first = .ok d → d.closed = true → ∃ text, x.rd = .error text)
    (hok : c.callback env H ev x = .ok c') :
    Reaches cfg id l (c.callbackActs env H id ev x) (.tick todo) c' := by
  unfold Conn.callback at hok
  unfold Conn.callbackActs
  cases hwrite : c.onWrite ev x.first with
  | error e => simp only [hwrite, bind, Except.bind] at hok; cases hok
  | ok d =>
    cases hreads : d.onRead env H ev x.rd x.wr with
    | error e => simp only [hwrite, hreads, bind, Except.bind] at hok; cases hok
    | ok d' =>
      simp only [hwrite, hreads, bind, Except.bind] at hok
      cases hok
      refine ((onWrite_reaches hloop h hopen hwrite).append fun l₁ hl₁ h₁ =>
        onRead_reaches hH hl₁ h₁ (hread d hwrite) hreads).append fun l₂ hl₂ h₂ => ?_
      have hstep : step cfg l₂ .eof
          = some ((if ev.eof then l₂.closeConnWithError id else l₂).goto (.tick todo)) :=
        step_serving hl₂ _ (fun _ => Act.noConfusion)
      unfold Conn.onEof
      cases heof : ev.eof with
      | true =>
        rw [heof] at hstep
        rw [if_pos rfl]
        exact close_reaches hstep (.refl id l₂) h₂ _ _
      | false =>
        rw [heof] at hstep
        exact .cons hstep (.same rfl rfl rfl) (.nil rfl (h₂.same rfl rfl rfl))

end Listener

end Resh.Server
