import Gross.Foundation.Run
import Mathlib.Logic.Function.Basic

/-!
# Which connection is the peer's

The daemon has one number for its peer, `peer->connected`: the descriptor that what it
has to say is written to, and that what the peer says is read from. It is set when the
daemon has connected to the peer, and whenever the peer has connected to it. Two
threads receive: `recv_syncs`, started for the first kind of connection, and
`synchronize`, which accepts the second kind. Each looks at `peer->connected` before
each read, and sets it to 0 when the read ends.

## The model

The threads take turns. Looking at `connected` and asking for bytes is a step
(`Act.latch`), having got them another (`Act.got`), and the end of the connection that
is read from a third (`Act.ended`). In between, the other thread goes on, and
connections end. A read that got some of its bytes asks for the rest with the same
number (`Act.again`), which by then may be another connection's, or none's. `ndebug`
says whether the daemon was built without assertions: with them it does not get past
the first message after it has connected.

## What is proved

* `Inv.resets`, `Inv.kept` — the end of a read of `synchronize` never takes
  `connected` away from a live connection that was accepted later. While no end of a
  read of `recv_syncs` does, `connected` is the connection that `synchronize` serves,
  as long as that is alive and has sent nothing unknown.
* `connected_kept_iff` — that this is so in every run is so exactly if `recv_syncs`
  does not come to be: in a daemon built with assertions, or one that could not
  connect to its peer.

## Honest scope

What is read and written is left out but for the type of a message, and so is the sync
guard. `accept` does not fail, and a connection that is not from the peer is turned away
without any effect. `malloc` of no bytes returns a block.
-/

namespace Gross.Sync.Connected

open Foundation

/-- The two threads that receive. -/
inductive Receiver where
  /-- `recv_syncs` -/
  | recvSyncs
  /-- `synchronize` -/
  | synchronize
  deriving DecidableEq, Repr

/-- A connection. The first one is that to the peer, the others come later. -/
structure Conn where
  /-- Whether it was accepted. -/
  accepted : Bool
  /-- Whether it has not ended. -/
  alive : Bool
  deriving DecidableEq, Repr

/-- What `readn` has been asked for. -/
inductive What where
  /-- A `sync_config_t`. -/
  | config
  /-- A `sync_msg_t`. -/
  | prologue
  /-- What comes after it. -/
  | payload
  deriving DecidableEq, Repr

/-- A `readn` that has not returned. -/
structure Reading where
  /-- The descriptor. -/
  fd : ℕ
  /-- What it was when `read` was called. -/
  conn : Option ℕ
  deriving DecidableEq, Repr

/-- Where a receiver is. -/
inductive Stage where
  /-- Before it looks at `connected`. -/
  | before (what : What)
  /-- In `readn`. -/
  | reading (what : What) (r : Reading)
  deriving DecidableEq, Repr

/-- `synchronize` -/
inductive SyncPhase where
  /-- Before `connect`. -/
  | connecting
  /-- After it has succeeded. -/
  | rotating
  /-- Before `accept`. -/
  | accepting
  /-- With a connection. -/
  | serving (st : Stage)
  deriving DecidableEq, Repr

/-- `recv_syncs` -/
inductive RecvPhase where
  /-- Not started. -/
  | unborn
  /-- Started. -/
  | running (st : Stage)
  /-- Returned. -/
  | gone
  deriving DecidableEq, Repr

/-- The type in a `sync_msg_t`. -/
inductive MsgType where
  /-- `STARTUP_SYNC` -/
  | startup
  /-- `OPER_SYNC` -/
  | oper
  /-- `AGGREGATE_SYNC` -/
  | aggregate
  /-- None of these. -/
  | unknown
  deriving DecidableEq, Repr

/-- How the daemon was built and started. -/
structure Conf where
  /-- Built without assertions. -/
  ndebug : Bool
  /-- Whether the peer can be connected to. -/
  reachable : Bool
  /-- `peerfd_out`, which `socket` has returned. -/
  peerfdOut : ℕ
  /-- It is not that of the standard input. -/
  nonzero : peerfdOut ≠ 0

/-- The two threads and what they share. -/
structure State where
  /-- The connections, in the order they came. -/
  conns : List Conn
  /-- Which of them the descriptors are. -/
  table : ℕ → Option ℕ
  /-- `peer->connected` -/
  connected : ℕ
  /-- Whether an unknown message has come since the last `accept`. -/
  refused : Bool
  /-- `synchronize` -/
  sync : SyncPhase
  /-- `recv_syncs` -/
  recv : RecvPhase
  /-- Who has taken `connected` away from a live connection accepted later than the one it has
  read from. -/
  resets : List Receiver

/-- `synchronize` has its socket. -/
def start (conf : Conf) : State where
  conns := [⟨false, conf.reachable⟩]
  table := Function.update (fun _ => none) conf.peerfdOut (some 0)
  connected := 0
  refused := false
  sync := .connecting
  recv := .unborn
  resets := []

/-- A step of a thread, or the end of a connection. -/
inductive Act where
  /-- `connect` -/
  | connect
  /-- The `ROTATE` after it, and `start_syncer`. -/
  | rotate
  /-- `accept` returns a descriptor. -/
  | accept (fd : ℕ)
  /-- Connection `c` ends. -/
  | close (c : ℕ)
  /-- A receiver looks at `connected` and calls `readn`. -/
  | latch (who : Receiver)
  /-- `readn` calls `read` again. -/
  | again (who : Receiver)
  /-- `readn` returns with the peer's configuration. -/
  | gotConfig (same : Bool)
  /-- `readn` returns with bytes: a prologue of this type, or a payload. -/
  | got (who : Receiver) (type : MsgType)
  /-- `readn` returns `EMPTY` or `ERROR`. -/
  | ended (who : Receiver)
  deriving DecidableEq, Repr

namespace State

/-- Where a receiver is, if it receives. -/
def stage (s : State) : Receiver → Option Stage
  | .recvSyncs =>
    match s.recv with
    | .running st => some st
    | _ => none
  | .synchronize =>
    match s.sync with
    | .serving st => some st
    | _ => none

/-- A receiver goes on. -/
def goto (s : State) (st : Stage) : Receiver → State
  | .recvSyncs => { s with recv := .running st }
  | .synchronize => { s with sync := .serving st }

/-- `recv_sync_msg` has returned 0. -/
def stop (s : State) : Receiver → State
  | .recvSyncs => { s with recv := .gone }
  | .synchronize => { s with sync := .accepting }

/-- Connection `c` ends. -/
def kill (s : State) (c : ℕ) : State := { s with conns := s.conns.modify c fun x => { x with alive := false } }

/-- `close(fd)` -/
def closeFd (s : State) (fd : ℕ) : State :=
  match s.table fd with
  | none => s
  | some c => { s.kill c with table := Function.update s.table fd none }

/-- The connection that came last. -/
def last (s : State) : ℕ := s.conns.length - 1

/-- The end of what is read would take `connected` away from a live connection that was accepted
later. -/
def takes (s : State) (r : Reading) : Bool :=
  match s.table s.connected with
  | none => false
  | some g =>
    decide (s.conns[g]? = some ⟨true, true⟩) &&
      match r.conn with
      | none => true
      | some c => decide (c < g)

/-- What is read has ended. -/
def isOver (s : State) (r : Reading) : Bool :=
  match r.conn with
  | none => true
  | some c => decide ((s.conns[c]?).map Conn.alive = some false)

/-- `recv_sync_msg` sets `connected` to 0 and returns 0. -/
def reset (s : State) (who : Receiver) (r : Reading) : State :=
  { s with connected := 0, resets := if s.takes r then who :: s.resets else s.resets }.stop who

/-- While `synchronize` serves a connection that is alive and has sent nothing unknown, `connected`
is that connection. -/
def Kept (s : State) : Prop :=
  ∀ st, s.sync = .serving st → s.conns[s.last]? = some ⟨true, true⟩ → s.refused = false →
    s.table s.connected = some s.last

end State

/-- A message of this type has come. -/
def gotMsg (conf : Conf) (s : State) (who : Receiver) : MsgType → Except Fault State
  | .startup | .oper => .ok (s.goto (.before .payload) who)
  | .aggregate =>
    -- `instant_msg` of no bytes
    if conf.ndebug then .ok (s.goto (.before .prologue) who) else .error .assertion
  | .unknown =>
    .ok ({ s.closeFd conf.peerfdOut with connected := 0, refused := true }.goto (.before .prologue) who)

/-- A step. An action that is not one of its thread at the time does nothing. -/
def step (conf : Conf) (s : State) : Act → Except Fault State
  | .connect =>
    if s.sync = .connecting then
      if (s.conns[0]?).map Conn.alive = some true then
        .ok { s with connected := conf.peerfdOut, sync := .rotating }
      else .ok { s with sync := .accepting }
    else .ok s
  | .rotate =>
    if s.sync = .rotating then
      if conf.ndebug then .ok { s with sync := .accepting, recv := .running (.before .config) }
      else .error .assertion
    else .ok s
  | .accept fd =>
    if s.sync = .accepting ∧ fd ≠ 0 ∧ s.table fd = none then
      .ok { s with
        conns := s.conns ++ [⟨true, true⟩], table := Function.update s.table fd (some s.conns.length),
        connected := fd, refused := false, sync := .serving (.before .prologue) }
    else .ok s
  | .close c => .ok (s.kill c)
  | .latch who =>
    match s.stage who with
    | some (.before what) => .ok (s.goto (.reading what ⟨s.connected, s.table s.connected⟩) who)
    | _ => .ok s
  | .again who =>
    match s.stage who with
    | some (.reading what r) => .ok (s.goto (.reading what ⟨r.fd, s.table r.fd⟩) who)
    | _ => .ok s
  | .gotConfig same =>
    match s.stage .recvSyncs with
    | some (.reading .config _) =>
      if same then .ok (s.goto (.before .prologue) .recvSyncs) else .error .exit
    | _ => .ok s
  | .got who type =>
    match s.stage who with
    | some (.reading .prologue _) => gotMsg conf s who type
    | some (.reading .payload _) => .ok (s.goto (.before .prologue) who)
    | _ => .ok s
  | .ended who =>
    match s.stage who with
    | some (.reading what r) =>
      if s.isOver r then
        if what = .config then .error .exit else .ok (s.reset who r)
      else .ok s
    | _ => .ok s

theorem State.stage_recvSyncs {s : State} {st : Stage} (h : s.stage .recvSyncs = some st) : s.recv = .running st := by
  simp only [State.stage] at h
  split at h
  · rename_i hrecv
    rw [hrecv, Option.some.inj h]
  · cases h

theorem State.stage_synchronize {s : State} {st : Stage} (h : s.stage .synchronize = some st) : s.sync = .serving st := by
  simp only [State.stage] at h
  split at h
  · rename_i hsync
    rw [hsync, Option.some.inj h]
  · cases h

theorem State.stage_congr {s s' : State} (hrecv : s'.recv = s.recv) (hsync : s'.sync = s.sync) (who : Receiver) :
    s'.stage who = s.stage who := by
  cases who with
  | recvSyncs => simp only [State.stage, hrecv]
  | synchronize => simp only [State.stage, hsync]

/-- What a step can do. -/
inductive Effect (conf : Conf) (s : State) : State → Prop where
  /-- Nothing. -/
  | none : Effect conf s s
  /-- The daemon connects. -/
  | connects (halive : (s.conns[0]?).map Conn.alive = some true) :
    Effect conf s { s with connected := conf.peerfdOut, sync := .rotating }
  /-- It does not. -/
  | fails : Effect conf s { s with sync := .accepting }
  /-- `recv_syncs` is started. -/
  | starts (hsync : s.sync = .rotating) (hndebug : conf.ndebug = true) :
    Effect conf s { s with sync := .accepting, recv := .running (.before .config) }
  /-- A connection is accepted. -/
  | accepts {fd : ℕ} (hfd : fd ≠ 0) :
    Effect conf s { s with
      conns := s.conns ++ [⟨true, true⟩], table := Function.update s.table fd (some s.conns.length), connected := fd,
      refused := false, sync := .serving (.before .prologue) }
  /-- A connection ends. -/
  | dies (c : ℕ) : Effect conf s (s.kill c)
  /-- A receiver is about to look at `connected`. -/
  | returns {who : Receiver} {st : Stage} (hst : s.stage who = some st) (what : What) :
    Effect conf s (s.goto (.before what) who)
  /-- It has looked, and calls `read`. -/
  | latches {who : Receiver} {what : What} (hst : s.stage who = some (.before what)) :
    Effect conf s (s.goto (.reading what ⟨s.connected, s.table s.connected⟩) who)
  /-- It calls `read` again. -/
  | goesOn {who : Receiver} {what : What} {r : Reading} (hst : s.stage who = some (.reading what r)) :
    Effect conf s (s.goto (.reading what ⟨r.fd, s.table r.fd⟩) who)
  /-- It has got an unknown message. -/
  | refuses {who : Receiver} {st : Stage} (hst : s.stage who = some st) :
    Effect conf s ({ s.closeFd conf.peerfdOut with connected := 0, refused := true }.goto (.before .prologue) who)
  /-- What it reads has ended. -/
  | ends {who : Receiver} {what : What} {r : Reading} (hst : s.stage who = some (.reading what r))
    (hover : s.isOver r = true) : Effect conf s (s.reset who r)

theorem gotMsg_effect {conf : Conf} {s s' : State} {who : Receiver} {st : Stage} (hst : s.stage who = some st)
    {type : MsgType} (hgot : gotMsg conf s who type = .ok s') : Effect conf s s' := by
  cases type with
  | startup | oper =>
    cases hgot
    exact .returns hst .payload
  | aggregate =>
    simp only [gotMsg] at hgot
    split at hgot
    · cases hgot
      exact .returns hst .prologue
    · cases hgot
  | unknown =>
    cases hgot
    exact .refuses hst

theorem step_effect {conf : Conf} {s s' : State} {act : Act} (hstep : step conf s act = .ok s') : Effect conf s s' := by
  cases act with
  | connect =>
    simp only [step] at hstep
    split_ifs at hstep with hsync halive <;> cases hstep
    · exact .connects halive
    · exact .fails
    · exact .none
  | rotate =>
    simp only [step] at hstep
    split_ifs at hstep with hsync hndebug <;> cases hstep
    · exact .starts hsync hndebug
    · exact .none
  | accept fd =>
    simp only [step] at hstep
    split_ifs at hstep with hpre <;> cases hstep
    · exact .accepts hpre.2.1
    · exact .none
  | close c =>
    cases hstep
    exact .dies c
  | latch who =>
    simp only [step] at hstep
    split at hstep <;> cases hstep
    · exact .latches ‹_›
    · exact .none
  | again who =>
    simp only [step] at hstep
    split at hstep <;> cases hstep
    · exact .goesOn ‹_›
    · exact .none
  | gotConfig same =>
    simp only [step] at hstep
    split at hstep
    · rename_i hst
      split_ifs at hstep
      cases hstep
      exact .returns hst .prologue
    · cases hstep
      exact .none
  | got who type =>
    simp only [step] at hstep
    split at hstep
    · rename_i hst
      exact gotMsg_effect hst hstep
    · rename_i hst
      cases hstep
      exact .returns hst .prologue
    · cases hstep
      exact .none
  | ended who =>
    simp only [step] at hstep
    split at hstep
    · rename_i hst
      split_ifs at hstep with hover <;> cases hstep
      · exact .ends hst hover
      · exact .none
    · cases hstep
      exact .none

/-! ### What holds in every run -/

/-- It is the connection that came last, or it is none and `connected` is 0. -/
def State.Own (s : State) (x : Option ℕ) : Prop := x = some s.last ∨ x = none ∧ s.connected = 0

/-- The first kind of connection apart, `connected` is the connection that `synchronize` serves, or
it is 0; and so is what `synchronize` reads from. -/
structure Inv (s : State) : Prop where
  /-- 0 is no connection. -/
  zero : s.table 0 = none
  /-- A descriptor is one of the connections. -/
  table : ∀ fd c, s.table fd = some c → c < s.conns.length
  /-- `recv_syncs` reads from one of them, if any. -/
  recv : ∀ what r, s.recv = .running (.reading what r) → ∀ c, r.conn = some c → c < s.conns.length
  /-- `synchronize` serves the one that came last, if `connected` is not 0. -/
  serving : ∀ st, s.sync = .serving st → s.Own (s.table s.connected)
  /-- It reads from that, and with its number. -/
  own : ∀ what r, s.sync = .serving (.reading what r) → s.Own r.conn ∧ s.Own (s.table r.fd)
  /-- It takes `connected` away from none that was accepted later. -/
  resets : .synchronize ∉ s.resets
  /-- While `recv_syncs` does not either, `connected` is kept. -/
  kept : .recvSyncs ∉ s.resets → s.Kept

/-- What was one's own still is when `connected` is set to 0. -/
theorem State.Own.of_zero {s s' : State} {x : Option ℕ} (h : s.Own x) (hlast : s'.last = s.last)
    (hzero : s'.connected = 0) : s'.Own x := by
  rcases h with hx | ⟨hx, -⟩
  · left
    rw [hx, hlast]
  · exact .inr ⟨hx, hzero⟩

theorem inv_start (conf : Conf) : Inv (start conf) where
  zero := by simp only [start, Function.update_of_ne conf.nonzero.symm]
  table fd c h := by
    by_cases hfd : fd = conf.peerfdOut
    · simp only [start, hfd, Function.update_self] at h
      cases h
      exact Nat.zero_lt_one
    · simp only [start, Function.update_of_ne hfd] at h
      cases h
  recv _ _ h := by cases h
  serving _ h := by cases h
  own _ _ h := by cases h
  resets := List.not_mem_nil
  kept _ _ h := by cases h

section

variable {conf : Conf} {s : State}

/-- `recv_syncs` goes on; what it reads from is a connection, if it is anything. -/
theorem Inv.setRecv (h : Inv s) {recv : RecvPhase}
    (hrecv : ∀ what r, recv = .running (.reading what r) → ∀ c, r.conn = some c → c < s.conns.length) :
    Inv { s with recv := recv } :=
  ⟨h.zero, h.table, hrecv, h.serving, h.own, h.resets, h.kept⟩

/-- `synchronize` goes on. -/
theorem Inv.setStage (h : Inv s) {st st' : Stage} (hst : s.sync = .serving st)
    (hown : ∀ what r, st' = .reading what r → s.Own r.conn ∧ s.Own (s.table r.fd)) :
    Inv { s with sync := .serving st' } where
  zero := h.zero
  table := h.table
  recv := h.recv
  serving _ _ := h.serving st hst
  own what r hr := hown what r (by injection hr)
  resets := h.resets
  kept hresets _ _ := h.kept hresets st hst

/-- `synchronize` is with no connection; `connected` may be anything. -/
theorem Inv.setSync (h : Inv s) (fd : ℕ) {sync : SyncPhase} (hsync : ∀ st, sync ≠ .serving st) :
    Inv { s with connected := fd, sync := sync } where
  zero := h.zero
  table := h.table
  recv := h.recv
  serving st hst := absurd hst (hsync st)
  own _ _ hr := absurd hr (hsync _)
  resets := h.resets
  kept _ st hst := absurd hst (hsync st)

/-- A receiver is about to look at `connected`. -/
theorem Inv.before (h : Inv s) {who : Receiver} {st : Stage} (hst : s.stage who = some st) (what : What) :
    Inv (s.goto (.before what) who) := by
  cases who with
  | recvSyncs => exact h.setRecv fun _ _ hr => by cases hr
  | synchronize => exact h.setStage (State.stage_synchronize hst) fun _ _ hr => by cases hr

/-- A connection ends. -/
theorem Inv.kill (h : Inv s) (c : ℕ) : Inv (s.kill c) := by
  have hlen : (s.kill c).conns.length = s.conns.length := List.length_modify ..
  have hlast : (s.kill c).last = s.last := by rw [State.last, State.last, hlen]
  have hown : ∀ x, s.Own x → (s.kill c).Own x := by
    intro x hx
    rw [State.Own, hlast]
    exact hx
  refine ⟨h.zero, ?_, ?_, fun st hst => hown _ (h.serving st hst), fun what r hr => ?_, h.resets, ?_⟩
  · rw [hlen]
    exact h.table
  · rw [hlen]
    exact h.recv
  · exact ⟨hown _ (h.own what r hr).1, hown _ (h.own what r hr).2⟩
  · intro hresets st hst halive hrefused
    rw [hlast] at halive ⊢
    apply h.kept hresets st hst ?_ hrefused
    -- what is alive now was alive before
    simp only [State.kill, List.getElem?_modify] at halive
    cases hx : s.conns[s.last]? with
    | none =>
      rw [hx] at halive
      cases halive
    | some x =>
      rw [hx] at halive
      by_cases hc : c = s.last
      · simp [hc] at halive
      · simpa [hc] using halive

theorem State.length_closeFd (s : State) (fd : ℕ) : (s.closeFd fd).conns.length = s.conns.length := by
  unfold State.closeFd
  split
  · rfl
  · exact List.length_modify ..

/-- A descriptor is what it was, unless it is the one closed. -/
theorem State.table_closeFd (s : State) (fd fd' : ℕ) :
    (s.closeFd fd).table fd' = s.table fd' ∨ (s.closeFd fd).table fd' = none := by
  unfold State.closeFd
  split
  · exact .inl rfl
  · by_cases hfd : fd' = fd
    · right
      simp only [hfd, Function.update_self]
    · left
      simp only [Function.update_of_ne hfd]

theorem State.table_closeFd_of_none {s : State} {fd' : ℕ} (h : s.table fd' = none) (fd : ℕ) :
    (s.closeFd fd).table fd' = none := by
  rcases s.table_closeFd fd fd' with hfd | hfd
  · exact hfd.trans h
  · exact hfd

theorem State.recv_closeFd (s : State) (fd : ℕ) : (s.closeFd fd).recv = s.recv := by
  unfold State.closeFd
  split <;> rfl

theorem State.sync_closeFd (s : State) (fd : ℕ) : (s.closeFd fd).sync = s.sync := by
  unfold State.closeFd
  split <;> rfl

theorem State.resets_closeFd (s : State) (fd : ℕ) : (s.closeFd fd).resets = s.resets := by
  unfold State.closeFd
  split <;> rfl

/-- An unknown message: `connected` is set to 0, and the connection to the peer closed. -/
theorem Inv.refuse (h : Inv s) (fd : ℕ) : Inv { s.closeFd fd with connected := 0, refused := true } := by
  have hlast : (s.closeFd fd).last = s.last := by rw [State.last, State.last, State.length_closeFd]
  have hzero : (s.closeFd fd).table 0 = none := State.table_closeFd_of_none h.zero fd
  refine ⟨hzero, ?_, ?_, fun _ _ => .inr ⟨hzero, rfl⟩, ?_, ?_, fun _ _ _ _ hrefused => by cases hrefused⟩
  · intro fd' c hc
    rw [State.length_closeFd]
    rcases s.table_closeFd fd fd' with hfd | hfd
    · exact h.table fd' c (hfd.symm.trans hc)
    · rw [hfd] at hc
      cases hc
  · intro what r hr c hc
    rw [State.length_closeFd]
    exact h.recv what r ((s.recv_closeFd fd).symm.trans hr) c hc
  · intro what r hr
    have hr' := h.own what r ((s.sync_closeFd fd).symm.trans hr)
    refine ⟨hr'.1.of_zero hlast rfl, ?_⟩
    rcases s.table_closeFd fd r.fd with hfd | hfd
    · rw [hfd]
      exact hr'.2.of_zero hlast rfl
    · exact .inr ⟨hfd, rfl⟩
  · rw [State.resets_closeFd]
    exact h.resets

/-- A connection is accepted. -/
theorem Inv.accept (h : Inv s) {fd : ℕ} (hfd : fd ≠ 0) :
    Inv { s with
      conns := s.conns ++ [⟨true, true⟩], table := Function.update s.table fd (some s.conns.length), connected := fd,
      refused := false, sync := .serving (.before .prologue) } := by
  have hlen : (s.conns ++ [(⟨true, true⟩ : Conn)]).length = s.conns.length + 1 := by simp
  have hnew : ∀ st, Function.update s.table fd (some s.conns.length) fd =
      some ({ s with conns := s.conns ++ [⟨true, true⟩], sync := st } : State).last := by
    intro st
    rw [Function.update_self, State.last, hlen, Nat.add_sub_cancel]
  refine ⟨?_, ?_, ?_, fun _ _ => .inl (hnew s.sync), ?_, h.resets, fun _ _ _ _ _ => hnew s.sync⟩
  · exact (Function.update_of_ne hfd.symm ..).trans h.zero
  · intro fd' c hc
    rw [hlen]
    change Function.update s.table fd (some s.conns.length) fd' = some c at hc
    by_cases hne : fd' = fd
    · rw [hne, Function.update_self] at hc
      cases hc
      exact Nat.lt_succ_self _
    · rw [Function.update_of_ne hne] at hc
      exact Nat.lt_succ_of_lt (h.table fd' c hc)
  · intro what r hr c hc
    rw [hlen]
    exact Nat.lt_succ_of_lt (h.recv what r hr c hc)
  · intro what r hr
    cases hr

/-- The end of what a receiver reads is recorded as its own. -/
theorem State.notMem_resets_reset {who who' : Receiver} (hne : who' ≠ who) (h : who' ∉ s.resets) (r : Reading) :
    who' ∉ (s.reset who r).resets := by
  simp only [State.reset, State.stop]
  cases who <;> (split_ifs <;> simp [hne, h])

/-- The end of what `recv_syncs` reads. -/
theorem Inv.endRecv (h : Inv s) {what : What} {r : Reading} (hr : s.recv = .running (.reading what r))
    (hover : s.isOver r = true) : Inv (s.reset .recvSyncs r) := by
  have hne : Receiver.synchronize ≠ .recvSyncs := by
    intro h
    cases h
  refine ⟨h.zero, h.table, ?_, fun _ _ => .inr ⟨h.zero, rfl⟩, fun what r hr => ?_,
    State.notMem_resets_reset hne h.resets r, ?_⟩
  · intro what r hr
    cases hr
  · exact ⟨(h.own what r hr).1.of_zero rfl rfl, (h.own what r hr).2.of_zero rfl rfl⟩
  · intro hresets st hst halive hrefused
    simp only [State.reset, State.stop] at hresets
    split_ifs at hresets with htakes
    · simp at hresets
    · -- `connected` was the connection served, which is alive: so it is not the one read from
      have hserved := h.kept hresets st hst halive hrefused
      change s.conns[s.last]? = some ⟨true, true⟩ at halive
      exfalso
      apply htakes
      rw [State.takes, hserved]
      simp only [halive, decide_true, Bool.true_and]
      cases hconn : r.conn with
      | none => rfl
      | some c =>
        have hlt := h.recv what r hr c hconn
        have hne : c ≠ s.last := by
          rintro rfl
          simp [State.isOver, hconn, halive] at hover
        rw [State.last] at hne ⊢
        simp only [decide_eq_true_eq]
        omega

/-- The end of what `synchronize` reads takes `connected` away from none that was accepted later. -/
theorem Inv.takes_eq_false (h : Inv s) {what : What} {r : Reading} (hr : s.sync = .serving (.reading what r)) :
    s.takes r = false := by
  unfold State.takes
  rcases h.serving _ hr with hconn | ⟨hconn, -⟩
  · have hne : s.connected ≠ 0 := by
      intro hzero
      rw [hzero, h.zero] at hconn
      cases hconn
    rcases (h.own what r hr).1 with hr | ⟨-, hzero⟩
    · simp [hconn, hr]
    · exact absurd hzero hne
  · rw [hconn]

/-- The end of what `synchronize` reads. -/
theorem Inv.endSync (h : Inv s) {what : What} {r : Reading} (hr : s.sync = .serving (.reading what r)) :
    Inv (s.reset .synchronize r) := by
  have hsame : (if s.takes r then Receiver.synchronize :: s.resets else s.resets) = s.resets := by
    rw [h.takes_eq_false hr]
    rfl
  refine ⟨h.zero, h.table, h.recv, ?_, ?_, ?_, ?_⟩
  · intro st hst
    cases hst
  · intro what r hr
    cases hr
  · simp only [State.reset, State.stop, hsame]
    exact h.resets
  · intro _ st hst
    cases hst

/-- A receiver calls `read` with a number that was `connected` when it looked. -/
theorem Inv.reading (h : Inv s) {who : Receiver} {st : Stage} (hst : s.stage who = some st) (what : What) {fd : ℕ}
    (hfd : who = .synchronize → s.Own (s.table fd)) : Inv (s.goto (.reading what ⟨fd, s.table fd⟩) who) := by
  cases who with
  | recvSyncs =>
    refine h.setRecv fun what' r hr c hc => ?_
    injection hr with hr
    injection hr with _ hr
    subst hr
    exact h.table fd c hc
  | synchronize =>
    refine h.setStage (State.stage_synchronize hst) fun what' r hr => ?_
    injection hr with _ hr
    subst hr
    exact ⟨hfd rfl, hfd rfl⟩

/-- A receiver has got an unknown message. -/
theorem Inv.refuses (h : Inv s) {who : Receiver} {st : Stage} (hst : s.stage who = some st) (fd : ℕ) :
    Inv ({ s.closeFd fd with connected := 0, refused := true }.goto (.before .prologue) who) := by
  have hst' : ({ s.closeFd fd with connected := 0, refused := true } : State).stage who = some st := by
    rw [← hst]
    exact State.stage_congr (s.recv_closeFd fd) (s.sync_closeFd fd) who
  exact (h.refuse fd).before hst' .prologue

/-- **One step.** -/
theorem Inv.step (h : Inv s) {act : Act} {s' : State} (hstep : step conf s act = .ok s') : Inv s' := by
  cases step_effect hstep with
  | none => exact h
  | connects => exact h.setSync conf.peerfdOut fun st hst => by cases hst
  | fails => exact h.setSync s.connected fun st hst => by cases hst
  | starts =>
    have hsync : Inv { s with sync := .accepting } := h.setSync s.connected fun st hst => by cases hst
    exact hsync.setRecv fun what r hr => by cases hr
  | accepts hfd => exact h.accept hfd
  | dies c => exact h.kill c
  | returns hst what => exact h.before hst what
  | @latches who what hst => exact h.reading hst what fun hwho => h.serving _ (State.stage_synchronize (hwho ▸ hst))
  | @goesOn who what r hst =>
    exact h.reading hst what fun hwho => (h.own what r (State.stage_synchronize (hwho ▸ hst))).2
  | refuses hst => exact h.refuses hst conf.peerfdOut
  | @ends who what r hst hover =>
    cases who with
    | recvSyncs => exact h.endRecv (State.stage_recvSyncs hst) hover
    | synchronize => exact h.endSync (State.stage_synchronize hst)

/-- **A whole run.** -/
theorem inv_run {acts : List Act} (hrun : acts.foldlM (Connected.step conf) (start conf) = .ok s) : Inv s :=
  foldlM_preserves Inv (fun _ _ _ h hstep => h.step hstep) (inv_start conf) hrun

end

/-! ### A daemon without `recv_syncs` -/

/-- `recv_syncs` is not started, and will not be. -/
structure Unborn (conf : Conf) (s : State) : Prop where
  /-- It is not started. -/
  recv : s.recv = .unborn
  /-- It has taken `connected` away from none. -/
  resets : .recvSyncs ∉ s.resets
  /-- The daemon stops at the assertion, or has not connected. -/
  never : conf.ndebug = false ∨ (s.conns[0]?).map Conn.alive = some false ∧ s.sync ≠ .rotating

section

variable {conf : Conf} {s : State}

theorem unborn_start (h : conf.ndebug = false ∨ conf.reachable = false) : Unborn conf (start conf) where
  recv := rfl
  resets := List.not_mem_nil
  never := by
    refine h.imp_right fun hreach => ⟨?_, ?_⟩
    · simp [start, hreach]
    · intro hsync
      cases hsync

/-- A connection that has ended does not come back. -/
theorem State.dead_kill {s : State} {i : ℕ} (h : (s.conns[i]?).map Conn.alive = some false) (c : ℕ) :
    ((s.kill c).conns[i]?).map Conn.alive = some false := by
  obtain ⟨x, hx, halive⟩ := Option.map_eq_some_iff.mp h
  simp only [State.kill, List.getElem?_modify, hx]
  by_cases hc : c = i
  · simp [hc]
  · simpa [hc] using halive

theorem State.dead_closeFd {s : State} {i : ℕ} (h : (s.conns[i]?).map Conn.alive = some false) (fd : ℕ) :
    ((s.closeFd fd).conns[i]?).map Conn.alive = some false := by
  unfold State.closeFd
  split
  · exact h
  · exact State.dead_kill h _

/-- Only `synchronize` receives. -/
theorem Unborn.who_eq (h : Unborn conf s) {who : Receiver} {st : Stage} (hst : s.stage who = some st) :
    who = .synchronize := by
  cases who with
  | recvSyncs =>
    have hrecv := State.stage_recvSyncs hst
    rw [h.recv] at hrecv
    cases hrecv
  | synchronize => rfl

/-- `synchronize` goes on. -/
theorem Unborn.goto (h : Unborn conf s) {who : Receiver} {st : Stage} (hst : s.stage who = some st) (st' : Stage) :
    Unborn conf (s.goto st' who) := by
  rw [h.who_eq hst]
  refine ⟨h.recv, h.resets, h.never.imp_right fun hdead => ⟨hdead.1, ?_⟩⟩
  intro hsync
  cases hsync

/-- `synchronize` is not about to start it. -/
theorem Unborn.of_sync (h : Unborn conf s) {s' : State} (hrecv : s'.recv = s.recv) (hresets : .recvSyncs ∉ s'.resets)
    (hdead : (s.conns[0]?).map Conn.alive = some false → (s'.conns[0]?).map Conn.alive = some false)
    (hsync : s'.sync ≠ .rotating) : Unborn conf s' :=
  ⟨hrecv.trans h.recv, hresets, h.never.imp_right fun hnever => ⟨hdead hnever.1, hsync⟩⟩

theorem Unborn.step (h : Unborn conf s) {act : Act} {s' : State} (hstep : step conf s act = .ok s') : Unborn conf s' := by
  cases step_effect hstep with
  | none => exact h
  | connects halive =>
    refine ⟨h.recv, h.resets, h.never.imp_right fun hnever => ?_⟩
    rw [hnever.1] at halive
    cases halive
  | fails => exact h.of_sync rfl h.resets id fun hsync => by cases hsync
  | starts hsync hndebug =>
    rcases h.never with hassert | hnever
    · rw [hassert] at hndebug
      cases hndebug
    · exact absurd hsync hnever.2
  | accepts =>
    refine h.of_sync rfl h.resets (fun hdead => ?_) fun hsync => by cases hsync
    obtain ⟨x, hx, halive⟩ := Option.map_eq_some_iff.mp hdead
    have hlt := (List.getElem?_eq_some_iff.mp hx).1
    simp only [List.getElem?_append_left hlt, hx, Option.map_some, halive]
  | dies c => exact ⟨h.recv, h.resets, h.never.imp_right fun hnever => ⟨State.dead_kill hnever.1 c, hnever.2⟩⟩
  | returns hst what => exact h.goto hst (.before what)
  | latches hst => exact h.goto hst _
  | goesOn hst => exact h.goto hst _
  | refuses hst =>
    obtain rfl := h.who_eq hst
    refine h.of_sync (s.recv_closeFd conf.peerfdOut) ?_ (fun hdead => State.dead_closeFd hdead conf.peerfdOut) ?_
    · simp only [State.goto, State.resets_closeFd]
      exact h.resets
    · intro hsync
      cases hsync
  | @ends who what r hst hover =>
    obtain rfl := h.who_eq hst
    refine h.of_sync rfl (State.notMem_resets_reset ?_ h.resets r) id fun hsync => by cases hsync
    intro hwho
    cases hwho

theorem unborn_run {acts : List Act} (h : conf.ndebug = false ∨ conf.reachable = false)
    (hrun : acts.foldlM (Connected.step conf) (start conf) = .ok s) : Unborn conf s :=
  foldlM_preserves (Unborn conf) (fun _ _ _ h hstep => h.step hstep) (unborn_start h) hrun

/-- As long as `recv_syncs` does not take `connected` away from a live connection accepted later,
nobody does, and `connected` is kept. -/
theorem Inv.kept_of_recvSyncs (h : Inv s) (hresets : .recvSyncs ∉ s.resets) : s.resets = [] ∧ s.Kept := by
  refine ⟨?_, h.kept hresets⟩
  rw [List.eq_nil_iff_forall_not_mem]
  intro who
  cases who with
  | recvSyncs => exact hresets
  | synchronize => exact h.resets

/-- The daemon connects, and waits for what the peer will say. The peer connects, and then ends the first
connection. -/
def overlap (conf : Conf) : List Act :=
  [.connect, .rotate, .latch .recvSyncs, .gotConfig true, .latch .recvSyncs, .accept (conf.peerfdOut + 1), .close 0,
    .ended .recvSyncs]

/-- The second connection is alive and served, and `connected` is 0. -/
theorem overlap_run (hndebug : conf.ndebug = true) (hreach : conf.reachable = true) :
    ∃ s, (overlap conf).foldlM (Connected.step conf) (start conf) = .ok s ∧ s.conns[1]? = some ⟨true, true⟩ ∧
      s.sync = .serving (.before .prologue) ∧ s.connected = 0 ∧ s.resets = [.recvSyncs] := by
  refine ⟨⟨[⟨false, false⟩, ⟨true, true⟩],
    Function.update (Function.update (fun _ => none) conf.peerfdOut (some 0)) (conf.peerfdOut + 1) (some 1), 0, false,
    .serving (.before .prologue), .gone, [.recvSyncs]⟩, ?_, rfl, rfl, rfl, rfl⟩
  simp [overlap, Connected.step, start, hndebug, hreach, ok_bind, State.stage, State.goto, State.kill, State.isOver,
    State.takes, State.reset, State.stop]

/-- In every run, `connected` is never taken away from a live accepted connection by the end of an
older one, and so is the connection that `synchronize` serves: exactly if the daemon was built with
assertions, which then stop it once it has connected, or could not connect to its peer. -/
theorem connected_kept_iff (conf : Conf) :
    (∀ (acts : List Act) (s : State), acts.foldlM (Connected.step conf) (start conf) = .ok s →
        s.resets = [] ∧ s.Kept) ↔ conf.ndebug = false ∨ conf.reachable = false := by
  constructor
  · intro h
    by_contra hboth
    rw [not_or, Bool.not_eq_false, Bool.not_eq_false] at hboth
    obtain ⟨s, hrun, -, -, -, hresets⟩ := overlap_run hboth.1 hboth.2
    have hnone := (h (overlap conf) s hrun).1
    rw [hresets] at hnone
    cases hnone
  · intro hconf acts s hrun
    exact (inv_run hrun).kept_of_recvSyncs (unborn_run hconf hrun).resets

/-- A daemon built without assertions, whose peer is up. -/
def releaseConf : Conf := ⟨true, true, 5, by decide⟩

/-- The peer has connected, and has then ended the connection that the daemon had made. Its own is alive,
and `connected` is 0. -/
theorem connected_lost :
    ∃ s, (overlap releaseConf).foldlM (Connected.step releaseConf) (start releaseConf) = .ok s ∧
      s.conns = [⟨false, false⟩, ⟨true, true⟩] ∧ s.sync = .serving (.before .prologue) ∧ s.refused = false ∧
      s.connected = 0 ∧ s.resets = [.recvSyncs] :=
  ⟨_, rfl, rfl, rfl, rfl, rfl, rfl⟩

end

end Gross.Sync.Connected
