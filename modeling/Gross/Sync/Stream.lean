import Gross.Sync.Receive

/-!
# A node and a whole stream

`recv_syncs` checks the peer's configuration and then receives messages until
the stream ends, while the delay thread and `bloommgr` work on what it queues.
This module runs the three together, in every order their steps can take.

## What is proved

A stream *is served* (`Served`) when, however the threads take turns, no
assertion fails and `bloommgr` merges the chunks and rebuilds the aggregate in
the order the messages came in: each `AGGREGATE_SYNC` gives one rebuild, after
all chunks that came before it. `served_iff` says which streams are: those with
no `AGGREGATE_SYNC` in them. At the first one `recv_sync_msg` hands `instant_msg`
a size of zero, and the assertion of `Malloc` stops the daemon.

## The argument

Without an `AGGREGATE_SYNC` every message queued is a chunk that fits or a
digest (`Inv`), and neither fails in `bloommgr`, the lost last words
notwithstanding; chunks go straight to the outer queue, so they stay in order.

## Honest scope

The peer conforms: its configuration is ours, and each chunk lies inside a
member. `recv_sync_msg` is one step, as the queue it adds to is the only thing
it shares. A receiver that waits for a message not yet sent is one whose next
step is late.
-/

namespace Gross.Sync

open Foundation Bloom

/-! ### The threads -/

/-- How far `recv_syncs` is. -/
inductive Phase where
  /-- It waits for the configuration. -/
  | config
  /-- It receives messages. -/
  | syncing
  /-- It has returned. -/
  | returned
  deriving DecidableEq, Repr

/-- The state of `recv_syncs`, and what it shares with the other threads. -/
structure Receiving where
  /-- How far `recv_syncs` is. -/
  phase : Phase
  /-- The node. -/
  node : Node

/-- A step of one of the threads. -/
inductive Act where
  /-- `recv_syncs` receives, with what its automatic variables hold. -/
  | recv (loc : Locals)
  /-- The delay thread takes a message from the inner queue. -/
  | take
  /-- The delay thread passes it to the outer queue. -/
  | pass
  /-- `bloommgr` takes a message and does what it says. -/
  | manage (clock : Clock)

/-- `recv_config_sync`, on a node with configuration `conf`. -/
def recvConfigSync (e : Endian) (conf : SyncConfig) (n : Node) : Except Fault Node :=
  let (buf, ret, stream) := readn n.stream (bytesOf e 0 ++ bytesOf e 0) syncConfigBytes
  if ret = 0 then .error .exit
  else if ntohl e (wordAt e buf 0) = conf.filterSize ∧ ntohl e (wordAt e buf 4) = conf.numBufs then
    .ok { n with stream := stream }
  else .error .exit

/-- A step. One that cannot be taken changes nothing. -/
def Receiving.act (e : Endian) (conf : SyncConfig) (s : Receiving) : Act → Except Fault Receiving
  | .recv loc =>
    match s.phase with
    | .config => do return ⟨.syncing, ← recvConfigSync e conf s.node⟩
    | .syncing => do
      let (ret, node) ← recvSyncMsg e loc s.node
      return ⟨if ret = 0 then .returned else .syncing, node⟩
    | .returned => .ok s
  | .take =>
    match s.node.hand, s.node.inq with
    | none, m :: inq => .ok { s with node := { s.node with hand := some m, inq := inq } }
    | _, _ => .ok s
  | .pass =>
    match s.node.hand with
    | some m => .ok { s with node := { s.node with hand := none, outq := s.node.outq ++ [m] } }
    | none => .ok s
  | .manage clock => do return { s with node := ← bloommgr e clock s.node }

/-- A run of the threads. -/
def Receiving.run (e : Endian) (conf : SyncConfig) (s : Receiving) (acts : List Act) : Except Fault Receiving :=
  acts.foldlM (Receiving.act e conf) s

/-! ### What a stream asks for -/

/-- What is to be done in order: merging the chunks, and rebuilding the aggregate. -/
inductive Mark where
  /-- A chunk for a place in a member. -/
  | chunk (buffer index : Word)
  /-- The rebuilding of the aggregate. -/
  | aggregate
  deriving DecidableEq, Repr

/-- What a message asks for. -/
def PeerMsg.mark : PeerMsg → Option Mark
  | .startup ss => some (.chunk ss.buffer ss.index)
  | .oper _ => none
  | .aggregate => some .aggregate

/-- What a command does. -/
def Command.mark : Command → Option Mark
  | .absoluteUpdate ss => some (.chunk ss.buffer ss.index)
  | .syncAggregate => some .aggregate
  | _ => none

/-- A message that a peer with such a ring can send. -/
def PeerMsg.Fits (num nb : ℕ) : PeerMsg → Prop
  | .startup ss => ss.Fits num nb
  | _ => True

/-- What a peer writes: its configuration, and the messages. -/
def peerStream (e : Endian) (conf : SyncConfig) (msgs : List PeerMsg) : List Byte :=
  sendSyncConfig e conf ++ msgs.flatMap (PeerMsg.send e)

/-- The messages of a peer of byte order `e` are served by a node of byte order
`e'`: in no run does a thread stop the daemon, what is done is done in order, and
once all is read and nothing is queued, all is done. -/
def Served (e e' : Endian) (conf : SyncConfig) (ctx : Ctx) (message : UpdateMessage) (msgs : List PeerMsg) : Prop :=
  ∀ acts, ∃ s, Receiving.run e' conf ⟨.config, Node.start ctx message (peerStream e conf msgs)⟩ acts = .ok s ∧
    s.node.log.filterMap Command.mark <+: msgs.filterMap PeerMsg.mark ∧
    (s.node.stream = [] → s.node.outq = [] → s.node.log.filterMap Command.mark = msgs.filterMap PeerMsg.mark)

/-! ### Streams without an end of chunks -/

/-- The message that is queued for a digest or a chunk. -/
def PeerMsg.queued (e : Endian) : PeerMsg → List Byte
  | .startup ss => queuedStartup e ss
  | .oper d => queuedOper e d
  | .aggregate => []

/-- What is unread: the messages `todo`, after the configuration if that is unread
too. -/
def Unread (e : Endian) (conf : SyncConfig) (s : Receiving) (todo : List PeerMsg) : Prop :=
  match s.phase with
  | .config => s.node.stream = peerStream e conf todo
  | .syncing | .returned => s.node.stream = todo.flatMap (PeerMsg.send e)

/-- The state when the messages `done` have been received and `todo` have not. -/
structure Inv (e e' : Endian) (conf : SyncConfig) (num nb : ℕ) (s : Receiving) (done todo : List PeerMsg) : Prop where
  /-- The ring is well formed. -/
  wf : s.node.ctx.filter.WF num nb
  /-- The messages to come lie in the stream. -/
  unread : Unread e conf s todo
  /-- The inner queue has digests. -/
  inq : ∀ m ∈ s.node.inq, ∃ d, m = queuedOper e' d
  /-- So has the delay thread. -/
  hand : ∀ m ∈ s.node.hand, ∃ d, m = queuedOper e' d
  /-- The outer queue has what is still to be done of what was received. -/
  outq : ∃ qs : List PeerMsg, s.node.outq = qs.map (PeerMsg.queued e') ∧
    (∀ q ∈ qs, q.Fits num nb ∧ q ≠ .aggregate) ∧
    s.node.log.filterMap Command.mark ++ qs.filterMap PeerMsg.mark = done.filterMap PeerMsg.mark

variable {e e' : Endian} {conf : SyncConfig} {num nb : ℕ} {s : Receiving} {done todo : List PeerMsg}

/-- A configuration sent is the configuration read back. -/
theorem ntohl_wordAt_sendSyncConfig (e e' : Endian) (conf : SyncConfig) :
    ntohl e' (wordAt e' (sendSyncConfig e conf) 0) = conf.filterSize ∧
      ntohl e' (wordAt e' (sendSyncConfig e conf) 4) = conf.numBufs := by
  have hwords : sendSyncConfig e conf = bytesOfWords e ([conf.filterSize, conf.numBufs].map (htonl e)) := by
    simp [sendSyncConfig, bytesOfWords]
  have key := ntohl_wordAt_wire e e' [conf.filterSize, conf.numBufs]
  rw [hwords]
  exact ⟨key 0 (by simp), key 1 (by simp)⟩

/-- Reading the peer's configuration. -/
theorem recvConfigSync_peerStream (e e' : Endian) (conf : SyncConfig) (n : Node) (msgs : List PeerMsg)
    (hs : n.stream = peerStream e conf msgs) :
    recvConfigSync e' conf n = .ok { n with stream := msgs.flatMap (PeerMsg.send e) } := by
  have hread : readn n.stream (bytesOf e' 0 ++ bytesOf e' 0) syncConfigBytes =
      (sendSyncConfig e conf, syncConfigBytes, msgs.flatMap (PeerMsg.send e)) := by
    rw [hs]
    exact readn_append (by simp [sendSyncConfig, syncConfigBytes]) (by simp [syncConfigBytes])
  simp only [recvConfigSync, hread, ntohl_wordAt_sendSyncConfig, and_self, if_true]
  rfl

/-- Receiving a digest or a chunk. -/
theorem recvSyncMsg_send (e e' : Endian) (loc : Locals) (n : Node) (q : PeerMsg) (hq : q ≠ .aggregate)
    (rest : List Byte) (hs : n.stream = q.send e ++ rest) :
    ∃ n', recvSyncMsg e' loc n = .ok (1, n') ∧ n'.stream = rest ∧ n'.ctx = n.ctx ∧ n'.hand = n.hand ∧
      n'.log = n.log ∧
      ((n'.outq = n.outq ∧ q.mark = none ∧ ∃ d, n'.inq = n.inq ++ [queuedOper e' d]) ∨
        (n'.outq = n.outq ++ [q.queued e'] ∧ n'.inq = n.inq)) := by
  cases q with
  | startup ss => exact ⟨_, recvSyncMsg_startup e e' loc n ss rest hs, rfl, rfl, rfl, rfl, .inr ⟨rfl, rfl⟩⟩
  | oper d => exact ⟨_, recvSyncMsg_oper e e' loc n d rest hs, rfl, rfl, rfl, rfl, .inl ⟨rfl, rfl, d, rfl⟩⟩
  | aggregate => exact absurd rfl hq

/-- Nothing comes at the end of the stream. -/
theorem recvSyncMsg_nil (e : Endian) (loc : Locals) (n : Node) (hs : n.stream = []) :
    recvSyncMsg e loc n = .ok (0, { n with connected := false }) := by
  obtain ⟨stream, connected, inq, hand, outq, message, ctx, log⟩ := n
  cases hs
  rfl

/-- `bloommgr` on a message that was queued for a digest or a chunk that fits. -/
theorem bloommgr_queued {n : Node} (hwf : n.ctx.filter.WF num nb) (clock : Clock) {q : PeerMsg} (hq : q ≠ .aggregate)
    (hfits : q.Fits num nb) {outq : List (List Byte)} (hout : n.outq = q.queued e' :: outq) :
    ∃ n' cmd, bloommgr e' clock n = .ok n' ∧ n'.ctx.filter.WF num nb ∧ n'.stream = n.stream ∧ n'.inq = n.inq ∧
      n'.hand = n.hand ∧ n'.outq = outq ∧ n'.log = n.log ++ [cmd] ∧ Command.mark cmd = q.mark := by
  cases q with
  | aggregate => exact absurd rfl hq
  | oper d =>
    have hexec := n.ctx.execute_local ⟨n.ctx.filter, hwf⟩ rfl
      (show (Command.updateOper { d with h7 := wordAt e' n.message.bytes 32 }).isLocal = true from rfl)
    exact ⟨_, _, bloommgr_cons hout (command_queuedOper e' clock n.message d) hexec, Ring.wf _, rfl, rfl, rfl, rfl,
      rfl, rfl⟩
  | startup ss =>
    -- the last word is not the one sent, but the place of the chunk is
    obtain ⟨r', hr', hwf', -⟩ := insertAbsoluteBloomRingQueue_ok hwf
      (show ({ ss with filter := ss.filter.set 31 (wordAt e' n.message.bytes 136) } : StartupSync).Fits num nb from
        ⟨hfits.buffer, hfits.index⟩)
    have hexec : n.ctx.execute
        (.absoluteUpdate { ss with filter := ss.filter.set 31 (wordAt e' n.message.bytes 136) }) =
        .ok { n.ctx with filter := r' } := by
      simp only [Ctx.execute, hr']
      rfl
    exact ⟨_, _, bloommgr_cons hout (command_queuedStartup e' clock n.message ss) hexec, hwf', rfl, rfl, rfl, rfl,
      rfl, rfl⟩

/-- A message that `recv_sync_msg` finds is done with, and queued. -/
theorem Inv.recvMsg {n : Node} {q : PeerMsg} (h : Inv e e' conf num nb ⟨.syncing, n⟩ done (q :: todo))
    (hfits : q.Fits num nb) (hq : q ≠ .aggregate) (loc : Locals) :
    ∃ n', Receiving.act e' conf ⟨.syncing, n⟩ (.recv loc) = .ok ⟨.syncing, n'⟩ ∧
      Inv e e' conf num nb ⟨.syncing, n'⟩ (done ++ [q]) todo := by
  obtain ⟨n', hrecv, hstream, hctx, hhand, hlog, hcases⟩ := recvSyncMsg_send e e' loc n q hq _ h.unread
  obtain ⟨qs, hqs, hall, hmarks⟩ := h.outq
  refine ⟨n', ?_, ⟨?_, hstream, ?_, ?_, ?_⟩⟩
  · simp only [Receiving.act, hrecv, ok_bind]
    rfl
  · rw [hctx]
    exact h.wf
  · rcases hcases with ⟨-, -, d, hinq⟩ | ⟨-, hinq⟩
    · intro m hm
      rw [hinq] at hm
      rcases List.mem_append.mp hm with hm | hm
      · exact h.inq m hm
      · exact ⟨d, List.mem_singleton.mp hm⟩
    · rw [hinq]
      exact h.inq
  · rw [hhand]
    exact h.hand
  · rcases hcases with ⟨hout, hmark, -⟩ | ⟨hout, -⟩
    · refine ⟨qs, hout.trans hqs, hall, ?_⟩
      rw [hlog, hmarks, List.filterMap_append, List.filterMap_cons, hmark]
      simp
    · refine ⟨qs ++ [q], ?_, ?_, ?_⟩
      · rw [hout, hqs]
        simp
      · intro p hp
        rcases List.mem_append.mp hp with hp | hp
        · exact hall p hp
        · rw [List.mem_singleton.mp hp]
          exact ⟨hfits, hq⟩
      · rw [hlog, List.filterMap_append, ← List.append_assoc, hmarks, List.filterMap_append]

/-- A step of `recv_syncs`. -/
theorem Inv.recv (h : Inv e e' conf num nb s done todo) (hto : ∀ q ∈ todo, q.Fits num nb ∧ q ≠ .aggregate)
    (loc : Locals) :
    ∃ s' done' todo', s.act e' conf (.recv loc) = .ok s' ∧ Inv e e' conf num nb s' done' todo' ∧
      done' ++ todo' = done ++ todo := by
  obtain ⟨phase, n⟩ := s
  have hun := h.unread
  cases phase with
  | config =>
    refine ⟨⟨.syncing, { n with stream := todo.flatMap (PeerMsg.send e) }⟩, done, todo, ?_,
      ⟨h.wf, rfl, h.inq, h.hand, h.outq⟩, rfl⟩
    simp only [Receiving.act, recvConfigSync_peerStream e e' conf n todo hun]
    rfl
  | returned => exact ⟨_, done, todo, rfl, h, rfl⟩
  | syncing =>
    cases todo with
    | nil =>
      refine ⟨⟨.returned, { n with connected := false }⟩, done, [], ?_, ⟨h.wf, hun, h.inq, h.hand, h.outq⟩, rfl⟩
      simp only [Receiving.act, recvSyncMsg_nil e' loc n hun]
      rfl
    | cons q todo =>
      obtain ⟨hfits, hq⟩ := hto q (List.mem_cons_self ..)
      obtain ⟨n', hact, hinv⟩ := h.recvMsg hfits hq loc
      exact ⟨_, done ++ [q], todo, hact, hinv, by simp⟩

/-- A message that the delay thread takes. -/
theorem Inv.take (h : Inv e e' conf num nb s done todo) :
    ∃ s', s.act e' conf .take = .ok s' ∧ Inv e e' conf num nb s' done todo := by
  obtain ⟨phase, n⟩ := s
  cases hhand : n.hand with
  | some m => exact ⟨⟨phase, n⟩, by simp only [Receiving.act, hhand], h⟩
  | none =>
    cases hinq : n.inq with
    | nil => exact ⟨⟨phase, n⟩, by simp only [Receiving.act, hhand, hinq], h⟩
    | cons m inq =>
      have hin : ∀ m' ∈ m :: inq, ∃ d, m' = queuedOper e' d := hinq ▸ h.inq
      refine ⟨⟨phase, { n with hand := some m, inq := inq }⟩, by simp only [Receiving.act, hhand, hinq],
        ⟨h.wf, h.unread, fun m' hm' => hin m' (List.mem_cons_of_mem _ hm'), ?_, h.outq⟩⟩
      intro m' hm'
      cases hm'
      exact hin m (List.mem_cons_self ..)

/-- A digest that the delay thread passes on. -/
theorem Inv.pass (h : Inv e e' conf num nb s done todo) :
    ∃ s', s.act e' conf .pass = .ok s' ∧ Inv e e' conf num nb s' done todo := by
  obtain ⟨phase, n⟩ := s
  cases hhand : n.hand with
  | none => exact ⟨⟨phase, n⟩, by simp only [Receiving.act, hhand], h⟩
  | some m =>
    obtain ⟨d, rfl⟩ := h.hand m hhand
    obtain ⟨qs, hqs, hall, hmarks⟩ := h.outq
    refine ⟨⟨phase, { n with hand := none, outq := n.outq ++ [queuedOper e' d] }⟩,
      by simp only [Receiving.act, hhand], ⟨h.wf, h.unread, h.inq, fun m hm => (by cases hm),
        ⟨qs ++ [.oper d], ?_, ?_, ?_⟩⟩⟩
    · rw [show n.outq = _ from hqs]
      simp [PeerMsg.queued]
    · intro p hp
      rcases List.mem_append.mp hp with hp | hp
      · exact hall p hp
      · rw [List.mem_singleton.mp hp]
        exact ⟨trivial, by simp⟩
    · rw [List.filterMap_append, ← hmarks]
      simp [PeerMsg.mark]

/-- A message that `bloommgr` works on. -/
theorem Inv.manage (h : Inv e e' conf num nb s done todo) (clock : Clock) :
    ∃ s', s.act e' conf (.manage clock) = .ok s' ∧ Inv e e' conf num nb s' done todo := by
  obtain ⟨phase, n⟩ := s
  obtain ⟨qs, hqs, hall, hmarks⟩ := h.outq
  cases qs with
  | nil =>
    refine ⟨⟨phase, n⟩, ?_, h⟩
    simp only [Receiving.act, bloommgr, show n.outq = [] from hqs]
    rfl
  | cons q qs =>
    obtain ⟨hfits, hq⟩ := hall q (List.mem_cons_self ..)
    obtain ⟨n', cmd, hturn, hwf, hstream, hinq, hhand, hout, hlog, hmark⟩ := bloommgr_queued h.wf clock hq hfits hqs
    refine ⟨⟨phase, n'⟩, ?_, ⟨hwf, ?_, hinq ▸ h.inq, hhand ▸ h.hand,
      ⟨qs, hout, fun p hp => hall p (List.mem_cons_of_mem _ hp), ?_⟩⟩⟩
    · simp only [Receiving.act, hturn]
      rfl
    · have hun := h.unread
      unfold Unread at hun ⊢
      rw [hstream]
      exact hun
    · rw [← hmarks, hlog, List.filterMap_append, List.append_assoc, List.filterMap_cons, List.filterMap_cons, hmark]
      cases q.mark <;> rfl

/-- Every step keeps the account of what is done and what is not. -/
theorem Inv.act (h : Inv e e' conf num nb s done todo) (hto : ∀ q ∈ todo, q.Fits num nb ∧ q ≠ .aggregate) (a : Act) :
    ∃ s' done' todo', s.act e' conf a = .ok s' ∧ Inv e e' conf num nb s' done' todo' ∧
      done' ++ todo' = done ++ todo := by
  cases a with
  | recv loc => exact h.recv hto loc
  | take =>
    obtain ⟨s', hs', h'⟩ := h.take
    exact ⟨s', done, todo, hs', h', rfl⟩
  | pass =>
    obtain ⟨s', hs', h'⟩ := h.pass
    exact ⟨s', done, todo, hs', h', rfl⟩
  | manage clock =>
    obtain ⟨s', hs', h'⟩ := h.manage clock
    exact ⟨s', done, todo, hs', h', rfl⟩

theorem send_ne_nil (e : Endian) (q : PeerMsg) : q.send e ≠ [] := by
  intro h
  have hlen := congrArg List.length h
  cases q <;> simp [PeerMsg.send, sendStartupSync, sendOperSync, forcePeerAggregate, syncMsgBytes] at hlen

/-- When all is read there are no messages to come. -/
theorem Unread.eq_nil (h : Unread e conf s todo) (hs : s.node.stream = []) : todo = [] := by
  cases todo with
  | nil => rfl
  | cons q todo =>
    exfalso
    have hq := send_ne_nil e q
    unfold Unread at h
    rw [hs] at h
    split at h <;> simp [peerStream, hq] at h

/-- The state before anything is received. -/
theorem Inv.start {ctx : Ctx} (hwf : ctx.filter.WF num nb) (message : UpdateMessage) (msgs : List PeerMsg) :
    Inv e e' conf num nb ⟨.config, Node.start ctx message (peerStream e conf msgs)⟩ [] msgs :=
  ⟨hwf, rfl, fun m hm => (by cases hm), fun m hm => (by cases hm), ⟨[], rfl, fun q hq => (by cases hq), rfl⟩⟩

/-! ### The end of the chunks -/

/-- The receiver gets as far as the first `AGGREGATE_SYNC`, and there the daemon stops. -/
theorem run_aggregate (e e' : Endian) (conf : SyncConfig) (loc : Locals) (pre post : List PeerMsg)
    (hpre : .aggregate ∉ pre) (n : Node)
    (hs : n.stream = (pre ++ .aggregate :: post).flatMap (PeerMsg.send e)) :
    Receiving.run e' conf ⟨.syncing, n⟩ (List.replicate (pre.length + 1) (.recv loc)) = .error .assertion := by
  induction pre generalizing n with
  | nil =>
    have hrecv := recvSyncMsg_aggregate e e' loc n _ hs
    simp only [Receiving.run, List.length_nil, List.replicate_succ, List.foldlM_cons, Receiving.act, hrecv,
      error_bind]
  | cons q pre ih =>
    have hq : q ≠ .aggregate := fun h => hpre (h ▸ List.mem_cons_self ..)
    obtain ⟨n', hrecv, hstream, -⟩ := recvSyncMsg_send e e' loc n q hq _ hs
    have hstep : Receiving.act e' conf ⟨.syncing, n⟩ (.recv loc) = .ok ⟨.syncing, n'⟩ := by
      simp only [Receiving.act, hrecv, ok_bind]
      rfl
    rw [Receiving.run, List.length_cons, List.replicate_succ, List.foldlM_cons, hstep, ok_bind]
    exact ih (fun h => hpre (List.mem_cons_of_mem _ h)) n' hstream

/-- **Which streams are served**: those without an `AGGREGATE_SYNC`. -/
theorem served_iff (e e' : Endian) (conf : SyncConfig) (num nb : ℕ) (ctx : Ctx) (hwf : ctx.filter.WF num nb)
    (message : UpdateMessage) (msgs : List PeerMsg) (hfits : ∀ q ∈ msgs, q.Fits num nb) :
    Served e e' conf ctx message msgs ↔ .aggregate ∉ msgs := by
  constructor
  · intro hserved hmem
    obtain ⟨pre, post, rfl, hpre⟩ := List.eq_append_cons_of_mem hmem
    let loc : Locals := ⟨⟨0, 0, 0, 0, 0, 0, 0, 0⟩, message⟩
    obtain ⟨s, hrun, -⟩ := hserved (.recv loc :: List.replicate (pre.length + 1) (.recv loc))
    have hconf : Receiving.act e' conf
        ⟨.config, Node.start ctx message (peerStream e conf (pre ++ .aggregate :: post))⟩ (.recv loc) =
        .ok ⟨.syncing, Node.start ctx message ((pre ++ .aggregate :: post).flatMap (PeerMsg.send e))⟩ := by
      simp only [Receiving.act, recvConfigSync_peerStream e e' conf _ _
        (show (Node.start ctx message (peerStream e conf (pre ++ .aggregate :: post))).stream = _ from rfl)]
      rfl
    rw [Receiving.run, List.foldlM_cons, hconf, ok_bind] at hrun
    have herr := run_aggregate e e' conf loc pre post hpre
      (Node.start ctx message ((pre ++ .aggregate :: post).flatMap (PeerMsg.send e))) rfl
    rw [Receiving.run] at herr
    rw [herr] at hrun
    cases hrun
  · intro hmem acts
    have hto : ∀ q ∈ msgs, q.Fits num nb ∧ q ≠ .aggregate :=
      fun q hq => ⟨hfits q hq, fun h => hmem (h ▸ hq)⟩
    obtain ⟨s, hrun, done, todo, hinv, heq⟩ := foldlM_inv (Receiving.act e' conf)
      (fun s => ∃ done todo, Inv e e' conf num nb s done todo ∧ done ++ todo = msgs) acts
      (fun s a _ ⟨done, todo, hinv, heq⟩ => by
        obtain ⟨s', done', todo', hact, hinv', heq'⟩ := hinv.act
          (fun q hq => hto q (heq ▸ List.mem_append_right _ hq)) a
        exact ⟨s', hact, done', todo', hinv', heq'.trans heq⟩)
      ⟨[], msgs, Inv.start hwf message msgs, rfl⟩
    obtain ⟨qs, hqs, -, hmarks⟩ := hinv.outq
    refine ⟨s, hrun, ?_, fun hstream hout => ?_⟩
    · rw [← heq, List.filterMap_append, ← hmarks, List.append_assoc]
      exact List.prefix_append _ _
    · have hnil : qs = [] := List.map_eq_nil_iff.mp (hqs.symm.trans hout)
      rw [← heq, hinv.unread.eq_nil hstream, List.append_nil, ← hmarks, hnil]
      simp

/-- A chunk and a digest for one-word filters are served, by a node of the other
byte order. -/
theorem served_chunk_oper : Served .big .little ⟨5, 2⟩ ⟨10, 2, oneWordRing [0, 0] 0 0, 100, 1⟩ UpdateMessage.zero
    [.startup ⟨1, 0, Vector.replicate 32 7⟩, .oper ⟨1, 2, 3, 4, 5, 6, 7, 8⟩] := by
  have hwf : (oneWordRing [0, 0] 0 0).WF 2 5 := wf_oneWordRing rfl (by decide)
  refine (served_iff .big .little ⟨5, 2⟩ 2 5 ⟨10, 2, oneWordRing [0, 0] 0 0, 100, 1⟩ hwf _ _ ?_).mpr (by decide)
  intro q hq
  rcases List.mem_cons.mp hq with rfl | hq
  · exact ⟨by decide, by decide⟩
  · rw [List.mem_singleton.mp hq]
    trivial

/-- An `AGGREGATE_SYNC` alone: `recv_syncs` reads the configuration and the message,
and an assertion fails. -/
theorem run_aggregate_alone :
    Receiving.run .little ⟨5, 2⟩ ⟨.config, Node.start ⟨10, 2, oneWordRing [0, 0] 0 0, 100, 1⟩ UpdateMessage.zero
      (peerStream .little ⟨5, 2⟩ [.aggregate])⟩
      [.recv ⟨⟨0, 0, 0, 0, 0, 0, 0, 0⟩, UpdateMessage.zero⟩, .recv ⟨⟨0, 0, 0, 0, 0, 0, 0, 0⟩, UpdateMessage.zero⟩] =
      .error .assertion := by
  rfl

end Gross.Sync
