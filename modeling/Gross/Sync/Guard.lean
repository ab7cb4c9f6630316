import Gross.Sync.Cut

/-!
# The sync guard at startup

The daemon is to serve clients only when its filters are in sync. A semaphore
sees to that: `main` takes the sync guard for `bloommgr`, which posts it when the
ring is built, then takes it for `syncmgr`, and then waits for it. It is posted
for `syncmgr` where the peer cannot be reached, and by `bloommgr` when it has
carried out the peer's `SYNC_AGGREGATE`.

## The model

The threads are `main`, `bloommgr`, the delay thread, `syncmgr` and `recv_syncs`,
and a run is their steps in any order (`Act`). What the network does is an
argument of a step (`World`); of a stream only what `recv_sync_msg` makes of it is
left (`Arrival`, `recvSyncMsg_arrival`). `ndebug` says whether the daemon was
built without assertions. `released` counts the posts for `syncmgr`.

## What is proved

* `Daemon.step_cases` — what a step can do; the invariants rest on this alone.
* `Daemon.inv_run` — the value of the semaphore and the holds of the threads add up
  to one more than `released`, in every run. So `main` gets past its wait only if
  something was released.
* `never_released` — when the connection to the peer succeeds, nothing is
  released and `main` waits: the next step of `syncmgr` asks for a copy of no bytes,
  and the assertion of `Malloc` stops the daemon, before `recv_syncs` is started.
* `never_released_ndebug` — without assertions nothing is released either, however
  the connection ends, and `recv_syncs` returns all the same. A message of no bytes
  leaves the buffer of `bloommgr` as it was, so it is a `SYNC_AGGREGATE` only if the
  buffer held one from the start, when it had not been written.
* `guard_posted_iff` — for which builds and which buffers the guard is posted once by
  the time `recv_syncs` has returned, and for which `main` can get a post from
  wherever the daemon has got to: there are none for which both is so.

## Honest scope

The startup only: `main` does nothing after its wait. `queue_freeze` and what is
sent to a peer that connects are left out, as the guard is all that matters here.
`malloc` of no bytes returns a block.
-/

namespace Gross.Sync.Guard

open Foundation Bloom

/-! ### The threads -/

/-- What `recv_sync_msg` comes upon. -/
inductive Arrival where
  /-- Nothing, or an error. -/
  | lost
  /-- A chunk, or some of one. The message queued has this after its type. -/
  | chunk (text : List Byte)
  /-- A digest, or some of one. -/
  | digest (text : List Byte)
  /-- An `AGGREGATE_SYNC`. -/
  | aggregate
  /-- A message of an unknown type. -/
  | unknown

/-- What `synchronize` comes to when it connects to the peer. -/
inductive Connect where
  /-- `syncmgr` has no socket to listen on, and exits. -/
  | noSocket
  /-- `daemon_fatal`. -/
  | fatal
  /-- `connect` fails. -/
  | refused
  /-- `connect` succeeds. -/
  | accepted
  deriving DecidableEq, Repr

/-- What `accept` gives. -/
inductive Accept where
  /-- A connection that is not from the peer. -/
  | stranger
  /-- A connection from the peer. -/
  | peer
  /-- An error. -/
  | failed
  deriving DecidableEq, Repr

/-- What the world adds to a step. -/
structure World where
  /-- What `update` or `rotatecmd` holds. -/
  update : UpdateMessage
  /-- For `synchronize`. -/
  connect : Connect
  /-- For its loop. -/
  accept : Accept
  /-- The peer's configuration arrives, and is right. -/
  config : Bool
  /-- For `recv_sync_msg`. -/
  arrival : Arrival

/-- How far `main` is. -/
inductive Main where
  /-- Before `bloommgr_init`. -/
  | bloommgrInit
  /-- Before `syncmgr_init`. -/
  | syncmgrInit
  /-- It waits for the filters to be in sync. -/
  | waiting
  /-- They are. -/
  | inSync
  /-- It has released the guard again. -/
  | started
  deriving DecidableEq, Repr

/-- How far a receiver is. -/
inductive Recv where
  /-- It does not exist yet. -/
  | unborn
  /-- It waits for the configuration. -/
  | config
  /-- It receives messages. -/
  | syncing
  /-- It waits for the guard, after a message of an unknown type. -/
  | guarding
  /-- It closes the connection, with the guard. -/
  | closing
  /-- Its loop has ended. -/
  | returned
  deriving DecidableEq, Repr

/-- How far `syncmgr` is. -/
inductive Syncmgr where
  /-- It does not exist yet. -/
  | unborn
  /-- It is about to connect. -/
  | starting
  /-- It is connected. -/
  | connected
  /-- It is about to start `recv_syncs`. -/
  | syncerDue
  /-- It waits for connections. -/
  | serving
  /-- It has one, and waits for the guard. -/
  | greeting
  /-- It sends its filters, with the guard. -/
  | sending
  /-- It receives messages. -/
  | receiving (r : Recv)
  /-- It has ended. -/
  | ended
  deriving DecidableEq, Repr

/-- The state of the daemon. -/
structure Daemon where
  /-- How far `main` is. -/
  main : Main
  /-- `bloommgr` has built the ring. -/
  built : Bool
  /-- How far `syncmgr` is. -/
  syncmgr : Syncmgr
  /-- How far `recv_syncs` is. -/
  recv : Recv
  /-- What the threads share. -/
  node : Node
  /-- How often the guard has been posted for `syncmgr`. -/
  released : ℕ

/-- A daemon that starts, with a semaphore of one. -/
def Daemon.start (ctx : Ctx) (message : UpdateMessage) : Daemon :=
  ⟨.bloommgrInit, false, .unborn, .unborn,
    { Node.start { ctx with syncGuard := 1 } message [] with connected := false }, 0⟩

/-- A step of one of the threads. -/
inductive Act where
  /-- `main` takes a step. -/
  | main
  /-- `bloommgr` builds the ring and posts the guard. -/
  | build
  /-- `bloommgr` takes a message and does what it says. -/
  | manage (clock : Clock)
  /-- The delay thread takes a message from the inner queue. -/
  | take
  /-- The delay thread passes it to the outer queue. -/
  | pass
  /-- `syncmgr` takes a step. -/
  | syncmgr (w : World)
  /-- `recv_syncs` takes a step. -/
  | recv (w : World)

/-! ### The steps -/

/-- `sem_wait(sync_guard)`, if it need not wait. -/
def wait (n : Node) : Option Node :=
  if 0 < n.ctx.syncGuard then some { n with ctx := { n.ctx with syncGuard := n.ctx.syncGuard - 1 } } else none

/-- `sem_post(sync_guard)`. -/
def post (n : Node) : Node := { n with ctx := { n.ctx with syncGuard := n.ctx.syncGuard + 1 } }

/-- The copy that is made for a message of no bytes. -/
def copyNothing (ndebug : Bool) (update : UpdateMessage) : Except Fault (List Byte) :=
  if ndebug then .ok (update.bytes.take 0) else newMsg update 0

/-- `instant_msg(ctx->update_q, &update, 0)`. -/
def instantNothing (ndebug : Bool) (update : UpdateMessage) (n : Node) : Except Fault Node := do
  let m ← copyNothing ndebug update
  return { n with outq := n.outq ++ [m] }

/-- A step of a receiver. One that has to wait changes nothing. -/
def Recv.step (ndebug : Bool) (e : Endian) (w : World) (r : Recv) (n : Node) : Except Fault (Recv × Node) :=
  match r with
  | .unborn | .returned => .ok (r, n)
  | .config => if w.config then .ok (.syncing, n) else .error .exit
  | .syncing =>
    match w.arrival with
    | .lost => .ok (.returned, { n with connected := false })
    | .chunk text => .ok (.syncing, { n with outq := n.outq ++ [bytesOf e absoluteUpdateMtype ++ text] })
    | .digest text => .ok (.syncing, { n with inq := n.inq ++ [bytesOf e updateOperMtype ++ text] })
    | .aggregate => do
      let n ← instantNothing ndebug (w.update.write e syncAggregateMtype [] (Nat.zero_le _)) n
      return (.syncing, n)
    | .unknown => .ok (.guarding, n)
  | .guarding =>
    match wait n with
    | some n => .ok (.closing, n)
    | none => .ok (.guarding, n)
  | .closing => .ok (.syncing, post { n with connected := false })

namespace Daemon

/-- A step of `main`. -/
def mainStep (d : Daemon) : Daemon :=
  match d.main with
  | .bloommgrInit =>
    match wait d.node with
    | some n => { d with main := .syncmgrInit, node := n }
    | none => d
  | .syncmgrInit =>
    match wait d.node with
    | some n => { d with main := .waiting, syncmgr := .starting, node := n }
    | none => d
  | .waiting =>
    match wait d.node with
    | some n => { d with main := .inSync, node := n }
    | none => d
  | .inSync => { d with main := .started, node := post d.node }
  | .started => d

/-- A step of `syncmgr`. -/
def syncmgrStep (ndebug : Bool) (e : Endian) (w : World) (d : Daemon) : Except Fault Daemon :=
  match d.syncmgr with
  | .unborn | .ended => .ok d
  | .starting =>
    match w.connect with
    | .noSocket => .ok { d with syncmgr := .ended }
    | .fatal => .error .exit
    | .refused => .ok { d with syncmgr := .serving, node := post d.node, released := d.released + 1 }
    | .accepted => .ok { d with syncmgr := .connected, node := { d.node with connected := true } }
  | .connected => do
    let n ← instantNothing ndebug (w.update.write e rotateMtype [] (Nat.zero_le _)) d.node
    return { d with syncmgr := .syncerDue, node := n }
  | .syncerDue => .ok { d with syncmgr := .serving, recv := .config }
  | .serving =>
    match w.accept with
    | .stranger => .ok d
    | .peer => .ok { d with syncmgr := .greeting, node := { d.node with connected := true } }
    | .failed => .ok { d with syncmgr := .ended }
  | .greeting =>
    match wait d.node with
    | some n => .ok { d with syncmgr := .sending, node := n }
    | none => .ok d
  | .sending => .ok { d with syncmgr := .receiving .syncing, node := post d.node }
  | .receiving r => do
    let (r, n) ← r.step ndebug e w d.node
    return { d with syncmgr := if r = .returned then .serving else .receiving r, node := n }

/-- A step. One that cannot be taken changes nothing. -/
def step (ndebug : Bool) (e : Endian) (d : Daemon) : Act → Except Fault Daemon
  | .main => .ok d.mainStep
  | .build =>
    if d.main ≠ .bloommgrInit ∧ d.built = false then .ok { d with built := true, node := post d.node } else .ok d
  | .manage clock =>
    if d.built then do
      let n ← bloommgr e clock d.node
      return { d with node := n, released := d.released + (n.ctx.syncGuard - d.node.ctx.syncGuard) }
    else .ok d
  | .take =>
    match d.node.hand, d.node.inq with
    | none, m :: inq => .ok { d with node := { d.node with hand := some m, inq := inq } }
    | _, _ => .ok d
  | .pass =>
    match d.node.hand with
    | some m => .ok { d with node := { d.node with hand := none, outq := d.node.outq ++ [m] } }
    | none => .ok d
  | .syncmgr w => d.syncmgrStep ndebug e w
  | .recv w => do
    let (r, n) ← d.recv.step ndebug e w d.node
    return { d with recv := r, node := n }

/-- A run. -/
def run (ndebug : Bool) (e : Endian) (d : Daemon) (acts : List Act) : Except Fault Daemon :=
  acts.foldlM (step ndebug e) d

end Daemon

/-! ### What arrives -/

/-- What `recv_sync_msg` does with what it comes upon, when `c` is left of the connection. -/
def Arrival.result (e : Endian) (s : Cut.Inbox) (c : Conn Byte) : Arrival → Except Fault (Option ℤ × Cut.Inbox)
  | .lost => .ok (some 0, { s with conn := c, connected := false })
  | .chunk text => .ok (some 1, { s with conn := c, outq := s.outq ++ [bytesOf e absoluteUpdateMtype ++ text] })
  | .digest text => .ok (some 1, { s with conn := c, inq := s.inq ++ [bytesOf e updateOperMtype ++ text] })
  | .aggregate => .error .assertion
  | .unknown => .ok (none, { s with conn := c })

/-- **What arrives**: on any connection, `recv_sync_msg` comes upon one of the five. -/
theorem recvSyncMsg_arrival (e : Endian) (loc : Locals) (s : Cut.Inbox) :
    ∃ a c, Cut.recvSyncMsg e loc s = Arrival.result e s c a := by
  obtain ⟨ret, c, hread⟩ := Cut.Inbox.read_eq s syncMsgBytes
  match ret, hread with
  | none, hread => exact ⟨.lost, c, by simp only [Cut.recvSyncMsg, hread, Cut.Inbox.disconnect, Arrival.result]⟩
  | some [], hread => exact ⟨.lost, c, by simp only [Cut.recvSyncMsg, hread, Cut.Inbox.disconnect, Arrival.result]⟩
  | some (b :: bs), hread =>
    have hrecv : Cut.recvSyncMsg e loc s = Cut.recvTyped e loc (Cut.typeOf e (b :: bs)) { s with conn := c } := by
      simp only [Cut.recvSyncMsg, hread]
    rw [hrecv]
    by_cases h1 : Cut.typeOf e (b :: bs) = startupSyncType
    · rw [h1, Cut.recvTyped_startup]
      obtain ⟨c', hlost | ⟨bs', hsome⟩⟩ := Cut.recvBody_cases startupSyncBytes (by decide) (Cut.startupUpdate e loc)
        Cut.Inbox.instantMsg { s with conn := c }
      · exact ⟨.lost, c', hlost⟩
      · obtain ⟨text, htext⟩ : ∃ text, (Cut.startupUpdate e loc bs').bytes.take startupSyncBytes =
          bytesOf e absoluteUpdateMtype ++ text :=
          UpdateMessage.take_bytes_write _ _ _ _ (by simp [startupSyncBytes, msgsz]) (by decide)
        rw [htext] at hsome
        exact ⟨.chunk text, c', hsome⟩
    · by_cases h2 : Cut.typeOf e (b :: bs) = operSyncType
      · rw [h2, Cut.recvTyped_oper]
        obtain ⟨c', hlost | ⟨bs', hsome⟩⟩ := Cut.recvBody_cases digestBytes (by decide) (Cut.operUpdate e loc)
          Cut.Inbox.putMsg { s with conn := c }
        · exact ⟨.lost, c', hlost⟩
        · obtain ⟨text, htext⟩ : ∃ text, (Cut.operUpdate e loc bs').bytes.take digestBytes =
            bytesOf e updateOperMtype ++ text :=
            UpdateMessage.take_bytes_write _ _ _ _ (by simp [digestBytes, msgsz]) (by decide)
          rw [htext] at hsome
          exact ⟨.digest text, c', hsome⟩
      · by_cases h3 : Cut.typeOf e (b :: bs) = aggregateSyncType
        · rw [h3, Cut.recvTyped_aggregate]
          exact ⟨.aggregate, c, rfl⟩
        · rw [Cut.recvTyped, if_neg h1, if_neg h2, if_neg h3]
          exact ⟨.unknown, c, rfl⟩

/-! ### Accounting -/

/-- The number of times a receiver holds the guard. -/
def Recv.holds : Recv → ℕ
  | .closing => 1
  | _ => 0

/-- The number of times `syncmgr` holds the guard, once it has started. -/
def Syncmgr.holds : Syncmgr → ℕ
  | .sending => 1
  | .receiving r => r.holds
  | _ => 0

/-- The number of times the guard is held for a `bloommgr` that has started. -/
def building (built : Bool) : ℕ := if built then 0 else 1

/-- The number of times the guard is held by `main`, or for a thread it has started. -/
def Main.holds (built : Bool) : Main → ℕ
  | .bloommgrInit => 0
  | .syncmgrInit => building built
  | .waiting | .started => building built + 1
  | .inSync => building built + 2

/-- The value of the semaphore and the holds add up to one more than what was released. -/
def Daemon.Accounted (d : Daemon) : Prop :=
  d.node.ctx.syncGuard + d.main.holds d.built + d.syncmgr.holds + d.recv.holds = 1 + d.released

section Steps

variable {ndebug : Bool} {e : Endian} {clock : Clock} {w : World} {ctx : Ctx} {message : UpdateMessage} {n n' : Node}
  {d d' : Daemon}

theorem syncGuard_rotate {ctx ctx' : Ctx} {clock : Clock} (h : ctx.rotate clock = .ok ctx') :
    ctx'.syncGuard = ctx.syncGuard := by
  unfold Ctx.rotate at h
  split at h
  · cases h
    rfl
  · obtain ⟨filter, -, h⟩ := bind_eq_ok h
    cases h
    rfl
  · obtain ⟨filter, -, h⟩ := bind_eq_ok h
    cases h
    rfl

/-- A command posts the guard just when it is a `SYNC_AGGREGATE`. -/
theorem syncGuard_execute {ctx ctx' : Ctx} {cmd : Command} (h : ctx.execute cmd = .ok ctx') :
    ctx'.syncGuard = ctx.syncGuard + if cmd = .syncAggregate then 1 else 0 := by
  cases cmd with
  | rotate clock => exact syncGuard_rotate h
  | unknown =>
    cases h
    rfl
  | _ =>
    obtain ⟨filter, -, h⟩ := bind_eq_ok h
    cases h
    rfl

/-- A turn of `bloommgr`. -/
theorem bloommgr_cases (h : bloommgr e clock n = .ok n') :
    n' = n ∨ ∃ m outq, n.outq = m :: outq ∧ n'.outq = outq ∧ n'.message = n.message.getMsg m ∧ n'.inq = n.inq ∧
      n'.hand = n.hand ∧
      n'.ctx.syncGuard = n.ctx.syncGuard + if n'.message.command e clock = .syncAggregate then 1 else 0 := by
  unfold bloommgr at h
  split at h
  · cases h
    exact .inl rfl
  · rename_i m outq hq
    obtain ⟨ctx, hexec, h⟩ := bind_eq_ok h
    cases h
    exact .inr ⟨m, outq, hq, rfl, rfl, rfl, rfl, syncGuard_execute hexec⟩

theorem syncGuard_le_bloommgr (h : bloommgr e clock n = .ok n') : n.ctx.syncGuard ≤ n'.ctx.syncGuard := by
  rcases bloommgr_cases h with rfl | ⟨m, outq, -, -, -, -, -, hguard⟩
  · exact le_rfl
  · omega

theorem Main.holds_unbuilt {m : Main} (h : m ≠ .bloommgrInit) : m.holds false = m.holds true + 1 := by
  cases m with
  | bloommgrInit => exact absurd rfl h
  | _ => rfl

theorem wait_eq_some (h : wait n = some n') :
    0 < n.ctx.syncGuard ∧ n' = { n with ctx := { n.ctx with syncGuard := n.ctx.syncGuard - 1 } } := by
  unfold wait at h
  split at h
  · rename_i hpos
    cases h
    exact ⟨hpos, rfl⟩
  · cases h

/-- Of the messages, `SYNC_AGGREGATE` is not one that is queued: a message is empty or has
another type. -/
def Tame (e : Endian) (m : List Byte) : Prop :=
  m = [] ∨ ∃ mtype text, mtype ≠ syncAggregateMtype ∧ m = bytesOf e mtype ++ text

/-- What the receivers and the guard can do to a node: messages are added that are tame. -/
structure Feeds (e : Endian) (n n' : Node) : Prop where
  /-- The buffer of `bloommgr` is left alone. -/
  message : n'.message = n.message
  /-- So is what the delay thread has. -/
  hand : n'.hand = n.hand
  /-- So is the ring. -/
  filter : n'.ctx.filter = n.ctx.filter
  /-- The inner queue. -/
  inq : ∃ ms, n'.inq = n.inq ++ ms ∧ ∀ m ∈ ms, Tame e m
  /-- The outer queue. -/
  outq : ∃ ms, n'.outq = n.outq ++ ms ∧ ∀ m ∈ ms, Tame e m

theorem Feeds.of_eq (hmessage : n'.message = n.message) (hhand : n'.hand = n.hand)
    (hfilter : n'.ctx.filter = n.ctx.filter) (hinq : n'.inq = n.inq) (houtq : n'.outq = n.outq) : Feeds e n n' :=
  ⟨hmessage, hhand, hfilter, ⟨[], by simpa using hinq, by simp⟩, ⟨[], by simpa using houtq, by simp⟩⟩

/-- A message of no bytes, where nothing asserts that there are any. -/
theorem instantNothing_eq_ok {update : UpdateMessage} (h : instantNothing ndebug update n = .ok n') :
    ndebug = true ∧ n' = { n with outq := n.outq ++ [[]] } := by
  obtain ⟨m, hm, h⟩ := bind_eq_ok h
  cases h
  cases ndebug with
  | false => exact absurd hm (by simp [copyNothing, newMsg, check_neg])
  | true =>
    cases hm
    exact ⟨rfl, by simp⟩

/-- **A step of a receiver**: the guard is accounted for, and what is queued is tame. -/
theorem Recv.step_eq_ok {r r' : Recv} (h : r.step ndebug e w n = .ok (r', n')) :
    n'.ctx.syncGuard + r'.holds = n.ctx.syncGuard + r.holds ∧ Feeds e n n' := by
  cases r with
  | unborn | returned =>
    cases h
    exact ⟨rfl, Feeds.of_eq rfl rfl rfl rfl rfl⟩
  | config =>
    simp only [Recv.step] at h
    split at h
    · cases h
      exact ⟨rfl, Feeds.of_eq rfl rfl rfl rfl rfl⟩
    · cases h
  | guarding =>
    simp only [Recv.step] at h
    split at h
    · rename_i n₁ hwait
      obtain ⟨hpos, rfl⟩ := wait_eq_some hwait
      cases h
      exact ⟨by simp only [Recv.holds]; omega, Feeds.of_eq rfl rfl rfl rfl rfl⟩
    · cases h
      exact ⟨rfl, Feeds.of_eq rfl rfl rfl rfl rfl⟩
  | closing =>
    cases h
    exact ⟨rfl, Feeds.of_eq rfl rfl rfl rfl rfl⟩
  | syncing =>
    simp only [Recv.step] at h
    split at h
    · cases h
      exact ⟨rfl, Feeds.of_eq rfl rfl rfl rfl rfl⟩
    · cases h
      refine ⟨rfl, rfl, rfl, rfl, ⟨[], by simp, by simp⟩, ⟨_, rfl, ?_⟩⟩
      simp only [List.mem_singleton, forall_eq]
      exact .inr ⟨_, _, by decide, rfl⟩
    · cases h
      refine ⟨rfl, rfl, rfl, rfl, ⟨_, rfl, ?_⟩, ⟨[], by simp, by simp⟩⟩
      simp only [List.mem_singleton, forall_eq]
      exact .inr ⟨_, _, by decide, rfl⟩
    · obtain ⟨n₁, hn₁, h⟩ := bind_eq_ok h
      obtain ⟨-, rfl⟩ := instantNothing_eq_ok hn₁
      cases h
      refine ⟨rfl, rfl, rfl, rfl, ⟨[], by simp, by simp⟩, ⟨_, rfl, ?_⟩⟩
      simp only [List.mem_singleton, forall_eq]
      exact .inl rfl
    · cases h
      exact ⟨rfl, Feeds.of_eq rfl rfl rfl rfl rfl⟩

/-! ### What a step can do -/

/-- `recv_syncs` has not been started. -/
def Syncmgr.early : Syncmgr → Bool
  | .unborn | .starting | .connected | .syncerDue => true
  | _ => false

/-- The daemon has not got past connecting to the peer. -/
def Syncmgr.fresh : Syncmgr → Bool
  | .unborn | .starting | .connected => true
  | _ => false

theorem Syncmgr.early_of_fresh {syncmgr : Syncmgr} (h : syncmgr.fresh = true) : syncmgr.early = true := by
  cases syncmgr <;> first | rfl | cases h

/-- What a step of `syncmgr` or of `recv_syncs` can do. -/
structure Daemon.Moves (ndebug : Bool) (e : Endian) (d d' : Daemon) : Prop where
  /-- `main` stays where it is. -/
  main : d'.main = d.main
  /-- So does `bloommgr`. -/
  built : d'.built = d.built
  /-- No thread is born, but for `recv_syncs`. -/
  birth : d'.syncmgr = .unborn ↔ d.syncmgr = .unborn
  /-- The daemon connects once. -/
  starting : d'.syncmgr = .starting → d.syncmgr = .starting
  /-- Until the connection is used, all it does is to connect. -/
  fresh : d'.syncmgr.fresh = true → d.syncmgr.fresh = true ∧ d'.released = d.released ∧
    d'.node = { d.node with connected := d'.node.connected }
  /-- The connection is used where nothing is asserted: a message of no bytes is sent. -/
  connected : d.syncmgr = .connected → d'.syncmgr = .connected ∨ ndebug = true ∧ d'.node.outq = d.node.outq ++ [[]]
  /-- `recv_syncs` is started by `syncmgr`. -/
  syncer : d'.syncmgr.early = true → d'.recv = .unborn
  /-- The guard is released where the peer cannot be reached. -/
  released : d'.released = d.released ∨ d.syncmgr = .starting ∧ d'.released = d.released + 1
  /-- It is accounted for. -/
  guard : d'.node.ctx.syncGuard + d'.syncmgr.holds + d'.recv.holds + d.released =
    d.node.ctx.syncGuard + d.syncmgr.holds + d.recv.holds + d'.released
  /-- Messages are added that are tame. -/
  feeds : Feeds e d.node d'.node

theorem Daemon.Moves.refl (h : d.syncmgr.early = true → d.recv = .unborn) : d.Moves ndebug e d :=
  ⟨rfl, rfl, Iff.rfl, id, fun hfresh => ⟨hfresh, rfl, rfl⟩, .inl, h, .inl rfl, rfl, Feeds.of_eq rfl rfl rfl rfl rfl⟩

/-- **A step of `recv_syncs`**. -/
theorem Daemon.moves_recv {r : Recv} (hs : d.syncmgr.early = true → d.recv = .unborn)
    (h : d.recv.step ndebug e w d.node = .ok (r, n)) : d.Moves ndebug e { d with recv := r, node := n } := by
  by_cases hearly : d.syncmgr.early = true
  · have hunborn := hs hearly
    rw [hunborn] at h
    cases h
    exact hunborn ▸ .refl hs
  · obtain ⟨hguard, hfeeds⟩ := Recv.step_eq_ok h
    refine ⟨rfl, rfl, Iff.rfl, id, fun hfresh => absurd (Syncmgr.early_of_fresh hfresh) hearly, .inl,
      fun h => absurd h hearly, .inl rfl, ?_, hfeeds⟩
    simp only
    omega

/-- A step of `syncmgr` that has started `recv_syncs`, or will not. -/
theorem Daemon.moves_to {syncmgr : Syncmgr} (hfrom : d.syncmgr ≠ .unborn ∧ d.syncmgr ≠ .connected)
    (hto : syncmgr.early = false) (hguard : n.ctx.syncGuard + syncmgr.holds = d.node.ctx.syncGuard + d.syncmgr.holds)
    (hfeeds : Feeds e d.node n) : d.Moves ndebug e { d with syncmgr := syncmgr, node := n } := by
  have hlate : ¬ syncmgr.early = true := by simp [hto]
  refine ⟨rfl, rfl, iff_of_false ?_ hfrom.1, ?_, fun hfresh => absurd (Syncmgr.early_of_fresh hfresh) hlate,
    fun h => absurd h hfrom.2, fun h => absurd h hlate, .inl rfl, ?_, hfeeds⟩
  · rintro rfl
    cases hto
  · rintro rfl
    cases hto
  · simp only
    omega

/-- **A step of `syncmgr`**. -/
theorem Daemon.moves_syncmgrStep (hs : d.syncmgr.early = true → d.recv = .unborn)
    (h : d.syncmgrStep ndebug e w = .ok d') : d.Moves ndebug e d' := by
  obtain ⟨main, built, syncmgr, recv, node, released⟩ := d
  simp only at hs
  cases syncmgr with
  | unborn | ended =>
    cases h
    exact .refl hs
  | starting =>
    simp only [Daemon.syncmgrStep] at h
    cases hconnect : w.connect <;> simp only [hconnect] at h <;> cases h
    · exact Daemon.moves_to (by simp) rfl rfl (Feeds.of_eq rfl rfl rfl rfl rfl)
    · refine ⟨rfl, rfl, by simp, by simp, by simp [Syncmgr.fresh], by simp, by simp [Syncmgr.early], .inr ⟨rfl, rfl⟩, ?_,
        Feeds.of_eq rfl rfl rfl rfl rfl⟩
      simp only [post, Syncmgr.holds]
      omega
    · exact ⟨rfl, rfl, by simp, by simp, fun _ => ⟨rfl, rfl, rfl⟩, by simp, fun _ => hs rfl, .inl rfl, rfl,
        Feeds.of_eq rfl rfl rfl rfl rfl⟩
  | connected =>
    obtain ⟨n, hn, h⟩ := bind_eq_ok h
    obtain ⟨hndebug, rfl⟩ := instantNothing_eq_ok hn
    cases h
    exact ⟨rfl, rfl, by simp, by simp, by simp [Syncmgr.fresh], fun _ => .inr ⟨hndebug, rfl⟩, fun _ => hs rfl, .inl rfl,
      rfl, ⟨rfl, rfl, rfl, ⟨[], by simp, by simp⟩, ⟨[[]], rfl, by simp [Tame]⟩⟩⟩
  | syncerDue =>
    have hunborn := hs rfl
    cases h
    refine ⟨rfl, rfl, by simp, by simp, by simp [Syncmgr.fresh], by simp, by simp [Syncmgr.early], .inl rfl, ?_,
      Feeds.of_eq rfl rfl rfl rfl rfl⟩
    rw [hunborn]
    rfl
  | serving =>
    simp only [Daemon.syncmgrStep] at h
    cases haccept : w.accept <;> simp only [haccept] at h <;> cases h
    · exact .refl hs
    · exact Daemon.moves_to (by simp) rfl rfl (Feeds.of_eq rfl rfl rfl rfl rfl)
    · exact Daemon.moves_to (by simp) rfl rfl (Feeds.of_eq rfl rfl rfl rfl rfl)
  | greeting =>
    simp only [Daemon.syncmgrStep] at h
    split at h
    · rename_i n hwait
      obtain ⟨hpos, rfl⟩ := wait_eq_some hwait
      cases h
      exact Daemon.moves_to (by simp) rfl (Nat.sub_add_cancel hpos) (Feeds.of_eq rfl rfl rfl rfl rfl)
    · cases h
      exact .refl hs
  | sending =>
    cases h
    exact Daemon.moves_to (by simp) rfl rfl (Feeds.of_eq rfl rfl rfl rfl rfl)
  | receiving r =>
    obtain ⟨⟨r', n⟩, hr, h⟩ := bind_eq_ok h
    obtain ⟨hguard, hfeeds⟩ := Recv.step_eq_ok hr
    cases h
    by_cases hreturned : r' = .returned
    · subst hreturned
      exact Daemon.moves_to (by simp) rfl hguard hfeeds
    · rw [if_neg hreturned]
      exact Daemon.moves_to (by simp) rfl hguard hfeeds

/-- What a step of the daemon can do. -/
inductive Daemon.Step (ndebug : Bool) (e : Endian) (d : Daemon) : Daemon → Prop where
  /-- A step of `main`. -/
  | main : d.Step ndebug e d.mainStep
  /-- The ring is built. -/
  | build (hmain : d.main ≠ .bloommgrInit) (hbuilt : d.built = false) :
    d.Step ndebug e { d with built := true, node := post d.node }
  /-- A turn of `bloommgr`. -/
  | manage {clock : Clock} {n : Node} (hn : bloommgr e clock d.node = .ok n) :
    d.Step ndebug e { d with node := n, released := d.released + (n.ctx.syncGuard - d.node.ctx.syncGuard) }
  /-- The delay thread takes a message. -/
  | take {m : List Byte} {inq : List (List Byte)} (hinq : d.node.inq = m :: inq) :
    d.Step ndebug e { d with node := { d.node with hand := some m, inq := inq } }
  /-- And passes it on. -/
  | pass {m : List Byte} (hhand : d.node.hand = some m) :
    d.Step ndebug e { d with node := { d.node with hand := none, outq := d.node.outq ++ [m] } }
  /-- A step of `syncmgr` or of `recv_syncs`, or none. -/
  | moves {d' : Daemon} (hm : d.Moves ndebug e d') : d.Step ndebug e d'

/-- **Every step is one of these**. -/
theorem Daemon.step_cases (hs : d.syncmgr.early = true → d.recv = .unborn) {act : Act}
    (h : d.step ndebug e act = .ok d') : d.Step ndebug e d' := by
  have hnone : d.Step ndebug e d := .moves (.refl hs)
  cases act with
  | main =>
    cases h
    exact .main
  | build =>
    simp only [Daemon.step] at h
    split at h <;> cases h
    · rename_i hb
      exact .build hb.1 hb.2
    · exact hnone
  | manage clock =>
    simp only [Daemon.step] at h
    split at h
    · obtain ⟨n, hn, h⟩ := bind_eq_ok h
      cases h
      exact .manage hn
    · cases h
      exact hnone
  | take =>
    simp only [Daemon.step] at h
    split at h <;> cases h
    · rename_i hinq
      exact .take hinq
    · exact hnone
  | pass =>
    simp only [Daemon.step] at h
    split at h <;> cases h
    · rename_i hhand
      exact .pass hhand
    · exact hnone
  | syncmgr w => exact .moves (Daemon.moves_syncmgrStep hs h)
  | recv w =>
    obtain ⟨⟨r, n⟩, hr, h⟩ := bind_eq_ok h
    cases h
    exact .moves (Daemon.moves_recv hs hr)

/-! ### What holds in every run -/

/-- What holds of the guard in every state. -/
structure Daemon.Inv (d : Daemon) : Prop where
  /-- It is accounted for. -/
  accounted : d.Accounted
  /-- `main` is past its wait only if the guard was released. -/
  past : d.main = .inSync ∨ d.main = .started → 1 ≤ d.released
  /-- `bloommgr` is started by `bloommgr_init`. -/
  unbuilt : d.main = .bloommgrInit → d.built = false
  /-- `syncmgr` is started by `syncmgr_init`. -/
  birth : d.syncmgr = .unborn ↔ d.main = .bloommgrInit ∨ d.main = .syncmgrInit
  /-- `recv_syncs` is started by `syncmgr`. -/
  syncer : d.syncmgr.early = true → d.recv = .unborn

theorem Daemon.inv_start (ctx : Ctx) (message : UpdateMessage) : (Daemon.start ctx message).Inv :=
  ⟨rfl, by simp [Daemon.start], by simp [Daemon.start], by simp [Daemon.start], fun _ => rfl⟩

/-- A step of `main`. -/
theorem Daemon.Inv.mainStep (h : d.Inv) : d.mainStep.Inv := by
  have hacc := h.accounted
  simp only [Daemon.Accounted] at hacc
  have hsyncer := h.syncer
  unfold Daemon.mainStep
  cases hmain : d.main with
  | bloommgrInit =>
    have hsync := h.birth.mpr (.inl hmain)
    have hbuilding : building d.built = 1 := by rw [h.unbuilt hmain]; rfl
    simp only
    split
    · rename_i n hwait
      obtain ⟨hpos, rfl⟩ := wait_eq_some hwait
      simp only [hmain, Main.holds] at hacc
      refine ⟨?_, by simp, by simp, by simpa using hsync, hsyncer⟩
      simp only [Daemon.Accounted, Main.holds]
      omega
    · exact h
  | syncmgrInit =>
    have hsync := h.birth.mpr (.inr hmain)
    simp only
    split
    · rename_i n hwait
      obtain ⟨hpos, rfl⟩ := wait_eq_some hwait
      simp only [hmain, hsync, Main.holds, Syncmgr.holds] at hacc
      refine ⟨?_, by simp, by simp, by simp, fun _ => hsyncer (by rw [hsync]; rfl)⟩
      simp only [Daemon.Accounted, Main.holds, Syncmgr.holds]
      omega
    · exact h
  | waiting =>
    have hborn : d.syncmgr ≠ .unborn := by simp [h.birth, hmain]
    simp only
    split
    · rename_i n hwait
      obtain ⟨hpos, rfl⟩ := wait_eq_some hwait
      simp only [hmain, Main.holds] at hacc
      refine ⟨?_, fun _ => ?_, by simp, by simpa using hborn, hsyncer⟩
      · simp only [Daemon.Accounted, Main.holds]
        omega
      · -- the guard is held for `syncmgr`, and there is another
        show 1 ≤ d.released
        omega
    · exact h
  | inSync =>
    have hborn : d.syncmgr ≠ .unborn := by simp [h.birth, hmain]
    simp only [hmain, Main.holds] at hacc
    refine ⟨?_, fun _ => h.past (.inl hmain), by simp, by simpa using hborn, hsyncer⟩
    simp only [Daemon.Accounted, post, Main.holds]
    omega
  | started => exact h

theorem Daemon.Inv.moves (h : d.Inv) (hm : d.Moves ndebug e d') : d'.Inv := by
  refine ⟨?_, ?_, ?_, ?_, hm.syncer⟩
  · have hacc := h.accounted
    have hguard := hm.guard
    simp only [Daemon.Accounted, hm.main, hm.built] at hacc ⊢
    omega
  · rw [hm.main]
    intro hpast
    have := h.past hpast
    rcases hm.released with hr | ⟨-, hr⟩ <;> omega
  · rw [hm.main, hm.built]
    exact h.unbuilt
  · rw [hm.main, hm.birth]
    exact h.birth

/-- **Every step keeps the invariant**. -/
theorem Daemon.Inv.step (h : d.Inv) {act : Act} (hstep : d.step ndebug e act = .ok d') : d'.Inv := by
  have hacc := h.accounted
  cases Daemon.step_cases h.syncer hstep with
  | main => exact h.mainStep
  | build hmain hbuilt =>
    have hholds := Main.holds_unbuilt hmain
    simp only [Daemon.Accounted, hbuilt] at hacc
    refine ⟨?_, h.past, fun hinit => absurd hinit hmain, h.birth, h.syncer⟩
    simp only [Daemon.Accounted, post]
    omega
  | manage hn =>
    have hle := syncGuard_le_bloommgr hn
    refine ⟨?_, fun hpast => (h.past hpast).trans (Nat.le_add_right _ _), h.unbuilt, h.birth, h.syncer⟩
    simp only [Daemon.Accounted] at hacc ⊢
    omega
  | take | pass => exact ⟨h.accounted, h.past, h.unbuilt, h.birth, h.syncer⟩
  | moves hm => exact h.moves hm

/-- **Accounting**: in every run the value of the semaphore and the holds add up to one
more than what was released, and `main` is past its wait only if something was. -/
theorem Daemon.inv_run {acts : List Act} (h : (Daemon.start ctx message).run ndebug e acts = .ok d) : d.Inv :=
  foldlM_preserves Daemon.Inv (fun _ _ _ hd hstep => hd.step hstep) (Daemon.inv_start ctx message) h

/-! ### Until the connection is made -/

/-- Nothing has been queued or released. -/
structure Daemon.Early (ctx : Ctx) (message : UpdateMessage) (d : Daemon) : Prop where
  /-- The guard has not been released. -/
  released : d.released = 0
  /-- Nothing is in the inner queue. -/
  inq : d.node.inq = []
  /-- The delay thread has nothing. -/
  hand : d.node.hand = none
  /-- Nothing is in the outer queue. -/
  outq : d.node.outq = []
  /-- The buffer of `bloommgr` is as it was. -/
  message : d.node.message = message
  /-- So is the ring. -/
  filter : d.node.ctx.filter = ctx.filter

/-- A step of `main` is about the guard, and it starts `syncmgr`. -/
theorem Daemon.mainStep_frame (d : Daemon) :
    (∃ g, d.mainStep.node = { d.node with ctx := { d.node.ctx with syncGuard := g } }) ∧
      d.mainStep.released = d.released ∧
      (d.mainStep.syncmgr = d.syncmgr ∨ d.main = .syncmgrInit ∧ d.mainStep.syncmgr = .starting) := by
  unfold Daemon.mainStep
  cases hmain : d.main with
  | inSync => exact ⟨⟨_, rfl⟩, rfl, .inl rfl⟩
  | started => exact ⟨⟨_, rfl⟩, rfl, .inl rfl⟩
  | syncmgrInit =>
    simp only
    split
    · rename_i n hwait
      obtain ⟨-, rfl⟩ := wait_eq_some hwait
      exact ⟨⟨_, rfl⟩, rfl, .inr ⟨trivial, rfl⟩⟩
    · exact ⟨⟨_, rfl⟩, rfl, .inl rfl⟩
  | _ =>
    simp only
    split
    · rename_i n hwait
      obtain ⟨-, rfl⟩ := wait_eq_some hwait
      exact ⟨⟨_, rfl⟩, rfl, .inl rfl⟩
    · exact ⟨⟨_, rfl⟩, rfl, .inl rfl⟩

/-- Once `syncmgr` has been started, `main` leaves it alone. -/
theorem Daemon.Inv.mainStep_syncmgr (h : d.Inv) (hborn : d.syncmgr ≠ .unborn) : d.mainStep.syncmgr = d.syncmgr :=
  d.mainStep_frame.2.2.resolve_right fun hmain => hborn (h.birth.mpr (.inr hmain.1))

/-- The guard and the connection are not part of it. -/
theorem Daemon.Early.of_node (h : d.Early ctx message) {g : ℕ} {c : Bool} (hreleased : d'.released = d.released)
    (hnode : d'.node = { d.node with ctx := { d.node.ctx with syncGuard := g }, connected := c }) :
    d'.Early ctx message := by
  refine ⟨hreleased.trans h.released, ?_, ?_, ?_, ?_, ?_⟩ <;> rw [hnode]
  exacts [h.inq, h.hand, h.outq, h.message, h.filter]

/-- A step that leads to a state before the connection is used starts from one. -/
theorem Daemon.Early.step (hinv : d.Inv) (h : d.syncmgr.fresh = true → d.Early ctx message) {act : Act}
    (hstep : d.step ndebug e act = .ok d') (hfresh : d'.syncmgr.fresh = true) : d'.Early ctx message := by
  cases Daemon.step_cases hinv.syncer hstep with
  | main =>
    obtain ⟨⟨g, hnode⟩, hreleased, -⟩ := d.mainStep_frame
    refine (h ?_).of_node hreleased hnode
    by_cases hborn : d.syncmgr = .unborn
    · rw [hborn]
      rfl
    · rwa [hinv.mainStep_syncmgr hborn] at hfresh
  | build => exact (h hfresh).of_node rfl rfl
  | manage hn =>
    have hd := h hfresh
    rcases bloommgr_cases hn with rfl | ⟨m, outq, hq, -⟩
    · exact hd.of_node (by simp) rfl
    · rw [hd.outq] at hq
      cases hq
  | take hinq =>
    rw [(h hfresh).inq] at hinq
    cases hinq
  | pass hhand =>
    rw [(h hfresh).hand] at hhand
    cases hhand
  | moves hm =>
    obtain ⟨hd, hreleased, hnode⟩ := hm.fresh hfresh
    exact (h hd).of_node hreleased hnode

theorem Daemon.early_run {acts : List Act} (h : (Daemon.start ctx message).run ndebug e acts = .ok d) :
    d.syncmgr.fresh = true → d.Early ctx message := by
  refine (foldlM_preserves (fun d : Daemon => d.Inv ∧ (d.syncmgr.fresh = true → d.Early ctx message)) ?_ ?_ h).2
  · rintro d act d' ⟨hinv, hearly⟩ hstep
    exact ⟨hinv.step hstep, Daemon.Early.step hinv hearly hstep⟩
  · exact ⟨Daemon.inv_start ctx message, fun _ => ⟨rfl, rfl, rfl, rfl, rfl, rfl⟩⟩

/-! ### A connection that succeeds -/

/-- `main` waits as long as nothing is released. -/
theorem Daemon.Inv.waiting (h : d.Inv) (hborn : d.syncmgr ≠ .unborn) (hreleased : d.released = 0) :
    d.main = .waiting := by
  have hbirth := mt h.birth.mpr hborn
  have hpast := mt h.past (by omega)
  cases hmain : d.main with
  | waiting => rfl
  | _ => simp [hmain] at hbirth hpast

/-- With assertions, `syncmgr` is stopped by the message that it sends first. -/
theorem Daemon.step_connected (h : d.syncmgr = .connected) (w : World) :
    d.step false e (.syncmgr w) = .error .assertion := by
  simp only [Daemon.step, Daemon.syncmgrStep, h]
  rfl

/-- No other step takes `syncmgr` from where it is. -/
theorem Daemon.connected_step (hinv : d.Inv) (h : d.syncmgr = .connected) {act : Act}
    (hstep : d.step false e act = .ok d') : d'.syncmgr = .connected := by
  cases Daemon.step_cases hinv.syncer hstep with
  | main => exact (hinv.mainStep_syncmgr (by simp [h])).trans h
  | moves hm => exact (hm.connected h).resolve_right (by simp)
  | _ => exact h

/-- **A connection that succeeds**: in every run in which `syncmgr` has connected to the
peer, and however the run goes on, the guard that was taken for it is not posted, `main`
waits, and `recv_syncs` has not been started, let alone returned. The next step of
`syncmgr` fails an assertion. -/
theorem never_released (e : Endian) (ctx : Ctx) (message : UpdateMessage) (acts acts' : List Act) (d d' : Daemon)
    (h : (Daemon.start ctx message).run false e acts = .ok d) (hconnected : d.syncmgr = .connected)
    (h' : d.run false e acts' = .ok d') :
    d'.released = 0 ∧ d'.main = .waiting ∧ d'.recv = .unborn ∧
      ∀ w, d'.step false e (.syncmgr w) = .error .assertion := by
  have hrun : (Daemon.start ctx message).run false e (acts ++ acts') = .ok d' := by
    rw [Daemon.run] at h h' ⊢
    rw [List.foldlM_append, h, ok_bind, h']
  have hinv := Daemon.inv_run hrun
  have hstays : d'.Inv ∧ d'.syncmgr = .connected := by
    refine foldlM_preserves (fun d : Daemon => d.Inv ∧ d.syncmgr = .connected) ?_ ⟨Daemon.inv_run h, hconnected⟩ h'
    rintro d act d' ⟨hinv, hconnected⟩ hstep
    exact ⟨hinv.step hstep, Daemon.connected_step hinv hconnected hstep⟩
  have hsync := hstays.2
  have hreleased := (Daemon.early_run hrun (by rw [hsync]; rfl)).released
  exact ⟨hreleased, hinv.waiting (by simp [hsync]) hreleased, hinv.syncer (by rw [hsync]; rfl),
    Daemon.step_connected hsync⟩

/-- What the network does when the peer is reached, and then closes the connection. -/
def closingPeer : World := ⟨UpdateMessage.zero, .accepted, .stranger, true, .lost⟩

/-- A daemon that has reached its peer. -/
def reached : Except Fault Daemon :=
  (Daemon.start ⟨10, 2, oneWordRing [0, 0] 0 0, 100, 1⟩ UpdateMessage.zero).run false .little
    [.main, .build, .main, .syncmgr closingPeer]

/-- It takes one more step, and is no more: the guard has not been posted. -/
theorem reached_stops :
    (∃ d, reached = .ok d ∧ d.node.ctx.syncGuard = 0 ∧ d.released = 0 ∧ d.main = .waiting) ∧
      (Daemon.start ⟨10, 2, oneWordRing [0, 0] 0 0, 100, 1⟩ UpdateMessage.zero).run false .little
        [.main, .build, .main, .syncmgr closingPeer, .syncmgr closingPeer] = .error .assertion :=
  ⟨⟨_, rfl, rfl, rfl, rfl⟩, rfl⟩

/-! ### Without assertions -/

/-- No `SYNC_AGGREGATE` is on its way to `bloommgr`, and there is none in its buffer. -/
structure AllTame (e : Endian) (n : Node) : Prop where
  /-- The buffer. -/
  message : wordAt e n.message.bytes 0 ≠ syncAggregateMtype
  /-- The inner queue. -/
  inq : ∀ m ∈ n.inq, Tame e m
  /-- What the delay thread has. -/
  hand : ∀ m ∈ n.hand, Tame e m
  /-- The outer queue. -/
  outq : ∀ m ∈ n.outq, Tame e m

theorem AllTame.feeds (h : AllTame e n) (hf : Feeds e n n') : AllTame e n' := by
  obtain ⟨ms, hinq, hms⟩ := hf.inq
  obtain ⟨ms', houtq, hms'⟩ := hf.outq
  refine ⟨by rw [hf.message]; exact h.message, ?_, by rw [hf.hand]; exact h.hand, ?_⟩
  · rw [hinq]
    exact fun m hm => (List.mem_append.mp hm).elim (h.inq m) (hms m)
  · rw [houtq]
    exact fun m hm => (List.mem_append.mp hm).elim (h.outq m) (hms' m)

/-- The delay thread takes a message from the inner queue. -/
theorem AllTame.take {m : List Byte} {inq : List (List Byte)} (h : AllTame e n) (hinq : n.inq = m :: inq) :
    AllTame e { n with hand := some m, inq := inq } := by
  have hall : ∀ m' ∈ m :: inq, Tame e m' := hinq ▸ h.inq
  refine ⟨h.message, fun m' hm' => hall m' (List.mem_cons_of_mem _ hm'), ?_, h.outq⟩
  rintro m' ⟨⟩
  exact hall m List.mem_cons_self

/-- And passes it on. -/
theorem AllTame.pass {m : List Byte} (h : AllTame e n) (hhand : n.hand = some m) :
    AllTame e { n with hand := none, outq := n.outq ++ [m] } := by
  refine ⟨h.message, h.inq, by simp, fun m' hm' => ?_⟩
  rcases List.mem_append.mp hm' with hm' | hm'
  · exact h.outq m' hm'
  · rw [List.mem_singleton.mp hm']
    exact h.hand m hhand

/-- A tame message leaves no `SYNC_AGGREGATE` in the buffer. -/
theorem Tame.getMsg {m : List Byte} (h : Tame e m) {u : UpdateMessage}
    (hu : wordAt e u.bytes 0 ≠ syncAggregateMtype) : wordAt e (u.getMsg m).bytes 0 ≠ syncAggregateMtype := by
  rcases h with rfl | ⟨mtype, text, hne, rfl⟩
  · simpa [UpdateMessage.getMsg, overwrite] using hu
  · have htake : (bytesOf e mtype ++ text).take msgsz = bytesOf e mtype ++ text.take (msgsz - 4) := by
      rw [List.take_append, length_bytesOf, List.take_of_length_le (by rw [length_bytesOf]; decide)]
    have hword : wordAt e (u.getMsg (bytesOf e mtype ++ text)).bytes 0 = mtype := by
      simp only [UpdateMessage.getMsg, htake]
      rw [wordAt, slice_overwrite_inside (Nat.zero_le _) (Nat.zero_le _) (by simp), Nat.sub_zero,
        slice_append_left (by simp), slice, List.drop_zero, List.take_of_length_le (by simp), wordOf_bytesOf]
    rwa [hword]

theorem wordAt_of_command {u : UpdateMessage} (h : u.command e clock = .syncAggregate) :
    wordAt e u.bytes 0 = syncAggregateMtype := by
  simp only [UpdateMessage.command] at h
  split_ifs at h
  assumption

/-- A turn of `bloommgr` on tame messages: the guard is not posted. -/
theorem AllTame.bloommgr (h : AllTame e n) (hn : bloommgr e clock n = .ok n') :
    AllTame e n' ∧ n'.ctx.syncGuard = n.ctx.syncGuard := by
  rcases bloommgr_cases hn with rfl | ⟨m, outq, hq, houtq, hmessage, hinq, hhand, hguard⟩
  · exact ⟨h, rfl⟩
  · have hm : Tame e m := h.outq m (by rw [hq]; exact List.mem_cons_self)
    have hword : wordAt e n'.message.bytes 0 ≠ syncAggregateMtype := by
      rw [hmessage]
      exact hm.getMsg h.message
    refine ⟨⟨hword, by rw [hinq]; exact h.inq, by rw [hhand]; exact h.hand, ?_⟩, ?_⟩
    · rw [houtq]
      exact fun m' hm' => h.outq m' (by rw [hq]; exact List.mem_cons_of_mem _ hm')
    · rw [hguard, if_neg (fun hcmd => hword (wordAt_of_command hcmd)), Nat.add_zero]

/-- The daemon has connected, nothing is released, and nothing will be. -/
structure Daemon.Stuck (e : Endian) (d : Daemon) : Prop where
  /-- As in every run. -/
  inv : d.Inv
  /-- `syncmgr` has started and connected. -/
  connected : d.syncmgr ≠ .unborn ∧ d.syncmgr ≠ .starting
  /-- The guard has not been released. -/
  released : d.released = 0
  /-- And no message will release it. -/
  tame : AllTame e d.node

/-- Every step keeps it so. -/
theorem Daemon.Stuck.step (h : d.Stuck e) {act : Act} (hstep : d.step ndebug e act = .ok d') : d'.Stuck e := by
  have hinv := h.inv.step hstep
  cases Daemon.step_cases h.inv.syncer hstep with
  | main =>
    obtain ⟨⟨g, hnode⟩, hreleased, -⟩ := d.mainStep_frame
    refine ⟨hinv, by rw [h.inv.mainStep_syncmgr h.connected.1]; exact h.connected, hreleased.trans h.released, ?_⟩
    rw [hnode]
    exact ⟨h.tame.message, h.tame.inq, h.tame.hand, h.tame.outq⟩
  | build => exact ⟨hinv, h.connected, h.released, ⟨h.tame.message, h.tame.inq, h.tame.hand, h.tame.outq⟩⟩
  | manage hn =>
    obtain ⟨htame, hguard⟩ := h.tame.bloommgr hn
    refine ⟨hinv, h.connected, ?_, htame⟩
    simp only [hguard, Nat.sub_self, Nat.add_zero]
    exact h.released
  | take hinq => exact ⟨hinv, h.connected, h.released, h.tame.take hinq⟩
  | pass hhand => exact ⟨hinv, h.connected, h.released, h.tame.pass hhand⟩
  | moves hm =>
    refine ⟨hinv, ⟨mt hm.birth.mp h.connected.1, mt hm.starting h.connected.2⟩, ?_, h.tame.feeds hm.feeds⟩
    exact (hm.released.resolve_right fun hstart => h.connected.2 hstart.1).trans h.released

/-- **Without assertions**: when the buffer of `bloommgr` does not by chance hold a
`SYNC_AGGREGATE` from the start, nothing is released after a connection that succeeds,
whatever arrives on it and however it ends, and `main` waits for ever. -/
theorem never_released_ndebug (e : Endian) (ctx : Ctx) (message : UpdateMessage)
    (hmessage : wordAt e message.bytes 0 ≠ syncAggregateMtype) (acts acts' : List Act) (d d' : Daemon)
    (h : (Daemon.start ctx message).run true e acts = .ok d) (hconnected : d.syncmgr = .connected)
    (h' : d.run true e acts' = .ok d') : d'.released = 0 ∧ d'.main = .waiting := by
  have hearly := Daemon.early_run h (by rw [hconnected]; rfl)
  have htame : AllTame e d.node := by
    refine ⟨by rw [hearly.message]; exact hmessage, ?_, ?_, ?_⟩
    · simp [hearly.inq]
    · simp [hearly.hand]
    · simp [hearly.outq]
  have hstart : d.Stuck e := ⟨Daemon.inv_run h, by simp [hconnected], hearly.released, htame⟩
  have hstuck : d'.Stuck e := foldlM_preserves (Daemon.Stuck e) (fun _ _ _ hd hstep => hd.step hstep) hstart h'
  exact ⟨hstuck.released, hstuck.inv.waiting hstuck.connected.1 hstuck.released⟩

/-! ### A buffer that holds a `SYNC_AGGREGATE` by chance -/

/-- The guard has been posted, or will be by the first message: it has no bytes, and `bloommgr` takes it for what its
buffer holds. -/
structure Daemon.Pending (ctx : Ctx) (message : UpdateMessage) (d : Daemon) : Prop where
  /-- As in every run. -/
  inv : d.Inv
  /-- Nothing is queued before the first message. -/
  early : d.syncmgr.fresh = true → d.Early ctx message
  /-- `syncmgr` has started and connected. -/
  connected : d.syncmgr ≠ .unborn ∧ d.syncmgr ≠ .starting
  /-- The first message is still to be sent, or to be taken. -/
  pending : 1 ≤ d.released ∨ d.node.message = message ∧ d.node.ctx.filter = ctx.filter ∧
    (d.syncmgr = .connected ∨ ∃ rest, d.node.outq = [] :: rest)

theorem command_of_wordAt (clock : Clock) {u : UpdateMessage} (h : wordAt e u.bytes 0 = syncAggregateMtype) :
    u.command e clock = .syncAggregate := by
  simp only [UpdateMessage.command, h]
  rfl

theorem getMsg_nil (u : UpdateMessage) : u.getMsg [] = u := by
  cases u
  simp [UpdateMessage.getMsg, overwrite]

/-- `syncmgr` sends the first message, if it has not been sent, and what is queued after it does not matter. -/
theorem first_of_moves (hm : d.Moves ndebug e d') (hearly : d.syncmgr.fresh = true → d.Early ctx message)
    (h : d.syncmgr = .connected ∨ ∃ rest, d.node.outq = [] :: rest) :
    d'.syncmgr = .connected ∨ ∃ rest, d'.node.outq = [] :: rest := by
  rcases h with h | ⟨rest, hrest⟩
  · refine (hm.connected h).imp_right fun hsent => ⟨[], ?_⟩
    rw [hsent.2, (hearly (by rw [h]; rfl)).outq]
    rfl
  · obtain ⟨ms, hms, -⟩ := hm.feeds.outq
    exact .inr ⟨rest ++ ms, by rw [hms, hrest]; rfl⟩

/-- A turn of `bloommgr` takes the first message, if it has been sent, and posts the guard. -/
theorem released_of_bloommgr (hsync : wordAt e message.bytes 0 = syncAggregateMtype)
    (hmessage : d.node.message = message) (hearly : d.syncmgr.fresh = true → d.Early ctx message)
    (hfirst : d.syncmgr = .connected ∨ ∃ rest, d.node.outq = [] :: rest) (hn : bloommgr e clock d.node = .ok n) :
    n = d.node ∧ d.syncmgr = .connected ∨ n.ctx.syncGuard = d.node.ctx.syncGuard + 1 := by
  rcases bloommgr_cases hn with rfl | ⟨m, outq, hq, -, hmsg, -, -, hguard⟩
  · rcases hfirst with hconnected | ⟨rest, hrest⟩
    · exact .inl ⟨rfl, hconnected⟩
    · simp only [bloommgr, hrest] at hn
      obtain ⟨ctx', -, hn⟩ := bind_eq_ok hn
      have hlen := congrArg (fun n : Node => n.outq.length) (Except.ok.inj hn)
      simp [hrest] at hlen
  · rcases hfirst with hconnected | ⟨rest, hrest⟩
    · rw [(hearly (by rw [hconnected]; rfl)).outq] at hq
      cases hq
    · rw [hrest] at hq
      cases hq
      rw [hmessage, getMsg_nil] at hmsg
      rw [hmsg, command_of_wordAt clock hsync, if_pos rfl] at hguard
      exact .inr hguard

/-- Every step keeps it so. -/
theorem Daemon.Pending.step (hsync : wordAt e message.bytes 0 = syncAggregateMtype) (h : d.Pending ctx message)
    {act : Act} (hstep : d.step ndebug e act = .ok d') : d'.Pending ctx message := by
  have hinv := h.inv.step hstep
  have hearly := Daemon.Early.step h.inv h.early hstep
  cases Daemon.step_cases h.inv.syncer hstep with
  | main =>
    obtain ⟨⟨g, hnode⟩, hreleased, -⟩ := d.mainStep_frame
    have hs := h.inv.mainStep_syncmgr h.connected.1
    refine ⟨hinv, hearly, by rw [hs]; exact h.connected, ?_⟩
    rw [hreleased, hnode, hs]
    exact h.pending
  | build | take => exact ⟨hinv, hearly, h.connected, h.pending⟩
  | manage hn =>
    refine ⟨hinv, hearly, h.connected, ?_⟩
    rcases h.pending with hposted | ⟨hmessage, hfilter, hfirst⟩
    · exact .inl (hposted.trans (Nat.le_add_right _ _))
    · rcases released_of_bloommgr hsync hmessage h.early hfirst hn with ⟨rfl, hconnected⟩ | hguard
      · exact .inr ⟨hmessage, hfilter, .inl hconnected⟩
      · exact .inl (by simp only [hguard]; omega)
  | pass =>
    refine ⟨hinv, hearly, h.connected, h.pending.imp_right fun hp => ⟨hp.1, hp.2.1, hp.2.2.imp_right ?_⟩⟩
    rintro ⟨rest, hrest⟩
    exact ⟨_, by rw [hrest]; rfl⟩
  | moves hm =>
    refine ⟨hinv, hearly, ⟨mt hm.birth.mp h.connected.1, mt hm.starting h.connected.2⟩, ?_⟩
    rcases h.pending with hposted | ⟨hmessage, hfilter, hfirst⟩
    · rcases hm.released with hr | ⟨-, hr⟩ <;> exact .inl (by omega)
    · exact .inr ⟨hm.feeds.message.trans hmessage, hm.feeds.filter.trans hfilter, first_of_moves hm h.early hfirst⟩

/-- Whenever nothing has been released, the ring has been built. -/
theorem Daemon.Inv.built_of_waiting (h : d.Inv) (hmain : d.main = .waiting) (hreleased : d.released = 0) :
    d.built = true := by
  have hacc := h.accounted
  simp only [Daemon.Accounted, hmain, Main.holds, hreleased] at hacc
  cases hbuilt : d.built with
  | true => rfl
  | false =>
    simp only [hbuilt, building, reduceCtorEq, if_false] at hacc
    omega

/-- The first message is taken, and the guard is posted. -/
theorem exists_posted_of_first {num nb : ℕ} (ndebug : Bool) (hring : ctx.filter.WF num nb)
    (hsync : wordAt e message.bytes 0 = syncAggregateMtype) (hbuilt : d.built = true) (hmessage : d.node.message = message)
    (hfilter : d.node.ctx.filter = ctx.filter) {rest : List (List Byte)} (hrest : d.node.outq = [] :: rest) (clock : Clock) :
    ∃ d', d.step ndebug e (.manage clock) = .ok d' ∧ 1 ≤ d'.released := by
  obtain ⟨filter, hagg, -⟩ := syncAggregate_ok (hfilter ▸ hring)
  have hexec : d.node.ctx.execute .syncAggregate =
      .ok { d.node.ctx with filter := filter, syncGuard := d.node.ctx.syncGuard + 1 } := by
    simp only [Ctx.execute, hagg]
    rfl
  simp only [Daemon.step, hbuilt, if_true, bloommgr, hrest, hmessage, getMsg_nil, command_of_wordAt clock hsync, hexec, ok_bind]
  exact ⟨_, rfl, by dsimp only; omega⟩

/-- As long as the guard has not been posted, it can be. -/
theorem Daemon.Pending.exists_posted {num nb : ℕ} (hring : ctx.filter.WF num nb)
    (hsync : wordAt e message.bytes 0 = syncAggregateMtype) (h : d.Pending ctx message) :
    ∃ acts d', d.run true e acts = .ok d' ∧ 1 ≤ d'.released := by
  rcases Nat.eq_zero_or_pos d.released with hzero | hpos
  · have hbuilt := h.inv.built_of_waiting (h.inv.waiting h.connected.1 hzero) hzero
    have clock : Clock := ⟨0, 0, 0, 0⟩
    obtain ⟨hmessage, hfilter, hconnected | ⟨rest, hrest⟩⟩ := h.pending.resolve_left (by omega)
    · -- `syncmgr` sends the message first
      have houtq : d.node.outq ++ [[]] = [] :: [] := by rw [(h.early (by rw [hconnected]; rfl)).outq]; rfl
      have hstep : d.step true e (.syncmgr closingPeer) =
          .ok { d with syncmgr := .syncerDue, node := { d.node with outq := d.node.outq ++ [[]] } } := by
        simp only [Daemon.step, Daemon.syncmgrStep, hconnected]
        rfl
      obtain ⟨d', hd', hposted⟩ := exists_posted_of_first
        (d := { d with syncmgr := .syncerDue, node := { d.node with outq := d.node.outq ++ [[]] } }) true hring hsync hbuilt
        hmessage hfilter houtq clock
      exact ⟨[.syncmgr closingPeer, .manage clock], d', by simp [Daemon.run, hstep, hd', ok_bind], hposted⟩
    · obtain ⟨d', hd', hposted⟩ := exists_posted_of_first true hring hsync hbuilt hmessage hfilter hrest clock
      exact ⟨[.manage clock], d', by simp [Daemon.run, hd'], hposted⟩
  · exact ⟨[], d, rfl, hpos⟩

end Steps

/-! ### Both builds -/

section Builds

variable (ndebug : Bool) (e : Endian) (ctx : Ctx) (message : UpdateMessage)

/-- A state that the daemon can get to after its connection to the peer has succeeded. -/
def AfterConnect (d : Daemon) : Prop :=
  ∃ acts acts' d₀, (Daemon.start ctx message).run ndebug e acts = .ok d₀ ∧ d₀.syncmgr = .connected ∧
    d₀.run ndebug e acts' = .ok d

/-- By the time `recv_syncs` has returned, the guard has been posted once. -/
def PostedOnce : Prop := ∀ d, AfterConnect ndebug e ctx message d → d.recv = .returned → d.released = 1

/-- `main` is never left to wait without a post: wherever the daemon has got to, there has been one, or there is a way
to one. -/
def NeverLeft : Prop :=
  ∀ d, AfterConnect ndebug e ctx message d → ∃ acts d', d.run ndebug e acts = .ok d' ∧ 1 ≤ d'.released

end Builds

section Builds

/-- The daemon has connected. -/
theorem connected_reached (ndebug : Bool) (e : Endian) (ctx : Ctx) (message : UpdateMessage) :
    ∃ d, AfterConnect ndebug e ctx message d ∧ d.syncmgr = .connected :=
  ⟨_, ⟨[.main, .build, .main, .syncmgr closingPeer], [], _, rfl, rfl, rfl⟩, rfl⟩

/-- Without assertions, the peer sends its configuration and closes the connection: `recv_syncs` has returned, and
`bloommgr` has not had a turn. -/
theorem connected_returned (e : Endian) (ctx : Ctx) (message : UpdateMessage) :
    ∃ d, AfterConnect true e ctx message d ∧ d.recv = .returned ∧ d.released = 0 :=
  ⟨_, ⟨[.main, .build, .main, .syncmgr closingPeer],
    [.syncmgr closingPeer, .syncmgr closingPeer, .recv closingPeer, .recv closingPeer], _, rfl, rfl, rfl⟩, rfl, rfl⟩

variable {e : Endian} {ctx : Ctx} {message : UpdateMessage}

theorem postedOnce_iff {ndebug : Bool} : PostedOnce ndebug e ctx message ↔ ndebug = false := by
  constructor
  · intro h
    by_contra hndebug
    rw [Bool.not_eq_false] at hndebug
    subst hndebug
    obtain ⟨d, hd, hreturned, hreleased⟩ := connected_returned e ctx message
    rw [h d hd hreturned] at hreleased
    cases hreleased
  · rintro rfl d ⟨acts, acts', d₀, hrun, hconnected, hrun'⟩ hreturned
    have hunborn := (never_released e ctx message acts acts' d₀ d hrun hconnected hrun').2.2.1
    rw [hunborn] at hreturned
    cases hreturned

theorem neverLeft_iff {num nb : ℕ} (hring : ctx.filter.WF num nb) {ndebug : Bool} :
    NeverLeft ndebug e ctx message ↔ ndebug = true ∧ wordAt e message.bytes 0 = syncAggregateMtype := by
  constructor
  · intro h
    obtain ⟨d, ⟨acts, acts', d₀, hrun, hconnected, hrun'⟩, -⟩ := connected_reached ndebug e ctx message
    obtain ⟨more, d', hmore, hposted⟩ := h d ⟨acts, acts', d₀, hrun, hconnected, hrun'⟩
    have hall : d₀.run ndebug e (acts' ++ more) = .ok d' := by
      rw [Daemon.run] at hrun' hmore ⊢
      rw [List.foldlM_append, hrun', ok_bind, hmore]
    by_contra hnot
    have hzero : d'.released = 0 := by
      cases ndebug with
      | false => exact (never_released e ctx message acts _ d₀ d' hrun hconnected hall).1
      | true =>
        have hmessage : wordAt e message.bytes 0 ≠ syncAggregateMtype := fun hm => hnot ⟨rfl, hm⟩
        exact (never_released_ndebug e ctx message hmessage acts _ d₀ d' hrun hconnected hall).1
    omega
  · rintro ⟨rfl, hsync⟩ d ⟨acts, acts', d₀, hrun, hconnected, hrun'⟩
    have hfresh : d₀.syncmgr.fresh = true := by rw [hconnected]; rfl
    have hearly := Daemon.early_run hrun
    have hstart : d₀.Pending ctx message := ⟨Daemon.inv_run hrun, hearly, by simp [hconnected],
      .inr ⟨(hearly hfresh).message, (hearly hfresh).filter, .inl hconnected⟩⟩
    have hpending : d.Pending ctx message :=
      foldlM_preserves (Daemon.Pending ctx message) (fun _ _ _ hd hstep => hd.step hsync hstep) hstart hrun'
    exact hpending.exists_posted hring hsync

/-- **The guard after a connection that succeeds**: by the time `recv_syncs` has returned it has been posted once,
exactly in a daemon with assertions, where `recv_syncs` does not come to be. `main` is never left to wait without a
post, exactly in a daemon without assertions whose `bloommgr` has a `SYNC_AGGREGATE` in its buffer by chance. So
there is no daemon of which both are true. -/
theorem guard_posted_iff {num nb : ℕ} (hring : ctx.filter.WF num nb) (ndebug : Bool) :
    (PostedOnce ndebug e ctx message ↔ ndebug = false) ∧
      (NeverLeft ndebug e ctx message ↔ ndebug = true ∧ wordAt e message.bytes 0 = syncAggregateMtype) ∧
      ¬ (PostedOnce ndebug e ctx message ∧ NeverLeft ndebug e ctx message) := by
  refine ⟨postedOnce_iff, neverLeft_iff hring, ?_⟩
  rw [postedOnce_iff, neverLeft_iff hring]
  rintro ⟨hfalse, htrue, -⟩
  rw [hfalse] at htrue
  cases htrue

end Builds

/-- With two filters and a buffer of zeros, `main` may be left to wait, with and without assertions. -/
theorem guard_posted_zero :
    ¬ NeverLeft false .little ⟨10, 2, oneWordRing [0, 0] 0 0, 100, 1⟩ UpdateMessage.zero ∧
      ¬ NeverLeft true .little ⟨10, 2, oneWordRing [0, 0] 0 0, 100, 1⟩ UpdateMessage.zero := by
  have hring : (oneWordRing [0, 0] 0 0).WF 2 5 := wf_oneWordRing rfl (by decide)
  constructor
  · rw [(guard_posted_iff hring false).2.1]
    simp
  · rw [(guard_posted_iff hring true).2.1]
    decide

end Gross.Sync.Guard
