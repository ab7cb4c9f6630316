import Gross.Foundation.Connection
import Gross.Foundation.Run
import Gross.Sync.Stream

/-!
# A stream that is cut

The connection to a peer may be lost after any byte, and until then `read` gives
what it likes of what was asked for. Here the receivers run on such a connection:
`recv_syncs`, on the connection that `synchronize` made, and the loop at the end
of `synchronize`, on one that it accepted.

## What is proved

A cut is *harmless* (`exact_iff`) when the update queue ends up with the messages
of what arrived completely, and nothing else, and no assertion fails:

* a connection that fails in the middle of a message is: `readn` returns an error;
* one that is closed there need not be. `readn` then returns the few bytes it
  has, and the receivers know only "an error" and "nothing at all". A chunk or a
  digest of which one byte has come is filled up with what the variable held
  before, and is queued; the first half of the header of an `AGGREGATE_SYNC`
  passes for the whole.

A complete `AGGREGATE_SYNC` is never harmless, as in `Gross.Sync.Stream`.

## The argument

Where `readn` has all that was asked for, the receivers are those of
`Gross.Sync.Receive` (`recvSyncMsg_on`). What is left is one message that is cut, and
after it the receiver is `Idle`: nothing it can still do touches the queue.

## Honest scope

One connection at a time: nothing else sets `peer->connected` while it is read.
Descriptor 0, from which the receivers read once `peer->connected` is 0, is
`/dev/null`, as `daemonize` leaves it. The copy in the queue lacks the last word
of the text, cut or not (`recvSyncMsg_oper_iff`); here it counts as the message.
-/

namespace Gross.Sync

open Foundation Bloom

/-! ### Messages by their bytes -/

/-- The type in the header. -/
def PeerMsg.type : PeerMsg → Word
  | .startup _ => startupSyncType
  | .oper _ => operSyncType
  | .aggregate => aggregateSyncType

/-- The number of bytes after the header. -/
def PeerMsg.bodyBytes : PeerMsg → ℕ
  | .startup _ => startupSyncBytes
  | .oper _ => digestBytes
  | .aggregate => 0

/-- The number of bytes of a message. -/
def PeerMsg.size (q : PeerMsg) : ℕ := syncMsgBytes + q.bodyBytes

/-- The message goes through the inner queue. -/
def PeerMsg.isOper : PeerMsg → Bool
  | .oper _ => true
  | _ => false

/-- A message is a header and a body. -/
theorem PeerMsg.send_eq (e : Endian) (q : PeerMsg) :
    ∃ length body, q.send e = prologue e q.type length ++ body ∧ body.length = q.bodyBytes := by
  cases q with
  | startup ss => exact ⟨_, _, rfl, length_toBytes_startupSync e _⟩
  | oper d => exact ⟨_, _, rfl, length_toBytes_digest e _⟩
  | aggregate =>
    refine ⟨0, [], ?_, rfl⟩
    rw [List.append_nil, PeerMsg.send, forcePeerAggregate_eq]
    rfl

@[simp] theorem PeerMsg.length_send (e : Endian) (q : PeerMsg) : (q.send e).length = q.size := by
  obtain ⟨length, body, hsend, hbody⟩ := q.send_eq e
  rw [hsend, List.length_append, length_prologue, hbody, size]

theorem PeerMsg.size_aggregate : PeerMsg.aggregate.size = syncMsgBytes := rfl

theorem PeerMsg.bodyBytes_pos {q : PeerMsg} (hq : q ≠ .aggregate) : 0 < q.bodyBytes := by
  cases q with
  | aggregate => exact absurd rfl hq
  | startup ss => exact Nat.succ_pos _
  | oper d => exact Nat.succ_pos _

/-- The messages that have arrived completely with the first `k` bytes. -/
def arrived : List PeerMsg → ℕ → List PeerMsg
  | [], _ => []
  | q :: msgs, k => if q.size ≤ k then q :: arrived msgs (k - q.size) else []

/-- The message after them, and how many bytes of it have arrived. -/
def cutMsg : List PeerMsg → ℕ → Option (PeerMsg × ℕ)
  | [], _ => none
  | q :: msgs, k => if q.size ≤ k then cutMsg msgs (k - q.size) else some (q, k)

namespace Cut

/-! ### The receivers -/

/-- What a receiver works on. -/
structure Inbox where
  /-- The connection. -/
  conn : Conn Byte
  /-- `peer->connected` is not zero. -/
  connected : Bool
  /-- The inner queue, of `put_msg`. -/
  inq : List (List Byte)
  /-- The outer queue, of `instant_msg`. -/
  outq : List (List Byte)

/-- `readn(peer->connected, &msg, n)`. -/
def Inbox.read (s : Inbox) (n : ℕ) : Option (List Byte) × Inbox :=
  if s.connected then
    let (ret, conn) := s.conn.readn n
    (ret, { s with conn := conn })
  else (some [], s)

/-- `peer->connected = 0`. -/
def Inbox.disconnect (s : Inbox) : Inbox := { s with connected := false }

/-- The common part of `recv_startup_sync` and `recv_oper_sync`: read a body, make a
message of it and queue as many bytes of that. -/
def recvBody (n : ℕ) (build : List Byte → UpdateMessage) (put : List Byte → Inbox → Inbox) (s : Inbox) :
    Except Fault (Option ℤ × Inbox) :=
  match s.read n with
  | (none, s) | (some [], s) => .ok (some 0, s.disconnect)
  | (some (b :: bs), s) => do
    let m ← newMsg (build (b :: bs)) n
    return (some 1, put m s)

/-- The `update` of `recv_startup_sync`, when `bs` was read into `startup_sync_t msg = { -1 }`. -/
def startupUpdate (e : Endian) (loc : Locals) (bs : List Byte) : UpdateMessage :=
  let buf := overwrite (StartupSync.toBytes e ⟨-1, 0, Vector.replicate 32 0⟩) 0 bs
  let msg := sstoh e (StartupSync.ofBytes e buf)
  loc.update.write e absoluteUpdateMtype (StartupSync.toBytes e msg) (by simp [startupSyncBytes, msgsz])

/-- The `update` of `recv_oper_sync`, when `bs` was read into `oper_sync_t msg`. -/
def operUpdate (e : Endian) (loc : Locals) (bs : List Byte) : UpdateMessage :=
  let buf := overwrite (Digest.toBytes e loc.digest) 0 bs
  let msg := dtoh e (Digest.ofBytes e buf)
  loc.update.write e updateOperMtype (Digest.toBytes e msg) (by simp [digestBytes, msgsz])

/-- `instant_msg`, when the copy is made. -/
def Inbox.instantMsg (m : List Byte) (s : Inbox) : Inbox := { s with outq := s.outq ++ [m] }

/-- `put_msg`, when the copy is made. -/
def Inbox.putMsg (m : List Byte) (s : Inbox) : Inbox := { s with inq := s.inq ++ [m] }

/-- `recv_startup_sync`. -/
def recvStartupSync (e : Endian) (loc : Locals) : Inbox → Except Fault (Option ℤ × Inbox) :=
  recvBody startupSyncBytes (startupUpdate e loc) Inbox.instantMsg

/-- `recv_oper_sync`. -/
def recvOperSync (e : Endian) (loc : Locals) : Inbox → Except Fault (Option ℤ × Inbox) :=
  recvBody digestBytes (operUpdate e loc) Inbox.putMsg

/-- `ntohl(msg.type)`, when `bs` was read into `sync_msg_t msg = { -1 }`. -/
def typeOf (e : Endian) (bs : List Byte) : Word :=
  ntohl e (wordAt e (overwrite (bytesOf e (-1) ++ bytesOf e 0) 0 bs) 0)

/-- The `switch` of `recv_sync_msg`. In its default branch it waits for the sync guard:
that is `none`. -/
def recvTyped (e : Endian) (loc : Locals) (type : Word) (s : Inbox) : Except Fault (Option ℤ × Inbox) :=
  if type = startupSyncType then recvStartupSync e loc s
  else if type = operSyncType then recvOperSync e loc s
  else if type = aggregateSyncType then do
    let update := loc.update.write e syncAggregateMtype [] (Nat.zero_le _)
    let m ← newMsg update 0
    return (some 1, s.instantMsg m)
  else .ok (none, s)

/-- `recv_sync_msg`, with what it returns. -/
def recvSyncMsg (e : Endian) (loc : Locals) (s : Inbox) : Except Fault (Option ℤ × Inbox) :=
  match s.read syncMsgBytes with
  | (none, s) | (some [], s) => .ok (some 0, s.disconnect)
  | (some (b :: bs), s) => recvTyped e loc (typeOf e (b :: bs)) s

/-- `recv_config_sync`, on a node with configuration `conf`. The automatic variable held
`msg`. -/
def recvConfigSync (e : Endian) (conf msg : SyncConfig) (s : Inbox) : Except Fault Inbox :=
  match s.read syncConfigBytes with
  | (none, _) | (some [], _) => .error .exit
  | (some (b :: bs), s) =>
    let buf := overwrite (bytesOf e msg.filterSize ++ bytesOf e msg.numBufs) 0 (b :: bs)
    if ntohl e (wordAt e buf 0) = conf.filterSize ∧ ntohl e (wordAt e buf 4) = conf.numBufs then .ok s
    else .error .exit

/-! ### Runs -/

/-- How far a receiver is. -/
inductive Phase where
  /-- It waits for the configuration. -/
  | config
  /-- It receives messages. -/
  | syncing
  /-- It waits for the sync guard, after a message of an unknown type. -/
  | guarding
  /-- Its loop has ended. -/
  | returned
  /-- It has stopped the daemon. -/
  | stopped (f : Fault)
  deriving DecidableEq, Repr

/-- The state of a receiver. -/
structure Receiver where
  /-- How far it is. -/
  phase : Phase
  /-- What it works on. -/
  inbox : Inbox

/-- What the world adds to a step of a receiver. -/
structure Turn where
  /-- What the automatic variables hold. -/
  loc : Locals
  /-- What `sync_config_t msg` holds. -/
  config : SyncConfig
  /-- The sync guard is free. -/
  free : Bool

/-- A step of a receiver. -/
def Receiver.step (e : Endian) (conf : SyncConfig) (r : Receiver) (t : Turn) : Receiver :=
  match r.phase with
  | .config =>
    match recvConfigSync e conf t.config r.inbox with
    | .ok s => ⟨.syncing, s⟩
    | .error f => ⟨.stopped f, r.inbox⟩
  | .syncing =>
    match recvSyncMsg e t.loc r.inbox with
    | .ok (some ret, s) => ⟨if ret = 0 then .returned else .syncing, s⟩
    | .ok (none, s) => ⟨.guarding, s⟩
    | .error f => ⟨.stopped f, r.inbox⟩
  | .guarding => if t.free then ⟨.syncing, r.inbox.disconnect⟩ else r
  | .returned | .stopped _ => r

/-- A run of a receiver. -/
def Receiver.run (e : Endian) (conf : SyncConfig) (r : Receiver) (turns : List Turn) : Receiver :=
  turns.foldl (Receiver.step e conf) r

theorem Receiver.run_cons (e : Endian) (conf : SyncConfig) (r : Receiver) (t : Turn) (turns : List Turn) :
    r.run e conf (t :: turns) = (r.step e conf t).run e conf turns := rfl

/-- Who made the connection. -/
inductive Side where
  /-- This node did. The peer sends its configuration first. -/
  | outgoing
  /-- The peer did. -/
  | incoming
  deriving DecidableEq, Repr

/-- Where the receiver starts. -/
def Side.phase : Side → Phase
  | .outgoing => .config
  | .incoming => .syncing

/-- What the peer sends before the messages. -/
def Side.greeting (e : Endian) (conf : SyncConfig) : Side → List Byte
  | .outgoing => sendSyncConfig e conf
  | .incoming => []

/-- How many bytes that is. -/
def Side.greetingBytes : Side → ℕ
  | .outgoing => syncConfigBytes
  | .incoming => 0

/-- The receiver on a connection, with nothing in its queues. -/
def Side.receiver (side : Side) (c : Conn Byte) : Receiver := ⟨side.phase, ⟨c, true, [], []⟩⟩

/-! ### Which cuts do no harm -/

/-- A message of which `k` bytes have arrived, when the connection is closed, does no
harm. -/
def PeerMsg.Harmless : PeerMsg → ℕ → Prop
  | .aggregate, k => k < 4
  | _, k => k ≤ syncMsgBytes

/-- A connection that ends after `k` bytes of the messages does no harm. -/
def Harmless (ending : Ending) (msgs : List PeerMsg) (k : ℕ) : Prop :=
  .aggregate ∉ arrived msgs k ∧ (ending = .failed ∨ ∀ p ∈ cutMsg msgs k, PeerMsg.Harmless p.1 p.2)

/-- A receiver has added the messages `msgs` to the queues of `s`, and no assertion has
failed. -/
structure Receiver.Adds (e : Endian) (s : Inbox) (msgs : List PeerMsg) (r : Receiver) : Prop where
  /-- No assertion has failed. -/
  phase : r.phase ≠ .stopped .assertion
  /-- Digests go to the inner queue. -/
  inq : r.inbox.inq = s.inq ++ (msgs.filter fun q => q.isOper).map (PeerMsg.queued e)
  /-- The others go to the outer queue. -/
  outq : r.inbox.outq = s.outq ++ (msgs.filter fun q => !q.isOper).map (PeerMsg.queued e)

/-- An assertion has failed, or there is a message too many. -/
def Receiver.Spoilt (s : Inbox) (msgs : List PeerMsg) (r : Receiver) : Prop :=
  r.phase = .stopped .assertion ∨
    r.inbox.inq.length + r.inbox.outq.length = s.inq.length + s.outq.length + msgs.length + 1

variable {e e' : Endian} {conf : SyncConfig} {s : Inbox} {q : PeerMsg} {msgs : List PeerMsg} {k n : ℕ} {r : Receiver}

theorem Receiver.Adds.not_spoilt (h : r.Adds e s msgs) : ¬ r.Spoilt s msgs := by
  have hlen := List.length_eq_length_filter_add (l := msgs) fun q => q.isOper
  rintro (hphase | hcount)
  · exact h.phase hphase
  · rw [h.inq, h.outq] at hcount
    simp only [List.length_append, List.length_map] at hcount
    omega

/-! ### Reading -/

/-- Reading changes the connection only. -/
theorem Inbox.read_eq (s : Inbox) (n : ℕ) : ∃ ret c, s.read n = (ret, { s with conn := c }) := by
  unfold read
  split
  · exact ⟨_, _, rfl⟩
  · exact ⟨_, s.conn, rfl⟩

theorem Inbox.read_of_holds (hs : s.connected = true) (h : s.conn.Holds n) :
    ∃ c, s.read n = (some (s.conn.bytes.take n), { s with conn := c }) ∧ c.bytes = s.conn.bytes.drop n ∧
      c.ending = s.conn.ending := by
  obtain ⟨c, hread, hc⟩ := Conn.readn_of_holds h
  exact ⟨c, by rw [read, if_pos hs, hread], hc⟩

theorem Inbox.read_of_not_holds (hs : s.connected = true) (h : ¬ s.conn.Holds n) :
    ∃ c, s.read n = (none, { s with conn := c }) := by
  obtain ⟨c, hread⟩ := Conn.readn_of_not_holds h
  exact ⟨c, by rw [read, if_pos hs, hread]⟩

/-- Reading where there is nothing, or where the connection fails. -/
theorem Inbox.read_of_lost (h : s.connected = false ∨ s.conn.bytes = [] ∨ ¬ s.conn.Holds n) :
    ∃ c, s.read n = (none, { s with conn := c }) ∨ s.read n = (some [], { s with conn := c }) := by
  by_cases hs : s.connected = true
  · by_cases hh : s.conn.Holds n
    · obtain ⟨c, hread, -⟩ := read_of_holds hs hh
      have hnil : s.conn.bytes = [] := by simpa [hs, hh] using h
      exact ⟨c, .inr (by rw [hread, hnil, List.take_nil])⟩
    · obtain ⟨c, hread⟩ := read_of_not_holds hs hh
      exact ⟨c, .inl hread⟩
  · exact ⟨s.conn, .inr (if_neg hs)⟩

/-- The first four bytes of a header are its type. -/
theorem typeOf_take (e e' : Endian) (type length : Word) (hk : 4 ≤ k) :
    typeOf e' ((prologue e type length).take k) = type := by
  have hlen : 4 ≤ ((prologue e type length).take k).length := by
    rw [List.length_take, length_prologue, syncMsgBytes]
    omega
  have hslice : slice ((prologue e type length).take k) 0 4 = bytesOf e (htonl e type) := by
    rw [slice, List.drop_zero, List.take_take, Nat.min_eq_left hk, prologue, List.take_left' (length_bytesOf _ _)]
  rw [typeOf, wordAt, slice_overwrite_inside (Nat.zero_le _) (Nat.zero_le _) (by omega), Nat.sub_zero, hslice,
    ntohl_wordOf_bytesOf_htonl]

/-- Fewer are the type of nothing: the byte that tells the types apart is still that
of -1. -/
theorem typeOf_take_lt (e e' : Endian) (q : PeerMsg) (length : Word) (h0 : 0 < k) (hk : k < 4) :
    typeOf e' ((prologue e q.type length).take k) ≠ startupSyncType ∧
      typeOf e' ((prologue e q.type length).take k) ≠ operSyncType ∧
      typeOf e' ((prologue e q.type length).take k) ≠ aggregateSyncType := by
  have htake : (prologue e q.type length).take k = (bytesOf .big q.type).take k := by
    rw [prologue, bytesOf_htonl, List.take_append_of_le_length (by rw [length_bytesOf]; omega)]
  have htype : q.type = startupSyncType ∨ q.type = operSyncType ∨ q.type = aggregateSyncType := by
    cases q <;> simp [PeerMsg.type]
  rw [htake]
  obtain rfl | rfl | rfl : k = 1 ∨ k = 2 ∨ k = 3 := by omega
  all_goals
    rcases htype with htype | htype | htype <;> rw [htype] <;> cases e' <;> decide

/-! ### One message -/

theorem recvTyped_startup (e : Endian) (loc : Locals) (s : Inbox) :
    recvTyped e loc startupSyncType s = recvStartupSync e loc s := if_pos rfl

theorem recvTyped_oper (e : Endian) (loc : Locals) (s : Inbox) :
    recvTyped e loc operSyncType s = recvOperSync e loc s := by
  rw [recvTyped, if_neg (by decide), if_pos rfl]

/-- `instant_msg` is asked to copy nothing. -/
theorem recvTyped_aggregate (e : Endian) (loc : Locals) (s : Inbox) :
    recvTyped e loc aggregateSyncType s = .error .assertion := by
  rw [recvTyped, if_neg (by decide), if_neg (by decide), if_pos rfl]
  simp only [newMsg_zero, error_bind]

/-- `recv_sync_msg` when some of a header has come, and the connection has not failed. -/
theorem recvSyncMsg_of_take (e' : Endian) (loc : Locals) (hs : s.connected = true) (hh : s.conn.Holds syncMsgBytes)
    {bs : List Byte} (hbs : s.conn.bytes.take syncMsgBytes = bs) (hne : bs ≠ []) :
    ∃ c, recvSyncMsg e' loc s = recvTyped e' loc (typeOf e' bs) { s with conn := c } ∧
      c.bytes = s.conn.bytes.drop syncMsgBytes ∧ c.ending = s.conn.ending := by
  obtain ⟨c, hread, hc⟩ := Inbox.read_of_holds hs hh
  rw [hbs] at hread
  cases bs with
  | nil => exact absurd rfl hne
  | cons b bs => exact ⟨c, by simp only [recvSyncMsg, hread], hc⟩

/-- Half a header will do. -/
theorem recvSyncMsg_of_header (e e' : Endian) (loc : Locals) (hs : s.connected = true)
    (hh : s.conn.Holds syncMsgBytes) {type length : Word} (hk : 4 ≤ k)
    (hbs : s.conn.bytes.take syncMsgBytes = (prologue e type length).take k) :
    ∃ c, recvSyncMsg e' loc s = recvTyped e' loc type { s with conn := c } ∧
      c.bytes = s.conn.bytes.drop syncMsgBytes ∧ c.ending = s.conn.ending := by
  have hne : (prologue e type length).take k ≠ [] := by
    apply List.ne_nil_of_length_pos
    rw [List.length_take, length_prologue, syncMsgBytes]
    omega
  have hrecv := recvSyncMsg_of_take e' loc hs hh hbs hne
  rwa [typeOf_take e e' type length hk] at hrecv

/-- `recv_sync_msg` when there is nothing to be had. -/
theorem recvSyncMsg_of_lost (e : Endian) (loc : Locals)
    (h : s.connected = false ∨ s.conn.bytes = [] ∨ ¬ s.conn.Holds syncMsgBytes) :
    ∃ c, recvSyncMsg e loc s = .ok (some 0, { s with conn := c, connected := false }) := by
  obtain ⟨c, hread | hread⟩ := Inbox.read_of_lost h
  all_goals exact ⟨c, by simp only [recvSyncMsg, hread, Inbox.disconnect]⟩

/-- A body is lost, or makes a message. -/
theorem recvBody_cases (n : ℕ) (hn : n ≠ 0) (build : List Byte → UpdateMessage)
    (put : List Byte → Inbox → Inbox) (s : Inbox) :
    ∃ c, recvBody n build put s = .ok (some 0, { s with conn := c, connected := false }) ∨
      ∃ bs, recvBody n build put s = .ok (some 1, put ((build bs).bytes.take n) { s with conn := c }) := by
  obtain ⟨ret, c, hread⟩ := Inbox.read_eq s n
  refine ⟨c, ?_⟩
  match ret, hread with
  | none, hread => exact .inl (by simp only [recvBody, hread, Inbox.disconnect])
  | some [], hread => exact .inl (by simp only [recvBody, hread, Inbox.disconnect])
  | some (b :: bs), hread =>
    refine .inr ⟨b :: bs, ?_⟩
    simp only [recvBody, hread, newMsg, check_pos hn, ok_bind, pure_bind]
    rfl

/-- A body of which nothing has come, or that a failure cuts. -/
theorem recvBody_of_lost (build : List Byte → UpdateMessage) (put : List Byte → Inbox → Inbox)
    (h : s.conn.bytes = [] ∨ ¬ s.conn.Holds n) :
    ∃ c, recvBody n build put s = .ok (some 0, { s with conn := c, connected := false }) := by
  obtain ⟨c, hread | hread⟩ := Inbox.read_of_lost (.inr h)
  all_goals exact ⟨c, by simp only [recvBody, hread, Inbox.disconnect]⟩

/-- Any bytes make a message. -/
theorem recvBody_of_some (build : List Byte → UpdateMessage) (put : List Byte → Inbox → Inbox)
    (hs : s.connected = true) (hn : n ≠ 0) (hh : s.conn.Holds n) (hne : s.conn.bytes ≠ []) :
    ∃ c, recvBody n build put s =
        .ok (some 1, put ((build (s.conn.bytes.take n)).bytes.take n) { s with conn := c }) ∧
      c.bytes = s.conn.bytes.drop n ∧ c.ending = s.conn.ending := by
  obtain ⟨c, hread, hc⟩ := Inbox.read_of_holds hs hh
  cases hbs : s.conn.bytes.take n with
  | nil => exact absurd ((List.take_eq_nil_iff.mp hbs).resolve_left hn) hne
  | cons b bs =>
    rw [hbs] at hread
    simp only [recvBody, hread, newMsg, check_pos hn, ok_bind, pure_bind]
    exact ⟨c, rfl, hc⟩

/-! ### Where nothing is cut -/

/-- The node of `Gross.Sync.Receive` that a receiver is part of. -/
def Inbox.on (n : Node) (s : Inbox) : Node :=
  { n with stream := s.conn.bytes, connected := s.connected, inq := s.inq, outq := s.outq }

/-- **`recv_startup_sync` on a connection**: when a byte of the chunk has come and the
connection does not fail, it is `recv_startup_sync` on the bytes. -/
theorem recvStartupSync_on (e : Endian) (loc : Locals) (node : Node) (s : Inbox) (hs : s.connected = true)
    (hh : s.conn.Holds startupSyncBytes) (hne : s.conn.bytes ≠ []) :
    ∃ s', recvStartupSync e loc s = .ok (some 1, s') ∧
      Sync.recvStartupSync e loc (s.on node) = .ok (1, s'.on node) ∧ s'.conn.ending = s.conn.ending := by
  have hn : startupSyncBytes ≠ 0 := by decide
  have hlen : (s.conn.bytes.take startupSyncBytes).length ≠ 0 := by simp [hne, hn]
  obtain ⟨c, hrecv, hc, hend⟩ := recvBody_of_some (startupUpdate e loc) Inbox.instantMsg hs hn hh hne
  refine ⟨_, hrecv, ?_, hend⟩
  simp only [Sync.recvStartupSync, readn, Inbox.on, if_neg hlen, newMsg, check_pos hn, ok_bind, Inbox.instantMsg, hc]
  rfl

/-- **`recv_oper_sync` on a connection**, likewise. -/
theorem recvOperSync_on (e : Endian) (loc : Locals) (node : Node) (s : Inbox) (hs : s.connected = true)
    (hh : s.conn.Holds digestBytes) (hne : s.conn.bytes ≠ []) :
    ∃ s', recvOperSync e loc s = .ok (some 1, s') ∧
      Sync.recvOperSync e loc (s.on node) = .ok (1, s'.on node) ∧ s'.conn.ending = s.conn.ending := by
  have hn : digestBytes ≠ 0 := by decide
  have hlen : (s.conn.bytes.take digestBytes).length ≠ 0 := by simp [hne, hn]
  obtain ⟨c, hrecv, hc, hend⟩ := recvBody_of_some (operUpdate e loc) Inbox.putMsg hs hn hh hne
  refine ⟨_, hrecv, ?_, hend⟩
  simp only [Sync.recvOperSync, readn, Inbox.on, if_neg hlen, newMsg, check_pos hn, ok_bind, Inbox.putMsg, hc]
  rfl

/-- **`recv_sync_msg` on a connection**: on a complete digest or chunk it is `recv_sync_msg`
on the bytes. -/
theorem recvSyncMsg_on (e e' : Endian) (loc : Locals) (node : Node) (s : Inbox) (hs : s.connected = true)
    (hq : q ≠ .aggregate) {rest : List Byte} (hbytes : s.conn.bytes = q.send e ++ rest) :
    ∃ s', recvSyncMsg e' loc s = .ok (some 1, s') ∧ Sync.recvSyncMsg e' loc (s.on node) = .ok (1, s'.on node) ∧
      s'.conn.ending = s.conn.ending := by
  obtain ⟨length, body, hsend, hbody⟩ := q.send_eq e
  have hparts : s.conn.bytes = prologue e q.type length ++ (body ++ rest) := by
    rw [hbytes, hsend, List.append_assoc]
  have hlen : s.conn.bytes.length = syncMsgBytes + (q.bodyBytes + rest.length) := by
    rw [hparts, List.length_append, List.length_append, length_prologue, hbody]
  have htake : s.conn.bytes.take syncMsgBytes = (prologue e q.type length).take syncMsgBytes := by
    rw [hparts, List.take_append_of_le_length (by simp)]
  obtain ⟨c, hrecv, hc, hend⟩ := recvSyncMsg_of_header e e' loc hs (.inl (by omega)) (by decide) htake
  have hdrop : c.bytes = body ++ rest := by rw [hc, hparts, List.drop_left' (length_prologue e q.type length)]
  have hpos := PeerMsg.bodyBytes_pos hq
  have hholds : c.Holds q.bodyBytes := .inl (by rw [hdrop, List.length_append, hbody]; omega)
  have hne : c.bytes ≠ [] := List.ne_nil_of_length_pos (by rw [hdrop, List.length_append, hbody]; omega)
  have hnode := recvSyncMsg_prologue e e' loc (s.on node) q.type length (body ++ rest) hparts
  have hon : { s.on node with stream := body ++ rest } = Inbox.on node { s with conn := c } := by
    rw [Inbox.on, Inbox.on, hdrop]
  rw [hrecv, hnode, hon]
  cases q with
  | aggregate => exact absurd rfl hq
  | startup ss =>
    obtain ⟨s', hs', hnode', hend'⟩ := recvStartupSync_on e' loc node { s with conn := c } hs hholds hne
    refine ⟨s', (recvTyped_startup e' loc _).trans hs', ?_, hend'.trans hend⟩
    rw [show (PeerMsg.startup ss).type = startupSyncType from rfl, if_pos rfl, hnode']
  | oper d =>
    obtain ⟨s', hs', hnode', hend'⟩ := recvOperSync_on e' loc node { s with conn := c } hs hholds hne
    refine ⟨s', (recvTyped_oper e' loc _).trans hs', ?_, hend'.trans hend⟩
    rw [show (PeerMsg.oper d).type = operSyncType from rfl, if_neg (by decide), if_pos rfl, hnode']

/-- A node with nothing in its ring and its queues. -/
def emptyNode (message : UpdateMessage) : Node := Node.start ⟨0, 0, oneWordRing [] 0 0, 0, 0⟩ message []

/-- A complete digest or chunk is queued. -/
theorem recvSyncMsg_of_send (e e' : Endian) (loc : Locals) (hs : s.connected = true) (hq : q ≠ .aggregate)
    {rest : List Byte} (hbytes : s.conn.bytes = q.send e ++ rest) :
    ∃ s', recvSyncMsg e' loc s = .ok (some 1, s') ∧ s'.conn.bytes = rest ∧ s'.conn.ending = s.conn.ending ∧
      s'.connected = true ∧ s'.inq = s.inq ++ ([q].filter fun q => q.isOper).map (PeerMsg.queued e') ∧
      s'.outq = s.outq ++ ([q].filter fun q => !q.isOper).map (PeerMsg.queued e') := by
  obtain ⟨s', hrecv, hnode, hend⟩ := recvSyncMsg_on e e' loc (emptyNode loc.update) s hs hq hbytes
  cases q with
  | aggregate => exact absurd rfl hq
  | startup ss =>
    rw [recvSyncMsg_startup e e' loc _ ss rest hbytes] at hnode
    have heq := (Prod.mk.inj (Except.ok.inj hnode)).2
    exact ⟨s', hrecv, (congrArg Node.stream heq).symm, hend, (congrArg Node.connected heq).symm.trans hs,
      (congrArg Node.inq heq).symm.trans (List.append_nil _).symm, (congrArg Node.outq heq).symm⟩
  | oper d =>
    rw [recvSyncMsg_oper e e' loc _ d rest hbytes] at hnode
    have heq := (Prod.mk.inj (Except.ok.inj hnode)).2
    exact ⟨s', hrecv, (congrArg Node.stream heq).symm, hend, (congrArg Node.connected heq).symm.trans hs,
      (congrArg Node.inq heq).symm, (congrArg Node.outq heq).symm.trans (List.append_nil _).symm⟩

/-! ### Where a message is cut -/

/-- What has come of a message that is cut: first of its header. -/
theorem take_send (e : Endian) (q : PeerMsg) (k : ℕ) :
    ∃ length, ((q.send e).take k).take syncMsgBytes = (prologue e q.type length).take (min syncMsgBytes k) := by
  obtain ⟨length, body, hsend, -⟩ := q.send_eq e
  refine ⟨length, ?_⟩
  rw [List.take_take, hsend, List.take_append_of_le_length (by rw [length_prologue]; omega)]

/-- An end of the chunks of which four bytes have come stops the daemon. -/
theorem recvSyncMsg_of_aggregate (e e' : Endian) (loc : Locals) (hs : s.connected = true)
    (hh : s.conn.Holds syncMsgBytes) (hk : 4 ≤ k)
    (hbytes : s.conn.bytes.take syncMsgBytes = (PeerMsg.aggregate.send e).take k) :
    recvSyncMsg e' loc s = .error .assertion := by
  obtain ⟨length, body, hsend, hbody⟩ := PeerMsg.aggregate.send_eq e
  rw [hsend, List.eq_nil_of_length_eq_zero hbody, List.append_nil] at hbytes
  obtain ⟨c, hrecv, -⟩ := recvSyncMsg_of_header e e' loc hs hh hk hbytes
  exact hrecv.trans (recvTyped_aggregate e' loc _)

/-- A body of which nothing has come, or that a failure cuts. -/
theorem recvTyped_of_lost (e : Endian) (loc : Locals) (hq : q ≠ .aggregate)
    (h : s.conn.bytes = [] ∨ ¬ s.conn.Holds q.bodyBytes) :
    ∃ c, recvTyped e loc q.type s = .ok (some 0, { s with conn := c, connected := false }) := by
  cases q with
  | startup ss => exact recvTyped_startup e loc s ▸ recvBody_of_lost _ _ h
  | oper d => exact recvTyped_oper e loc s ▸ recvBody_of_lost _ _ h
  | aggregate => exact absurd rfl hq

/-- A body of which something has come, when the connection does not fail. -/
theorem recvTyped_of_some (e : Endian) (loc : Locals) (s : Inbox) (hq : q ≠ .aggregate) (hs : s.connected = true)
    (hh : s.conn.Holds q.bodyBytes) (hne : s.conn.bytes ≠ []) :
    ∃ s', recvTyped e loc q.type s = .ok (some 1, s') ∧ s'.conn.bytes = s.conn.bytes.drop q.bodyBytes ∧
      s'.inq.length + s'.outq.length = s.inq.length + s.outq.length + 1 := by
  have hn := (PeerMsg.bodyBytes_pos hq).ne'
  cases q with
  | aggregate => exact absurd rfl hq
  | startup ss =>
    obtain ⟨c, hbody, hc, -⟩ := recvBody_of_some (startupUpdate e loc) Inbox.instantMsg hs hn hh hne
    refine ⟨_, (recvTyped_startup e loc _).trans hbody, hc, ?_⟩
    simp only [Inbox.instantMsg, List.length_append, List.length_singleton]
    omega
  | oper d =>
    obtain ⟨c, hbody, hc, -⟩ := recvBody_of_some (operUpdate e loc) Inbox.putMsg hs hn hh hne
    refine ⟨_, (recvTyped_oper e loc _).trans hbody, hc, ?_⟩
    simp only [Inbox.putMsg, List.length_append, List.length_singleton]
    omega

/-- A failure in a message: nothing is queued. -/
theorem recvSyncMsg_of_failed (e e' : Endian) (loc : Locals) (hs : s.connected = true) (hfail : s.conn.ending = .failed)
    (hk : k < q.size) (hbytes : s.conn.bytes = (q.send e).take k) :
    ∃ c, recvSyncMsg e' loc s = .ok (some 0, { s with conn := c, connected := false }) := by
  have hlen : s.conn.bytes.length = k := by
    rw [hbytes, List.length_take, PeerMsg.length_send, Nat.min_eq_left hk.le]
  have hholds : ∀ {c : Conn Byte} {n : ℕ}, c.ending = s.conn.ending → c.bytes.length < n → ¬ c.Holds n := by
    rintro c n hend hn (hle | hclosed)
    · omega
    · rw [hend, hfail] at hclosed
      cases hclosed
  by_cases hheader : k < syncMsgBytes
  · exact recvSyncMsg_of_lost e' loc (.inr (.inr (hholds rfl (by omega))))
  · obtain ⟨length, htake⟩ := take_send e q k
    rw [← hbytes, Nat.min_eq_left (by omega)] at htake
    obtain ⟨c, hrecv, hc, hend⟩ := recvSyncMsg_of_header e e' loc hs (.inl (by omega)) (by decide) htake
    have hbody : c.bytes.length < q.bodyBytes := by
      rw [PeerMsg.size] at hk
      rw [hc, List.length_drop]
      omega
    have hq : q ≠ .aggregate := by
      rintro rfl
      exact absurd hbody (Nat.not_lt_zero _)
    rw [hrecv]
    exact recvTyped_of_lost e' loc hq (.inr (hholds hend hbody))

/-- An end that does no harm: nothing is queued. -/
theorem recvSyncMsg_of_harmless (e e' : Endian) (loc : Locals) (hs : s.connected = true)
    (hclosed : s.conn.ending = .closed) (hk : PeerMsg.Harmless q k) (hbytes : s.conn.bytes = (q.send e).take k) :
    ∃ ret c connected, recvSyncMsg e' loc s = .ok (ret, { s with conn := c, connected := connected }) ∧
      (ret = none ∨ ret = some 0 ∧ connected = false) := by
  obtain ⟨length, htake⟩ := take_send e q k
  rw [← hbytes] at htake
  have hk8 : k ≤ syncMsgBytes := by
    cases q with
    | aggregate => exact le_trans (Nat.le_of_lt hk) (by decide)
    | startup ss => exact hk
    | oper d => exact hk
  rw [Nat.min_eq_right hk8] at htake
  obtain rfl | hpos := Nat.eq_zero_or_pos k
  · -- between two messages
    obtain ⟨c, hrecv⟩ := recvSyncMsg_of_lost e' loc (s := s) (.inr (.inl (by rw [hbytes, List.take_zero])))
    exact ⟨_, c, false, hrecv, .inr ⟨rfl, rfl⟩⟩
  · obtain hlt | hge := Nat.lt_or_ge k 4
    · -- an unknown type
      obtain ⟨h1, h2, h3⟩ := typeOf_take_lt e e' q length hpos hlt
      have hne : (prologue e q.type length).take k ≠ [] := by
        apply List.ne_nil_of_length_pos
        rw [List.length_take, length_prologue, syncMsgBytes]
        omega
      obtain ⟨c, hrecv, -⟩ := recvSyncMsg_of_take e' loc hs (.inr hclosed) htake hne
      refine ⟨none, c, s.connected, ?_, .inl rfl⟩
      rw [hrecv, recvTyped, if_neg h1, if_neg h2, if_neg h3]
    · -- a header without a body
      have hq : q ≠ .aggregate := by
        rintro rfl
        exact absurd hk (Nat.not_lt.mpr hge)
      obtain ⟨c, hrecv, hc, -⟩ := recvSyncMsg_of_header e e' loc hs (.inr hclosed) hge htake
      have hnil : c.bytes = [] := by
        rw [hc, hbytes, List.drop_eq_nil_iff, List.length_take]
        omega
      obtain ⟨c', hlost⟩ := recvTyped_of_lost (s := { s with conn := c }) e' loc hq (.inl hnil)
      exact ⟨_, c', false, hrecv.trans hlost, .inr ⟨rfl, rfl⟩⟩

/-- An end in a body: a message is made of what has come. -/
theorem recvSyncMsg_of_harm (e e' : Endian) (loc : Locals) (hs : s.connected = true) (hclosed : s.conn.ending = .closed)
    (hq : q ≠ .aggregate) (hk : syncMsgBytes < k) (hk' : k < q.size) (hbytes : s.conn.bytes = (q.send e).take k) :
    ∃ s', recvSyncMsg e' loc s = .ok (some 1, s') ∧ s'.conn.bytes = [] ∧
      s'.inq.length + s'.outq.length = s.inq.length + s.outq.length + 1 := by
  obtain ⟨length, htake⟩ := take_send e q k
  rw [← hbytes, Nat.min_eq_left hk.le] at htake
  obtain ⟨c, hrecv, hc, hend⟩ := recvSyncMsg_of_header e e' loc hs (.inr hclosed) (by decide) htake
  have hlen : c.bytes.length = k - syncMsgBytes := by
    rw [hc, hbytes, List.length_drop, List.length_take, PeerMsg.length_send, Nat.min_eq_left hk'.le]
  have hne : c.bytes ≠ [] := List.ne_nil_of_length_pos (by omega)
  obtain ⟨s', hbody, hs', hcount⟩ :=
    recvTyped_of_some e' loc { s with conn := c } hq hs (.inr (hend.trans hclosed)) hne
  refine ⟨s', hrecv.trans hbody, ?_, hcount⟩
  rw [PeerMsg.size] at hk'
  rw [hs', List.drop_eq_nil_iff]
  exact hlen.trans_le (by omega)

/-! ### Whole runs -/

/-- Nothing that the receiver can still do touches the queues. -/
def Receiver.Idle (r : Receiver) : Prop :=
  match r.phase with
  | .config => False
  | .syncing => r.inbox.connected = false ∨ r.inbox.conn.bytes = []
  | .guarding | .returned => True
  | .stopped f => f ≠ .assertion

/-- A step of an idle receiver. -/
theorem Receiver.Idle.step (h : r.Idle) (t : Turn) :
    (r.step e conf t).Idle ∧ (r.step e conf t).inbox.inq = r.inbox.inq ∧
      (r.step e conf t).inbox.outq = r.inbox.outq := by
  obtain ⟨phase, s⟩ := r
  cases phase with
  | config => exact absurd h id
  | syncing =>
    have hlost : s.connected = false ∨ s.conn.bytes = [] ∨ ¬ s.conn.Holds syncMsgBytes := h.imp_right .inl
    obtain ⟨c, hrecv⟩ := recvSyncMsg_of_lost e t.loc hlost
    have hstep : Receiver.step e conf ⟨.syncing, s⟩ t = ⟨.returned, { s with conn := c, connected := false }⟩ := by
      simp only [Receiver.step, hrecv, if_true]
    rw [hstep]
    exact ⟨trivial, rfl, rfl⟩
  | guarding =>
    have hstep : Receiver.step e conf ⟨.guarding, s⟩ t =
        if t.free then ⟨.syncing, s.disconnect⟩ else ⟨.guarding, s⟩ := rfl
    rw [hstep]
    split
    · exact ⟨.inl rfl, rfl, rfl⟩
    · exact ⟨trivial, rfl, rfl⟩
  | returned => exact ⟨h, rfl, rfl⟩
  | stopped f => exact ⟨h, rfl, rfl⟩

/-- An idle receiver does not fail. -/
theorem Receiver.Idle.phase_ne (h : r.Idle) : r.phase ≠ .stopped .assertion := by
  intro hphase
  simp only [Idle, hphase] at h
  exact h rfl

/-- A run of an idle receiver. -/
theorem Receiver.Idle.run (h : r.Idle) (e : Endian) (conf : SyncConfig) (turns : List Turn) :
    (r.run e conf turns).Idle ∧ (r.run e conf turns).inbox.inq = r.inbox.inq ∧
      (r.run e conf turns).inbox.outq = r.inbox.outq := by
  refine foldl_inv (fun r' : Receiver => r'.Idle ∧ r'.inbox.inq = r.inbox.inq ∧ r'.inbox.outq = r.inbox.outq) ?_
    ⟨h, rfl, rfl⟩ turns
  rintro r' t ⟨hidle, hin, hout⟩
  obtain ⟨hidle', hin', hout'⟩ := hidle.step t
  exact ⟨hidle', hin'.trans hin, hout'.trans hout⟩

/-- An idle receiver adds nothing. -/
theorem Receiver.Idle.adds (h : r.Idle) (s : Inbox) (hin : r.inbox.inq = s.inq) (hout : r.inbox.outq = s.outq)
    (turns : List Turn) : (r.run e' conf turns).Adds e s [] := by
  obtain ⟨hidle, hin', hout'⟩ := h.run e' conf turns
  exact ⟨hidle.phase_ne, by simp [hin', hin], by simp [hout', hout]⟩

/-- A receiver that has stopped the daemon takes no more steps. -/
theorem Receiver.run_stopped (e : Endian) (conf : SyncConfig) (f : Fault) (s : Inbox) (turns : List Turn) :
    Receiver.run e conf ⟨.stopped f, s⟩ turns = ⟨.stopped f, s⟩ := by
  refine foldl_inv (fun r : Receiver => r = ⟨.stopped f, s⟩) ?_ rfl turns
  rintro r t rfl
  rfl

/-- What holds after a message that was added, for the messages after it. -/
theorem Receiver.Adds.cons {s' : Inbox} (h : r.Adds e s' msgs)
    (hin : s'.inq = s.inq ++ ([q].filter fun q => q.isOper).map (PeerMsg.queued e))
    (hout : s'.outq = s.outq ++ ([q].filter fun q => !q.isOper).map (PeerMsg.queued e)) : r.Adds e s (q :: msgs) := by
  refine ⟨h.phase, ?_, ?_⟩
  · rw [h.inq, hin, List.append_assoc, ← List.map_append, ← List.filter_append]
    rfl
  · rw [h.outq, hout, List.append_assoc, ← List.map_append, ← List.filter_append]
    rfl

/-- Likewise for a message too many. -/
theorem Receiver.Spoilt.cons {s' : Inbox} (h : r.Spoilt s' msgs)
    (hcount : s'.inq.length + s'.outq.length = s.inq.length + s.outq.length + 1) : r.Spoilt s (q :: msgs) := by
  refine h.imp_right fun h => ?_
  rw [List.length_cons]
  omega

theorem harmless_cons_of_le {ending : Ending} (hq : q ≠ .aggregate) (hk : q.size ≤ k) :
    Harmless ending (q :: msgs) k ↔ Harmless ending msgs (k - q.size) := by
  simp only [Harmless, arrived, cutMsg, if_pos hk, List.mem_cons, not_or, eq_comm (a := PeerMsg.aggregate), hq,
    not_false_eq_true, true_and]

theorem harmless_cons_of_lt {ending : Ending} (hk : k < q.size) :
    Harmless ending (q :: msgs) k ↔ ending = .failed ∨ PeerMsg.Harmless q k := by
  simp [Harmless, arrived, cutMsg, if_neg (Nat.not_le.mpr hk)]

theorem Receiver.step_of_zero (conf : SyncConfig) (t : Turn) {s' : Inbox}
    (h : recvSyncMsg e t.loc s = .ok (some 0, s')) : Receiver.step e conf ⟨.syncing, s⟩ t = ⟨.returned, s'⟩ := by
  simp only [Receiver.step, h, if_true]

theorem Receiver.step_of_one (conf : SyncConfig) (t : Turn) {s' : Inbox}
    (h : recvSyncMsg e t.loc s = .ok (some 1, s')) : Receiver.step e conf ⟨.syncing, s⟩ t = ⟨.syncing, s'⟩ := by
  simp only [Receiver.step, h, if_neg one_ne_zero]

theorem Receiver.step_of_guard (conf : SyncConfig) (t : Turn) {s' : Inbox}
    (h : recvSyncMsg e t.loc s = .ok (none, s')) : Receiver.step e conf ⟨.syncing, s⟩ t = ⟨.guarding, s'⟩ := by
  simp only [Receiver.step, h]

theorem Receiver.step_of_error (conf : SyncConfig) (t : Turn) {f : Fault}
    (h : recvSyncMsg e t.loc s = .error f) : Receiver.step e conf ⟨.syncing, s⟩ t = ⟨.stopped f, s⟩ := by
  simp only [Receiver.step, h]

/-- A message that is cut and does no harm. -/
theorem run_of_harmless (conf : SyncConfig) (t : Turn) (turns : List Turn) (hs : s.connected = true) (hk : k < q.size)
    (hbytes : s.conn.bytes = (q.send e).take k) (h : s.conn.ending = .failed ∨ PeerMsg.Harmless q k) :
    (Receiver.run e' conf ⟨.syncing, s⟩ (t :: turns)).Adds e' s [] := by
  rw [Receiver.run_cons]
  cases hend : s.conn.ending with
  | failed =>
    obtain ⟨c, hrecv⟩ := recvSyncMsg_of_failed e e' t.loc hs hend hk hbytes
    have hidle : Receiver.Idle ⟨.returned, { s with conn := c, connected := false }⟩ := trivial
    rw [Receiver.step_of_zero conf t hrecv]
    exact hidle.adds s rfl rfl turns
  | closed =>
    have hharm : PeerMsg.Harmless q k := h.resolve_left (by rw [hend]; simp)
    obtain ⟨ret, c, connected, hrecv, rfl | ⟨rfl, rfl⟩⟩ := recvSyncMsg_of_harmless e e' t.loc hs hend hharm hbytes
    · have hidle : Receiver.Idle ⟨.guarding, { s with conn := c, connected := connected }⟩ := trivial
      rw [Receiver.step_of_guard conf t hrecv]
      exact hidle.adds s rfl rfl turns
    · have hidle : Receiver.Idle ⟨.returned, { s with conn := c, connected := false }⟩ := trivial
      rw [Receiver.step_of_zero conf t hrecv]
      exact hidle.adds s rfl rfl turns

/-- An end of the chunks, or enough of one. -/
theorem run_of_aggregate (conf : SyncConfig) (t : Turn) (turns : List Turn) (hs : s.connected = true)
    (hh : s.conn.Holds syncMsgBytes) (hk : 4 ≤ k)
    (hbytes : s.conn.bytes.take syncMsgBytes = (PeerMsg.aggregate.send e).take k) :
    Receiver.run e' conf ⟨.syncing, s⟩ (t :: turns) = ⟨.stopped .assertion, s⟩ := by
  rw [Receiver.run_cons, Receiver.step_of_error conf t (recvSyncMsg_of_aggregate e e' t.loc hs hh hk hbytes)]
  exact Receiver.run_stopped e' conf .assertion s turns

/-- A message that is cut and does harm. -/
theorem run_of_harm (conf : SyncConfig) (t : Turn) (turns : List Turn) (hs : s.connected = true) (hk : k < q.size)
    (hbytes : s.conn.bytes = (q.send e).take k) (h : ¬ (s.conn.ending = .failed ∨ PeerMsg.Harmless q k)) :
    (Receiver.run e' conf ⟨.syncing, s⟩ (t :: turns)).Spoilt s [] := by
  obtain ⟨hfail, hharm⟩ := not_or.mp h
  have hend : s.conn.ending = .closed := by
    cases hend : s.conn.ending with
    | failed => exact absurd hend hfail
    | closed => rfl
  by_cases hq : q = .aggregate
  · subst hq
    rw [PeerMsg.size_aggregate] at hk
    have htake : s.conn.bytes.take syncMsgBytes = (PeerMsg.aggregate.send e).take k := by
      rw [hbytes, List.take_take, Nat.min_eq_right hk.le]
    rw [run_of_aggregate conf t turns hs (.inr hend) (Nat.not_lt.mp hharm) htake]
    exact .inl rfl
  · have hbody : syncMsgBytes < k := by
      cases q with
      | aggregate => exact absurd rfl hq
      | startup ss => exact Nat.not_le.mp hharm
      | oper d => exact Nat.not_le.mp hharm
    obtain ⟨s', hrecv, hnil, hcount⟩ := recvSyncMsg_of_harm e e' t.loc hs hend hq hbody hk hbytes
    have hidle : Receiver.Idle ⟨.syncing, s'⟩ := .inr hnil
    obtain ⟨-, hin, hout⟩ := hidle.run e' conf turns
    rw [Receiver.run_cons, Receiver.step_of_one conf t hrecv]
    refine .inr ?_
    rw [hin, hout, List.length_nil]
    exact hcount

/-- **The messages**: a receiver that gets as many turns as there are messages adds those
that have arrived completely, when the end does no harm, and when it does, an assertion
fails or there is a message too many. -/
theorem run_syncing (e e' : Endian) (conf : SyncConfig) (msgs : List PeerMsg) (k : ℕ) (s : Inbox) (turns : List Turn)
    (hs : s.connected = true) (hbytes : s.conn.bytes = (msgs.flatMap (PeerMsg.send e)).take k)
    (hturns : msgs.length ≤ turns.length) :
    (Harmless s.conn.ending msgs k → (Receiver.run e' conf ⟨.syncing, s⟩ turns).Adds e' s (arrived msgs k)) ∧
      (¬ Harmless s.conn.ending msgs k → (Receiver.run e' conf ⟨.syncing, s⟩ turns).Spoilt s (arrived msgs k)) := by
  induction msgs generalizing k s turns with
  | nil =>
    have hidle : Receiver.Idle ⟨.syncing, s⟩ := .inr (by simpa using hbytes)
    refine ⟨fun _ => hidle.adds s rfl rfl turns, fun h => absurd ?_ h⟩
    simp [Harmless, arrived, cutMsg]
  | cons q msgs ih =>
    obtain ⟨t, turns, rfl⟩ := List.exists_cons_of_length_pos (Nat.lt_of_lt_of_le (Nat.succ_pos _) hturns)
    rw [List.flatMap_cons] at hbytes
    by_cases hk : q.size ≤ k
    · have harrived : arrived (q :: msgs) k = q :: arrived msgs (k - q.size) := if_pos hk
      have hparts : s.conn.bytes = q.send e ++ (msgs.flatMap (PeerMsg.send e)).take (k - q.size) := by
        rw [hbytes, List.take_append, PeerMsg.length_send, List.take_of_length_le (by rwa [PeerMsg.length_send])]
      rw [harrived]
      by_cases hq : q = .aggregate
      · subst hq
        have hlen : syncMsgBytes ≤ (PeerMsg.aggregate.send e).length := by
          rw [PeerMsg.length_send, PeerMsg.size_aggregate]
        have htake : s.conn.bytes.take syncMsgBytes = (PeerMsg.aggregate.send e).take syncMsgBytes := by
          rw [hparts, List.take_append_of_le_length hlen]
        have hholds : s.conn.Holds syncMsgBytes := .inl (by rw [hparts, List.length_append]; omega)
        rw [run_of_aggregate conf t turns hs hholds (by decide) htake]
        refine ⟨fun h => absurd ?_ h.1, fun _ => .inl rfl⟩
        rw [harrived]
        exact List.mem_cons_self
      · obtain ⟨s', hrecv, hrest, hend, hs', hin, hout⟩ := recvSyncMsg_of_send e e' t.loc hs hq hparts
        have hcount : s'.inq.length + s'.outq.length = s.inq.length + s.outq.length + 1 := by
          rw [hin, hout]
          cases q <;> simp [PeerMsg.isOper] <;> omega
        obtain ⟨hgood, hbad⟩ := ih (k - q.size) s' turns hs' hrest (Nat.le_of_succ_le_succ hturns)
        rw [Receiver.run_cons, Receiver.step_of_one conf t hrecv, harmless_cons_of_le hq hk, ← hend]
        exact ⟨fun h => (hgood h).cons hin hout, fun h => (hbad h).cons hcount⟩
    · have harrived : arrived (q :: msgs) k = [] := if_neg hk
      have hlt : k < q.size := Nat.not_le.mp hk
      rw [List.take_append_of_le_length (by rw [PeerMsg.length_send]; omega)] at hbytes
      rw [harrived, harmless_cons_of_lt hlt]
      exact ⟨run_of_harmless conf t turns hs hlt hbytes, run_of_harm conf t turns hs hlt hbytes⟩

/-! ### The configuration -/

/-- A complete configuration. -/
theorem step_config (e e' : Endian) (conf : SyncConfig) (t : Turn) (s : Inbox) (hs : s.connected = true)
    {rest : List Byte} (hbytes : s.conn.bytes = sendSyncConfig e conf ++ rest) :
    ∃ c, Receiver.step e' conf ⟨.config, s⟩ t = ⟨.syncing, { s with conn := c }⟩ ∧ c.bytes = rest ∧
      c.ending = s.conn.ending := by
  have hlen : (sendSyncConfig e conf).length = syncConfigBytes := by simp [sendSyncConfig, syncConfigBytes]
  obtain ⟨c, hread, hc, hend⟩ := Inbox.read_of_holds (n := syncConfigBytes) hs
    (.inl (by rw [hbytes, List.length_append]; omega))
  rw [hbytes, List.take_left' hlen] at hread
  rw [hbytes, List.drop_left' hlen] at hc
  refine ⟨c, ?_, hc, hend⟩
  have hbuf : overwrite (bytesOf e' t.config.filterSize ++ bytesOf e' t.config.numBufs) 0 (sendSyncConfig e conf) =
      sendSyncConfig e conf := by
    rw [overwrite, List.take_zero, List.nil_append, List.drop_eq_nil_of_le (by simp [hlen, syncConfigBytes]),
      List.append_nil]
  have hconf := ntohl_wordAt_sendSyncConfig e e' conf
  cases hsend : sendSyncConfig e conf with
  | nil =>
    rw [hsend] at hlen
    exact absurd hlen (by decide)
  | cons b bs =>
    rw [hsend] at hread hbuf hconf
    have hrecv : recvConfigSync e' conf t.config s = .ok { s with conn := c } := by
      simp only [recvConfigSync, hread, hbuf]
      exact if_pos hconf
    simp only [Receiver.step, hrecv]

/-- A configuration that is cut: the daemon is shut down, or what the variable held before
makes up for what is missing. -/
theorem step_config_of_lt (e' : Endian) (conf : SyncConfig) (t : Turn) (s : Inbox) (hs : s.connected = true)
    (hlen : s.conn.bytes.length < syncConfigBytes) :
    (Receiver.step e' conf ⟨.config, s⟩ t).Idle ∧ (Receiver.step e' conf ⟨.config, s⟩ t).inbox.inq = s.inq ∧
      (Receiver.step e' conf ⟨.config, s⟩ t).inbox.outq = s.outq := by
  have hrecv : recvConfigSync e' conf t.config s = .error .exit ∨
      ∃ c : Conn Byte, recvConfigSync e' conf t.config s = .ok { s with conn := c } ∧ c.bytes = [] := by
    by_cases hh : s.conn.Holds syncConfigBytes
    · obtain ⟨c, hread, hc, -⟩ := Inbox.read_of_holds hs hh
      rw [List.drop_eq_nil_of_le hlen.le] at hc
      cases hbs : s.conn.bytes.take syncConfigBytes with
      | nil =>
        rw [hbs] at hread
        exact .inl (by simp only [recvConfigSync, hread])
      | cons b bs =>
        rw [hbs] at hread
        simp only [recvConfigSync, hread]
        split
        · exact .inr ⟨c, rfl, hc⟩
        · exact .inl rfl
    · obtain ⟨c, hread⟩ := Inbox.read_of_not_holds hs hh
      exact .inl (by simp only [recvConfigSync, hread])
  rcases hrecv with hrecv | ⟨c, hrecv, hc⟩
  · have hstep : Receiver.step e' conf ⟨.config, s⟩ t = ⟨.stopped .exit, s⟩ := by simp only [Receiver.step, hrecv]
    rw [hstep]
    exact ⟨by simp [Receiver.Idle], rfl, rfl⟩
  · have hstep : Receiver.step e' conf ⟨.config, s⟩ t = ⟨.syncing, { s with conn := c }⟩ := by
      simp only [Receiver.step, hrecv]
    rw [hstep]
    exact ⟨.inr hc, rfl, rfl⟩

/-! ### The connection -/

/-- A prefix that ends in the greeting has no messages. -/
theorem arrived_zero (msgs : List PeerMsg) : arrived msgs 0 = [] := by
  cases msgs with
  | nil => rfl
  | cons q msgs => exact if_neg (by simp [PeerMsg.size, syncMsgBytes])

theorem harmless_zero (ending : Ending) (msgs : List PeerMsg) : Harmless ending msgs 0 := by
  refine ⟨by simp [arrived_zero], .inr ?_⟩
  cases msgs with
  | nil => simp [cutMsg]
  | cons q msgs =>
    rw [cutMsg, if_neg (by simp [PeerMsg.size, syncMsgBytes])]
    rintro p ⟨⟩
    cases q <;> simp [PeerMsg.Harmless]

/-- The receiver on a connection of either kind. -/
theorem run_receiver (side : Side) (e e' : Endian) (conf : SyncConfig) (msgs : List PeerMsg) (k : ℕ) (c : Conn Byte)
    (turns : List Turn) (hc : c.bytes = (side.greeting e conf ++ msgs.flatMap (PeerMsg.send e)).take k)
    (hturns : msgs.length < turns.length) :
    (Harmless c.ending msgs (k - side.greetingBytes) →
        ((side.receiver c).run e' conf turns).Adds e' ⟨c, true, [], []⟩ (arrived msgs (k - side.greetingBytes))) ∧
      (¬ Harmless c.ending msgs (k - side.greetingBytes) →
        ((side.receiver c).run e' conf turns).Spoilt ⟨c, true, [], []⟩ (arrived msgs (k - side.greetingBytes))) := by
  cases side with
  | incoming => exact run_syncing e e' conf msgs k ⟨c, true, [], []⟩ turns rfl hc hturns.le
  | outgoing =>
    have hlen : (sendSyncConfig e conf).length = syncConfigBytes := by simp [sendSyncConfig, syncConfigBytes]
    obtain ⟨t, turns, rfl⟩ := List.exists_cons_of_length_pos (Nat.zero_lt_of_lt hturns)
    simp only [Side.greeting, Side.greetingBytes] at hc ⊢
    rw [Receiver.run_cons]
    by_cases hk : syncConfigBytes ≤ k
    · have hparts : c.bytes = sendSyncConfig e conf ++ (msgs.flatMap (PeerMsg.send e)).take (k - syncConfigBytes) := by
        rw [hc, List.take_append, hlen, List.take_of_length_le (by omega)]
      obtain ⟨c', hstep, hc', hend⟩ := step_config e e' conf t ⟨c, true, [], []⟩ rfl hparts
      obtain ⟨hgood, hbad⟩ := run_syncing e e' conf msgs (k - syncConfigBytes) ⟨c', true, [], []⟩ turns rfl hc'
        (Nat.le_of_lt_succ hturns)
      rw [Side.receiver, Side.phase, hstep, ← show c'.ending = c.ending from hend]
      exact ⟨fun h => ⟨(hgood h).phase, (hgood h).inq, (hgood h).outq⟩, hbad⟩
    · have hshort : c.bytes.length < syncConfigBytes := by
        rw [hc, List.length_take]
        omega
      obtain ⟨hidle, hin, hout⟩ := step_config_of_lt e' conf t ⟨c, true, [], []⟩ rfl hshort
      rw [show k - syncConfigBytes = 0 by omega, arrived_zero]
      exact ⟨fun _ => hidle.adds _ hin hout turns, fun h => absurd (harmless_zero _ _) h⟩

/-- **A stream that is cut**: the connection ends after any `k` bytes of what a peer sends,
closed or failed, and until then `read` gives any pieces of them. When the receiver has
had its turns, the queues hold the messages of what arrived completely and no others,
and no assertion has failed, just when

* no `AGGREGATE_SYNC` has arrived completely, and
* the connection failed, or else was closed between two messages, in the first three
  bytes of the header of an `AGGREGATE_SYNC`, or in or right after the header of
  another message. -/
theorem exact_iff (side : Side) (e e' : Endian) (conf : SyncConfig) (msgs : List PeerMsg) (k : ℕ) (c : Conn Byte)
    (turns : List Turn) (hc : c.bytes = (side.greeting e conf ++ msgs.flatMap (PeerMsg.send e)).take k)
    (hturns : msgs.length < turns.length) :
    (((side.receiver c).run e' conf turns).phase ≠ .stopped .assertion ∧
      ((side.receiver c).run e' conf turns).inbox.inq =
        ((arrived msgs (k - side.greetingBytes)).filter fun q => q.isOper).map (PeerMsg.queued e') ∧
      ((side.receiver c).run e' conf turns).inbox.outq =
        ((arrived msgs (k - side.greetingBytes)).filter fun q => !q.isOper).map (PeerMsg.queued e')) ↔
    .aggregate ∉ arrived msgs (k - side.greetingBytes) ∧
      (c.ending = .failed ∨ ∀ p ∈ cutMsg msgs (k - side.greetingBytes), PeerMsg.Harmless p.1 p.2) := by
  obtain ⟨hgood, hbad⟩ := run_receiver side e e' conf msgs k c turns hc hturns
  constructor
  · rintro ⟨hphase, hin, hout⟩
    by_contra hharm
    have hadds : ((side.receiver c).run e' conf turns).Adds e' ⟨c, true, [], []⟩
        (arrived msgs (k - side.greetingBytes)) := ⟨hphase, hin, hout⟩
    exact hadds.not_spoilt (hbad hharm)
  · intro hharm
    have hadds := hgood hharm
    exact ⟨hadds.phase, hadds.inq, hadds.outq⟩

/-- A turn with zeros in all variables. -/
def zeroTurn : Turn := ⟨⟨⟨0, 0, 0, 0, 0, 0, 0, 0⟩, UpdateMessage.zero⟩, ⟨0, 0⟩, true⟩

/-- The connection that gives these bytes one at a time, a signal before each. -/
def slowly (bs : List Byte) (ending : Ending) : Conn Byte := ⟨bs.flatMap fun b => [.eintr, .data b []], ending⟩

/-- Receiving the first `k` bytes of `bs` so. -/
def slowRun (bs : List Byte) (k : ℕ) (ending : Ending) : Receiver :=
  (Side.incoming.receiver (slowly (bs.take k) ending)).run .little ⟨24, 8⟩ [zeroTurn, zeroTurn, zeroTurn]

/-- Two digests. -/
def twoDigests : List PeerMsg := [.oper ⟨1, 2, 3, 4, 5, 6, 7, 8⟩, .oper ⟨9, 0, 0, 0, 0, 0, 0, 0⟩]

/-- The connection fails in the second of two digests: the first is queued. -/
theorem exact_iff_failed :
    let r := slowRun (twoDigests.flatMap (PeerMsg.send .big)) 50 .failed
    r.phase ≠ .stopped .assertion ∧ r.inbox.inq = [queuedOper .little ⟨1, 2, 3, 4, 5, 6, 7, 8⟩] ∧ r.inbox.outq = [] :=
  (exact_iff .incoming .big .little ⟨24, 8⟩ twoDigests 50 (slowly ((twoDigests.flatMap (PeerMsg.send .big)).take 50) .failed)
    [zeroTurn, zeroTurn, zeroTurn] (by decide) (by decide)).mpr ⟨by decide, .inl rfl⟩

/-- The connection is closed after nine bytes of a digest: nothing has arrived completely,
and a digest that nobody sent is queued. -/
theorem partial_digest_queued :
    arrived [.oper ⟨0x01020304, 5, 6, 7, 8, 9, 10, 11⟩] 9 = [] ∧
      (slowRun (sendOperSync .big ⟨0x01020304, 5, 6, 7, 8, 9, 10, 11⟩) 9 .closed).inbox.inq =
        [queuedOper .little ⟨0x01000000, 0, 0, 0, 0, 0, 0, 0⟩] := by
  decide

end Cut

end Gross.Sync
