import Gross.Sync.Wire

/-!
# Receiving synchronisation messages

On the receiving node a message passes through several hands. `recv_sync_msg`
reads it from the stream, puts it in an `update_message_t` and copies that to
the update queue: chunks with `instant_msg`, to the outer queue at once, and
digests with `put_msg`, to the inner queue, from which the delay thread passes
them on. `bloommgr` copies a message of the outer queue over its one message
buffer, and does what the buffer then says.

## The model

`Node` is the state these share. The copies are modelled as copies of bytes: a
message of the queue is the bytes that were copied to it, as many as the caller
of `put_msg` asked for, and the copy to the buffer of `bloommgr` leaves the
bytes beyond them as they were. The automatic variables of the receivers start
with any content (`Locals`).

## What is proved

The sizes that `recv_oper_sync` and `recv_startup_sync` give count the payload
only, and not the message type in front of it. So the last word of the payload
stays behind, and `bloommgr` takes for it what its buffer held in that place:

* `recvSyncMsg_oper_iff` — the digest inserted is the one sent just when the
  buffer held its last word there before;
* `recvSyncMsg_startup_iff` — likewise for a chunk.

## Honest scope

The stream delivers what was sent, and ends where the peer closes it. Reading
does not fail.
-/

namespace Gross.Sync

open Foundation Bloom

/-! ### Update messages -/

/-- `MSGSZ` -/
def msgsz : ℕ := 1024

/-- `sizeof(update_message_t)` -/
def updateMessageBytes : ℕ := 1028

/-- `update_message_t`, as it lies in memory: `mtype`, then `mtext`. -/
structure UpdateMessage where
  /-- The bytes. -/
  bytes : List Byte
  /-- There are `updateMessageBytes` of them. -/
  length_bytes : bytes.length = updateMessageBytes

/-- Assigning `mtype`, and copying `text` to `mtext`. -/
def UpdateMessage.write (e : Endian) (u : UpdateMessage) (mtype : Word) (text : List Byte)
    (h : text.length ≤ msgsz) : UpdateMessage where
  bytes := overwrite (overwrite u.bytes 0 (bytesOf e mtype)) 4 text
  length_bytes := by
    have hu := u.length_bytes
    simp only [msgsz, updateMessageBytes] at h hu ⊢
    have h₁ : (overwrite u.bytes 0 (bytesOf e mtype)).length = u.bytes.length :=
      length_overwrite (by simp; omega)
    rw [length_overwrite (by omega), h₁, hu]

/-- What `get_msg` leaves in the buffer when the message `m` is taken. -/
def UpdateMessage.getMsg (u : UpdateMessage) (m : List Byte) : UpdateMessage where
  bytes := overwrite u.bytes 0 (m.take msgsz)
  length_bytes := by
    have hu := u.length_bytes
    simp only [msgsz, updateMessageBytes] at hu ⊢
    rw [length_overwrite (by simp; omega), hu]

/-- The copy that `put_msg` and `instant_msg` make for the queue. `Malloc` asserts
that it is asked for something. -/
def newMsg (u : UpdateMessage) (msgsz : ℕ) : Except Fault (List Byte) := do
  check (msgsz ≠ 0)
  return u.bytes.take msgsz

/-- `UPDATE` -/
def updateMtype : Word := 1

/-- `ROTATE` -/
def rotateMtype : Word := 2

/-- `ABSOLUTE_UPDATE` -/
def absoluteUpdateMtype : Word := 3

/-- `SYNC_AGGREGATE` -/
def syncAggregateMtype : Word := 4

/-- `UPDATE_OPER` -/
def updateOperMtype : Word := 5

/-- What `bloommgr` makes of its buffer. The clock values are those `rotate()` will
read, if it comes to that. -/
def UpdateMessage.command (e : Endian) (clock : Clock) (u : UpdateMessage) : Command :=
  let mtype := wordAt e u.bytes 0
  let mtext := u.bytes.drop 4
  if mtype = updateMtype then .update (Digest.ofBytes e mtext)
  else if mtype = updateOperMtype then .updateOper (Digest.ofBytes e mtext)
  else if mtype = absoluteUpdateMtype then .absoluteUpdate (StartupSync.ofBytes e mtext)
  else if mtype = rotateMtype then .rotate clock
  else if mtype = syncAggregateMtype then .syncAggregate
  else .unknown

/-! ### The receiving node -/

/-- What the threads of a node share, as far as they receive updates. -/
structure Node where
  /-- What has arrived from the peer and has not been read. -/
  stream : List Byte
  /-- `peer->connected` is not zero. -/
  connected : Bool
  /-- The inner queue, of `put_msg`. -/
  inq : List (List Byte)
  /-- The message the delay thread has taken and not yet passed on. -/
  hand : Option (List Byte)
  /-- The outer queue, of `get_msg` and `instant_msg`. -/
  outq : List (List Byte)
  /-- The message buffer of `bloommgr`. -/
  message : UpdateMessage
  /-- The state of `bloommgr`. -/
  ctx : Ctx
  /-- The commands that `bloommgr` has carried out. -/
  log : List Command

/-- A connected node, with nothing in its queues. -/
def Node.start (ctx : Ctx) (message : UpdateMessage) (stream : List Byte) : Node :=
  ⟨stream, true, [], none, [], message, ctx, []⟩

/-- What the automatic variables of the receivers hold at first. -/
structure Locals where
  /-- `oper_sync_t msg` -/
  digest : Digest
  /-- `update_message_t update` -/
  update : UpdateMessage

/-- `readn(fd, &buf, n)`, where `buf` has `n` bytes: the buffer, the number of bytes
read, and what is left of the stream. -/
def readn (stream buf : List Byte) (n : ℕ) : List Byte × ℕ × List Byte :=
  (overwrite buf 0 (stream.take n), (stream.take n).length, stream.drop n)

/-- `recv_startup_sync`. -/
def recvStartupSync (e : Endian) (loc : Locals) (n : Node) : Except Fault (ℤ × Node) :=
  let (buf, ret, stream) :=
    readn n.stream (StartupSync.toBytes e ⟨-1, 0, Vector.replicate 32 0⟩) startupSyncBytes
  if ret = 0 then .ok (0, { n with stream := stream, connected := false })
  else do
    let msg := sstoh e (StartupSync.ofBytes e buf)
    let update := loc.update.write e absoluteUpdateMtype (StartupSync.toBytes e msg)
      (by simp [startupSyncBytes, msgsz])
    let m ← newMsg update startupSyncBytes
    return (1, { n with stream := stream, outq := n.outq ++ [m] })

/-- `recv_oper_sync`. -/
def recvOperSync (e : Endian) (loc : Locals) (n : Node) : Except Fault (ℤ × Node) :=
  let (buf, ret, stream) := readn n.stream (Digest.toBytes e loc.digest) digestBytes
  if ret = 0 then .ok (0, { n with stream := stream, connected := false })
  else do
    let msg := dtoh e (Digest.ofBytes e buf)
    let update := loc.update.write e updateOperMtype (Digest.toBytes e msg) (by simp [digestBytes, msgsz])
    let m ← newMsg update digestBytes
    return (1, { n with stream := stream, inq := n.inq ++ [m] })

/-- `recv_sync_msg`, with what it returns. -/
def recvSyncMsg (e : Endian) (loc : Locals) (n : Node) : Except Fault (ℤ × Node) :=
  let (buf, ret, stream) := readn n.stream (bytesOf e (-1) ++ bytesOf e 0) syncMsgBytes
  let n := { n with stream := stream }
  if ret = 0 then .ok (0, { n with connected := false })
  else
    let type := ntohl e (wordAt e buf 0)
    if type = startupSyncType then recvStartupSync e loc n
    else if type = operSyncType then recvOperSync e loc n
    else if type = aggregateSyncType then do
      let update := loc.update.write e syncAggregateMtype [] (Nat.zero_le _)
      let m ← newMsg update 0
      return (1, { n with outq := n.outq ++ [m] })
    else .ok (-1, { n with connected := false })

/-- A turn of `bloommgr`, if there is a message for it. -/
def bloommgr (e : Endian) (clock : Clock) (n : Node) : Except Fault Node :=
  match n.outq with
  | [] => .ok n
  | m :: outq => do
    let message := n.message.getMsg m
    let cmd := message.command e clock
    let ctx ← n.ctx.execute cmd
    return { n with outq := outq, message := message, ctx := ctx, log := n.log ++ [cmd] }

/-! ### What comes through the queue -/

theorem UpdateMessage.bytes_write (e : Endian) (u : UpdateMessage) (mtype : Word) (text : List Byte)
    (h : text.length ≤ msgsz) :
    (u.write e mtype text h).bytes = bytesOf e mtype ++ text ++ u.bytes.drop (4 + text.length) := by
  have h₁ : overwrite u.bytes 0 (bytesOf e mtype) = bytesOf e mtype ++ u.bytes.drop 4 := by
    simp [overwrite]
  simp only [write, h₁]
  rw [overwrite, List.take_left' (length_bytesOf _ _), List.drop_append, length_bytesOf,
    List.drop_eq_nil_of_le (by rw [length_bytesOf]; omega), List.nil_append, List.drop_drop]
  congr 2
  omega

/-- A message begins with its type. -/
theorem UpdateMessage.take_bytes_write (e : Endian) (u : UpdateMessage) (mtype : Word) (text : List Byte) (h : text.length ≤ msgsz)
    {n : ℕ} (hn : 4 ≤ n) : ∃ rest, (u.write e mtype text h).bytes.take n = bytesOf e mtype ++ rest := by
  refine ⟨(text ++ u.bytes.drop (4 + text.length)).take (n - 4), ?_⟩
  rw [u.bytes_write, List.append_assoc, List.take_append, length_bytesOf,
    List.take_of_length_le (by rwa [length_bytesOf])]

/-- A copy of no bytes is refused. -/
theorem newMsg_zero (u : UpdateMessage) : newMsg u 0 = .error .assertion := by
  rw [newMsg, check_neg fun h => h rfl, error_bind]

/-- The copy of `n` words of a message: its type, and one word less of its text. -/
theorem newMsg_write (e : Endian) (u : UpdateMessage) (mtype : Word) (ws : List Word) (n : ℕ) (hn : n ≤ ws.length)
    (h : (bytesOfWords e ws).length ≤ msgsz) :
    newMsg (u.write e mtype (bytesOfWords e ws) h) (4 * (n + 1)) = .ok (bytesOfWords e (mtype :: ws.take n)) := by
  rw [newMsg, check_pos (by omega), ok_bind, u.bytes_write, ← bytesOfWords_cons,
    List.take_append_of_le_length (by simp; omega), take_bytesOfWords, List.take_succ_cons]
  rfl

/-- What the buffer of `bloommgr` holds after a message. -/
theorem UpdateMessage.wordAt_getMsg (e : Endian) (u : UpdateMessage) (ws : List Word) (i : ℕ)
    (h : 4 * ws.length ≤ msgsz) :
    wordAt e (u.getMsg (bytesOfWords e ws)).bytes (4 * i) = ws[i]?.getD (wordAt e u.bytes (4 * i)) := by
  have htake : (bytesOfWords e ws).take msgsz = bytesOfWords e ws :=
    List.take_of_length_le (by rwa [length_bytesOfWords])
  simp only [getMsg, htake]
  exact wordAt_overwrite e u.bytes ws i

/-- The message that `recv_oper_sync` queues. -/
def queuedOper (e : Endian) (d : Digest) : List Byte := bytesOfWords e (updateOperMtype :: d.words.take 7)

/-- The message that `recv_startup_sync` queues. -/
def queuedStartup (e : Endian) (ss : StartupSync) : List Byte :=
  bytesOfWords e (absoluteUpdateMtype :: (StartupSync.words ss).take 33)

/-- The digest that `bloommgr` finds in its buffer: the last word is the buffer's. -/
theorem command_queuedOper (e : Endian) (clock : Clock) (u : UpdateMessage) (d : Digest) :
    (u.getMsg (queuedOper e d)).command e clock = .updateOper { d with h7 := wordAt e u.bytes 32 } := by
  have key := fun i => u.wordAt_getMsg e (updateOperMtype :: d.words.take 7) i (by simp [msgsz, Digest.words])
  have htype : wordAt e (u.getMsg (queuedOper e d)).bytes 0 = updateOperMtype := key 0
  rw [UpdateMessage.command, htype]
  rw [if_neg (by decide), if_pos rfl]
  simp only [Digest.ofBytes, wordAt_drop]
  refine congrArg Command.updateOper ?_
  rw [Digest.mk.injEq]
  exact ⟨key 1, key 2, key 3, key 4, key 5, key 6, key 7, key 8⟩

/-- The chunk that `bloommgr` finds in its buffer: the last word is the buffer's. -/
theorem command_queuedStartup (e : Endian) (clock : Clock) (u : UpdateMessage) (ss : StartupSync) :
    (u.getMsg (queuedStartup e ss)).command e clock =
      .absoluteUpdate { ss with filter := ss.filter.set 31 (wordAt e u.bytes 136) } := by
  have key := fun i => u.wordAt_getMsg e (absoluteUpdateMtype :: (StartupSync.words ss).take 33) i
    (by simp [msgsz])
  have htype : wordAt e (u.getMsg (queuedStartup e ss)).bytes 0 = absoluteUpdateMtype := key 0
  rw [UpdateMessage.command, htype]
  rw [if_neg (by decide), if_neg (by decide), if_pos rfl]
  simp only [StartupSync.ofBytes, wordAt_drop]
  refine congrArg Command.absoluteUpdate ?_
  rw [StartupSync.mk.injEq]
  refine ⟨key 1, key 2, ?_⟩
  ext i hi
  rw [Vector.getElem_ofFn, Vector.getElem_set, show 4 + (8 + 4 * i) = 4 * (i + 3) by ring]
  rw [show wordAt e (u.getMsg (queuedStartup e ss)).bytes (4 * (i + 3)) = _ from key (i + 3)]
  split_ifs with h31
  · subst h31
    rw [List.getElem?_eq_none (by simp)]
    rfl
  · rw [List.getElem?_cons_succ, List.getElem?_take_of_lt (by omega)]
    simp [StartupSync.words, hi]

/-! ### Receiving a message -/

/-- Reading what is there. -/
theorem readn_append {buf bs rest : List Byte} {n : ℕ} (hbs : bs.length = n) (hbuf : buf.length = n) :
    readn (bs ++ rest) buf n = (bs, n, rest) := by
  subst hbs
  rw [readn, List.take_left, List.drop_left, overwrite, List.take_zero, List.nil_append,
    List.drop_eq_nil_of_le (by omega), List.append_nil]

/-- The type that `recv_sync_msg` finds in a prologue. -/
theorem ntohl_wordAt_prologue (e e' : Endian) (type length : Word) :
    ntohl e' (wordAt e' (prologue e type length) 0) = type := by
  rw [prologue, wordAt, slice_append_left (by simp)]
  have : slice (bytesOf e (htonl e type)) 0 4 = bytesOf e (htonl e type) :=
    List.take_of_length_le (by simp)
  rw [this, ntohl_wordOf_bytesOf_htonl]

/-- `recv_sync_msg` up to its `switch`. -/
theorem recvSyncMsg_prologue (e e' : Endian) (loc : Locals) (n : Node) (type length : Word) (bs : List Byte)
    (hs : n.stream = prologue e type length ++ bs) :
    recvSyncMsg e' loc n =
      if type = startupSyncType then recvStartupSync e' loc { n with stream := bs }
      else if type = operSyncType then recvOperSync e' loc { n with stream := bs }
      else if type = aggregateSyncType then do
        let update := loc.update.write e' syncAggregateMtype [] (Nat.zero_le _)
        let m ← newMsg update 0
        return (1, { n with stream := bs, outq := n.outq ++ [m] })
      else .ok (-1, { n with stream := bs, connected := false }) := by
  have hread : readn n.stream (bytesOf e' (-1) ++ bytesOf e' 0) syncMsgBytes =
      (prologue e type length, syncMsgBytes, bs) := by
    rw [hs]
    exact readn_append (length_prologue e type length) (by simp [syncMsgBytes])
  simp only [recvSyncMsg, hread, ntohl_wordAt_prologue]
  rfl

/-- A digest that arrives is queued, but for its last word. -/
theorem recvSyncMsg_oper (e e' : Endian) (loc : Locals) (n : Node) (d : Digest) (rest : List Byte)
    (hs : n.stream = sendOperSync e d ++ rest) :
    recvSyncMsg e' loc n = .ok (1, { n with stream := rest, inq := n.inq ++ [queuedOper e' d] }) := by
  rw [sendOperSync, List.append_assoc] at hs
  rw [recvSyncMsg_prologue e e' loc n _ _ _ hs]
  rw [if_neg (by decide), if_pos rfl]
  have hread : readn (Digest.toBytes e (dton e d) ++ rest) (Digest.toBytes e' loc.digest) digestBytes =
      (Digest.toBytes e (dton e d), digestBytes, rest) :=
    readn_append (length_toBytes_digest _ _) (length_toBytes_digest _ _)
  simp only [recvOperSync, hread, dtoh_ofBytes_toBytes_dton]
  rw [if_neg (by decide)]
  have hmsg := newMsg_write e' loc.update updateOperMtype d.words 7 (by simp [Digest.words])
    (by simp [Digest.words, msgsz])
  rw [show newMsg (loc.update.write e' updateOperMtype (Digest.toBytes e' d) _) digestBytes = _ from hmsg]
  rfl

/-- A chunk that arrives is queued, but for its last word. -/
theorem recvSyncMsg_startup (e e' : Endian) (loc : Locals) (n : Node) (ss : StartupSync) (rest : List Byte)
    (hs : n.stream = sendStartupSync e ss ++ rest) :
    recvSyncMsg e' loc n = .ok (1, { n with stream := rest, outq := n.outq ++ [queuedStartup e' ss] }) := by
  rw [sendStartupSync, List.append_assoc] at hs
  rw [recvSyncMsg_prologue e e' loc n _ _ _ hs]
  rw [if_pos rfl]
  have hread : readn (StartupSync.toBytes e (sston e ss) ++ rest)
      (StartupSync.toBytes e' ⟨-1, 0, Vector.replicate 32 0⟩) startupSyncBytes =
      (StartupSync.toBytes e (sston e ss), startupSyncBytes, rest) :=
    readn_append (length_toBytes_startupSync _ _) (length_toBytes_startupSync _ _)
  simp only [recvStartupSync, hread, sstoh_ofBytes_toBytes_sston]
  rw [if_neg (by decide)]
  have hmsg := newMsg_write e' loc.update absoluteUpdateMtype (StartupSync.words ss) 33 (by simp)
    (by simp [msgsz])
  rw [show newMsg (loc.update.write e' absoluteUpdateMtype (StartupSync.toBytes e' ss) _) startupSyncBytes = _
    from hmsg]
  rfl

/-- The end of the chunks stops the receiver: `instant_msg` asks for a copy of no
bytes. -/
theorem recvSyncMsg_aggregate (e e' : Endian) (loc : Locals) (n : Node) (rest : List Byte)
    (hs : n.stream = forcePeerAggregate e ++ rest) : recvSyncMsg e' loc n = .error .assertion := by
  rw [forcePeerAggregate_eq] at hs
  rw [recvSyncMsg_prologue e e' loc n _ _ _ hs]
  rw [if_neg (by decide), if_neg (by decide), if_pos rfl]
  simp only [newMsg_zero, error_bind]

/-! ### What is inserted -/

/-- A turn of `bloommgr` that does not fail. -/
theorem bloommgr_cons {e : Endian} {clock : Clock} {n : Node} {m : List Byte} {outq : List (List Byte)} {cmd : Command}
    {ctx : Ctx} (hq : n.outq = m :: outq) (hcmd : (n.message.getMsg m).command e clock = cmd)
    (hexec : n.ctx.execute cmd = .ok ctx) :
    bloommgr e clock n =
      .ok { n with outq := outq, message := n.message.getMsg m, ctx := ctx, log := n.log ++ [cmd] } := by
  simp only [bloommgr, hq, hcmd, hexec, ok_bind]
  rfl

/-- The bytes of a word in a buffer. -/
theorem wordAt_eq_iff (e : Endian) (u : UpdateMessage) {off : ℕ} (h : off + 4 ≤ updateMessageBytes) (w : Word) :
    wordAt e u.bytes off = w ↔ slice u.bytes off 4 = bytesOf e w := by
  have hlen : (slice u.bytes off 4).length = 4 := length_slice (by rw [u.length_bytes]; exact h)
  constructor
  · rintro rfl
    exact (bytesOf_wordOf e hlen).symm
  · intro hs
    rw [wordAt, hs, wordOf_bytesOf]

/-- A buffer of zeros. -/
def UpdateMessage.zero : UpdateMessage := ⟨List.replicate updateMessageBytes 0, List.length_replicate⟩

theorem UpdateMessage.wordAt_zero (e : Endian) {off : ℕ} (h : off + 4 ≤ updateMessageBytes) :
    wordAt e UpdateMessage.zero.bytes off = 0 := by
  have hbytes : bytesOf e 0 = List.replicate 4 0 := by cases e <;> rfl
  rw [wordAt_eq_iff e _ h, hbytes, zero, slice, List.drop_replicate, List.take_replicate,
    Nat.min_eq_left (by omega)]

/-- **A digest from a peer**: `recv_sync_msg` queues a message for it, and when
`bloommgr` has taken that message, whatever its buffer held before, the digest
it has inserted is the one sent, and is reported, just when bytes 32 to 35 of
the buffer were those of the digest's last word already. -/
theorem recvSyncMsg_oper_iff (e e' : Endian) (d : Digest) (rest : List Byte) (loc : Locals) (n n' : Node)
    (num nb : ℕ) (r : Ring num nb) (clock : Clock) :
    ∃ m n'', recvSyncMsg e' loc { n with stream := sendOperSync e d ++ rest } =
        .ok (1, { n with stream := rest, inq := n.inq ++ [m] }) ∧
      bloommgr e' clock { n' with outq := m :: n'.outq, ctx := { n'.ctx with filter := r.brq } } = .ok n'' ∧
      ((n''.log = n'.log ++ [.updateOper d] ∧ isInRingQueue n''.ctx.filter d = .ok true) ↔
        slice n'.message.bytes 32 4 = bytesOf e' d.h7) := by
  have hexec := Ctx.execute_local { n'.ctx with filter := r.brq } r rfl
    (show (Command.updateOper { d with h7 := wordAt e' n'.message.bytes 32 }).isLocal = true from rfl)
  have hturn := bloommgr_cons (n := { n' with
    outq := queuedOper e' d :: n'.outq, ctx := { n'.ctx with filter := r.brq } }) rfl
    (command_queuedOper e' clock n'.message d) hexec
  refine ⟨queuedOper e' d, _, recvSyncMsg_oper e e' loc _ d rest rfl, hturn, ?_⟩
  rw [← wordAt_eq_iff e' n'.message (by decide)]
  constructor
  · rintro ⟨hlog, -⟩
    have hd : { d with h7 := wordAt e' n'.message.bytes 32 } = d := by simpa using hlog
    exact congrArg Digest.h7 hd
  · intro hw
    have hd : { d with h7 := wordAt e' n'.message.bytes 32 } = d := by rw [hw]
    refine ⟨by rw [hd], ?_⟩
    rw [hd]
    exact ((r.insertDigest d).isInRingQueue_eq_true d).mpr (r.keeps_insertDigest d).reports

/-- The digest `1, …, 8` arrives at a node whose buffers are zero: the digest
inserted is `1, …, 7, 0`, and the one sent is not reported. -/
theorem recvSyncMsg_oper_zero :
    ∃ m n'', recvSyncMsg .little ⟨⟨0, 0, 0, 0, 0, 0, 0, 0⟩, UpdateMessage.zero⟩
        (Node.start ⟨10, 2, oneWordRing [0, 0] 0 0, 100, 1⟩ UpdateMessage.zero
          (sendOperSync .little ⟨1, 2, 3, 4, 5, 6, 7, 8⟩)) =
        .ok (1, { Node.start ⟨10, 2, oneWordRing [0, 0] 0 0, 100, 1⟩ UpdateMessage.zero [] with inq := [m] }) ∧
      bloommgr .little ⟨0, 0, 0, 0⟩
        { Node.start ⟨10, 2, oneWordRing [0, 0] 0 0, 100, 1⟩ UpdateMessage.zero [] with outq := [m] } = .ok n'' ∧
      n''.log = [.updateOper ⟨1, 2, 3, 4, 5, 6, 7, 0⟩] ∧
      isInRingQueue n''.ctx.filter ⟨1, 2, 3, 4, 5, 6, 7, 8⟩ = .ok false := by
  have hexec : (Ctx.mk 10 2 (oneWordRing [0, 0] 0 0) 100 1).execute (.updateOper ⟨1, 2, 3, 4, 5, 6, 7, 0⟩) =
      .ok ⟨10, 2, oneWordRing [255, 0] 255 0, 100, 1⟩ := by decide
  refine ⟨queuedOper .little ⟨1, 2, 3, 4, 5, 6, 7, 8⟩, _,
    recvSyncMsg_oper .little .little _ _ ⟨1, 2, 3, 4, 5, 6, 7, 8⟩ [] (List.append_nil _).symm,
    bloommgr_cons rfl ((command_queuedOper _ _ _ _).trans ?_) hexec, rfl, by decide⟩
  rw [Node.start, UpdateMessage.wordAt_zero _ (by decide)]

/-- **A chunk from a peer**: `recv_sync_msg` queues a message for it, and when
`bloommgr` takes that message, whatever its buffer held before, the chunk that it
merges is the one sent just when bytes 136 to 139 of the buffer were those of the
chunk's last word already. -/
theorem recvSyncMsg_startup_iff (e e' : Endian) (ss : StartupSync) (rest : List Byte) (loc : Locals) (n : Node)
    (u : UpdateMessage) (clock : Clock) :
    ∃ m, recvSyncMsg e' loc { n with stream := sendStartupSync e ss ++ rest } =
        .ok (1, { n with stream := rest, outq := n.outq ++ [m] }) ∧
      ((u.getMsg m).command e' clock = .absoluteUpdate ss ↔ slice u.bytes 136 4 = bytesOf e' ss.filter[31]) := by
  refine ⟨queuedStartup e' ss, recvSyncMsg_startup e e' loc _ ss rest rfl, ?_⟩
  rw [command_queuedStartup, ← wordAt_eq_iff e' u (by decide), Command.absoluteUpdate.injEq]
  constructor
  · intro hss
    have hfilter := congrArg (fun ss : StartupSync => ss.filter[31]) hss
    simpa using hfilter
  · intro hw
    rw [hw, Vector.set_getElem_self]

/-- A chunk of ones arrives at a node whose buffer is zero: the last word of the
chunk that is merged is zero. -/
theorem recvSyncMsg_startup_zero :
    ∃ m, recvSyncMsg .little ⟨⟨0, 0, 0, 0, 0, 0, 0, 0⟩, UpdateMessage.zero⟩
        (Node.start ⟨10, 2, oneWordRing [0, 0] 0 0, 100, 1⟩ UpdateMessage.zero
          (sendStartupSync .little ⟨0, 0, Vector.replicate 32 1⟩)) =
        .ok (1, { Node.start ⟨10, 2, oneWordRing [0, 0] 0 0, 100, 1⟩ UpdateMessage.zero [] with outq := [m] }) ∧
      (UpdateMessage.zero.getMsg m).command .little ⟨0, 0, 0, 0⟩ =
        .absoluteUpdate ⟨0, 0, (Vector.replicate 32 1).set 31 0⟩ := by
  refine ⟨queuedStartup .little ⟨0, 0, Vector.replicate 32 1⟩,
    recvSyncMsg_startup .little .little _ _ ⟨0, 0, Vector.replicate 32 1⟩ [] (List.append_nil _).symm, ?_⟩
  rw [command_queuedStartup, UpdateMessage.wordAt_zero _ (by decide)]

end Gross.Sync
