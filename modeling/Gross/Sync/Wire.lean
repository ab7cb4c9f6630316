import Gross.Bloom.Manager

/-!
# The synchronisation protocol on the wire

Two nodes keep each other's filters up to date over a stream of bytes. All
integers are 32-bit, in network order. A connection starts with the sender's
configuration; then come messages, each a type and a length (`sync_msg_t`)
followed by what the type says:

* `STARTUP_SYNC` — a chunk of a filter (`startup_sync_t`);
* `OPER_SYNC` — a digest (`oper_sync_t`);
* `AGGREGATE_SYNC` — nothing: the chunks have all been sent.

## The model

A structure lies in memory as the bytes of its words, in the order of the
machine (`Endian`), which need not be the same on the two nodes. The senders are
the bytes they write.

## What is proved

What a node writes in network order another reads back, whatever the byte orders
of the two (`dtoh_ofBytes_toBytes_dton`, `sstoh_ofBytes_toBytes_sston`).
-/

namespace Gross.Sync

open Foundation Bloom

/-! ### Structures in memory -/

/-- The bytes of a `sha_256_t`. -/
def Digest.toBytes (e : Endian) (d : Digest) : List Byte := bytesOfWords e d.words

/-- The `sha_256_t` at the start of a block of memory. -/
def Digest.ofBytes (e : Endian) (bs : List Byte) : Digest :=
  ⟨wordAt e bs 0, wordAt e bs 4, wordAt e bs 8, wordAt e bs 12, wordAt e bs 16, wordAt e bs 20,
    wordAt e bs 24, wordAt e bs 28⟩

/-- The words of a `startup_sync_t`. -/
def StartupSync.words (ss : StartupSync) : List Word := ss.buffer :: ss.index :: ss.filter.toList

/-- The bytes of a `startup_sync_t`. -/
def StartupSync.toBytes (e : Endian) (ss : StartupSync) : List Byte := bytesOfWords e (words ss)

/-- The `startup_sync_t` at the start of a block of memory. -/
def StartupSync.ofBytes (e : Endian) (bs : List Byte) : StartupSync :=
  ⟨wordAt e bs 0, wordAt e bs 4, Vector.ofFn fun i => wordAt e bs (8 + 4 * i.val)⟩

/-- `sync_config_t`. -/
structure SyncConfig where
  /-- `filter_size`: the logarithm of the number of bits. -/
  filterSize : Word
  /-- `num_bufs` -/
  numBufs : Word
  deriving DecidableEq, Repr

/-- `sizeof(sha_256_t)`, which is `sizeof(oper_sync_t)`. -/
def digestBytes : ℕ := 32

/-- `sizeof(startup_sync_t)` -/
def startupSyncBytes : ℕ := 136

/-- `sizeof(sync_msg_t)` -/
def syncMsgBytes : ℕ := 8

/-- `sizeof(sync_config_t)` -/
def syncConfigBytes : ℕ := 8

/-! ### Network order -/

/-- `sston`. -/
def sston (e : Endian) (ss : StartupSync) : StartupSync :=
  ⟨htonl e ss.buffer, htonl e ss.index, ss.filter.map (htonl e)⟩

/-- `sstoh`. -/
def sstoh (e : Endian) (ss : StartupSync) : StartupSync :=
  ⟨ntohl e ss.buffer, ntohl e ss.index, ss.filter.map (ntohl e)⟩

/-- `dton`. -/
def dton (e : Endian) (d : Digest) : Digest :=
  ⟨htonl e d.h0, htonl e d.h1, htonl e d.h2, htonl e d.h3, htonl e d.h4, htonl e d.h5, htonl e d.h6, htonl e d.h7⟩

/-- `dtoh`. -/
def dtoh (e : Endian) (d : Digest) : Digest :=
  ⟨ntohl e d.h0, ntohl e d.h1, ntohl e d.h2, ntohl e d.h3, ntohl e d.h4, ntohl e d.h5, ntohl e d.h6, ntohl e d.h7⟩

/-! ### Sending -/

/-- `STARTUP_SYNC` -/
def startupSyncType : Word := 1

/-- `OPER_SYNC` -/
def operSyncType : Word := 2

/-- `AGGREGATE_SYNC` -/
def aggregateSyncType : Word := 4

/-- The bytes of a `sync_msg_t` in network order. -/
def prologue (e : Endian) (type length : Word) : List Byte :=
  bytesOf e (htonl e type) ++ bytesOf e (htonl e length)

/-- What `send_sync_config` writes. -/
def sendSyncConfig (e : Endian) (conf : SyncConfig) : List Byte :=
  bytesOf e (htonl e conf.filterSize) ++ bytesOf e (htonl e conf.numBufs)

/-- What `send_startup_sync` writes. -/
def sendStartupSync (e : Endian) (ss : StartupSync) : List Byte :=
  prologue e startupSyncType (BitVec.ofNat 32 startupSyncBytes) ++ StartupSync.toBytes e (sston e ss)

/-- What `send_oper_sync` writes. -/
def sendOperSync (e : Endian) (d : Digest) : List Byte :=
  prologue e operSyncType (BitVec.ofNat 32 digestBytes) ++ Digest.toBytes e (dton e d)

/-- What `force_peer_aggregate` writes. -/
def forcePeerAggregate (e : Endian) : List Byte := bytesOf e (htonl e aggregateSyncType) ++ bytesOf e 0

/-- A length of 0 is the same in either order: this is a header like the others. -/
theorem forcePeerAggregate_eq (e : Endian) : forcePeerAggregate e = prologue e aggregateSyncType 0 := by
  rw [forcePeerAggregate, prologue, htonl_zero]

/-- A message of the protocol. -/
inductive PeerMsg where
  /-- `STARTUP_SYNC` -/
  | startup (ss : StartupSync)
  /-- `OPER_SYNC` -/
  | oper (d : Digest)
  /-- `AGGREGATE_SYNC` -/
  | aggregate
  deriving DecidableEq, Repr

/-- What is written for a message. -/
def PeerMsg.send (e : Endian) : PeerMsg → List Byte
  | .startup ss => sendStartupSync e ss
  | .oper d => sendOperSync e d
  | .aggregate => forcePeerAggregate e

/-! ### From one machine to the other -/

@[simp] theorem length_prologue (e : Endian) (type length : Word) :
    (prologue e type length).length = syncMsgBytes := by
  simp [prologue, syncMsgBytes]

@[simp] theorem length_toBytes_digest (e : Endian) (d : Digest) : (Digest.toBytes e d).length = digestBytes := by
  simp [Digest.toBytes, Digest.words, digestBytes]

@[simp] theorem length_words_startupSync (ss : StartupSync) : (StartupSync.words ss).length = 34 := by
  simp [StartupSync.words]

@[simp] theorem length_toBytes_startupSync (e : Endian) (ss : StartupSync) :
    (StartupSync.toBytes e ss).length = startupSyncBytes := by
  simp [StartupSync.toBytes, startupSyncBytes]

/-- A word sent in network order at some place of an array is read back from there. -/
theorem ntohl_wordAt_wire (e e' : Endian) (ws : List Word) (i : ℕ) (hi : i < ws.length) :
    ntohl e' (wordAt e' (bytesOfWords e (ws.map (htonl e))) (4 * i)) = ws[i] := by
  rw [wordAt, slice_bytesOfWords e _ i (by simpa using hi), List.getElem_map, ntohl_wordOf_bytesOf_htonl]

/-- A digest sent is the digest read back. -/
theorem dtoh_ofBytes_toBytes_dton (e e' : Endian) (d : Digest) :
    dtoh e' (Digest.ofBytes e' (Digest.toBytes e (dton e d))) = d := by
  have hwords : (dton e d).words = d.words.map (htonl e) := rfl
  have key := ntohl_wordAt_wire e e' d.words
  rw [Digest.toBytes, hwords]
  simp only [dtoh, Digest.ofBytes]
  -- one word at a time
  have hlen : ∀ i, i < 8 → i < d.words.length := fun i hi => hi
  rw [key 0 (hlen 0 (by decide)), key 1 (hlen 1 (by decide)), key 2 (hlen 2 (by decide)),
    key 3 (hlen 3 (by decide)), key 4 (hlen 4 (by decide)), key 5 (hlen 5 (by decide)),
    key 6 (hlen 6 (by decide)), key 7 (hlen 7 (by decide))]
  rfl

/-- A chunk sent is the chunk read back. -/
theorem sstoh_ofBytes_toBytes_sston (e e' : Endian) (ss : StartupSync) :
    sstoh e' (StartupSync.ofBytes e' (StartupSync.toBytes e (sston e ss))) = ss := by
  have hwords : StartupSync.words (sston e ss) = (StartupSync.words ss).map (htonl e) := by
    simp [StartupSync.words, sston, Vector.toList_map]
  have key := ntohl_wordAt_wire e e' (StartupSync.words ss)
  obtain ⟨buffer, index, filter⟩ := ss
  rw [StartupSync.toBytes, hwords]
  simp only [sstoh, StartupSync.ofBytes, StartupSync.mk.injEq]
  refine ⟨key 0 (by simp), key 1 (by simp), ?_⟩
  ext i hi
  rw [Vector.getElem_map, Vector.getElem_ofFn, show 8 + 4 * i = 4 * (i + 2) by ring, key (i + 2) (by simpa using by omega)]
  simp [StartupSync.words]

end Gross.Sync
