import Gross.Foundation.ByteOrder
import Gross.Sjsms.Query

/-!
# Datagrams

A client of the other protocol asks with one datagram. `sjsms_server` receives it
and hands it to a thread, which runs `sjsms_connection`: a header says what kind of
message it is and how long. The first kind of query has offsets of three strings,
the second is text (`parsequery`), and a client may also send a line for the log.

## The model

`serve` is what is done with the bytes that `recvfrom` gives, up to the tuple or the
line for the log. Arrays are checked, and so is where a string ends. What memory
holds that nobody has written is an argument (`Uninit`), and the order of the bytes
of a word is one.

## What is proved

`serve_iff` — no assertion fails and no index is out of bounds exactly if the
datagram is not empty and is not a line of length zero for the log: `Malloc` asserts
that it is asked for something.
-/

namespace Gross.Sjsms

open Foundation Postfix

/-- `MSGSZ` -/
def msgsz : ℕ := 1024

/-- `MSGTYPE_QUERY` -/
def msgtypeQuery : BitVec 16 := 0

/-- `MSGTYPE_LOGMSG` -/
def msgtypeLogmsg : BitVec 16 := 1

/-- `MSGTYPE_QUERY_V2` -/
def msgtypeQueryV2 : BitVec 16 := 2

/-- `sjsms_msg_t` -/
structure SjsmsMsg where
  /-- `msgtype` -/
  msgtype : BitVec 16
  /-- `msglen` -/
  msglen : BitVec 16
  /-- `message` -/
  message : List Byte
  deriving DecidableEq, Repr

/-- `grey_req_t` -/
structure GreyReq where
  /-- `msglen` -/
  msglen : BitVec 16
  /-- `sender` -/
  sender : BitVec 16
  /-- `recipient` -/
  recipient : BitVec 16
  /-- `client_address` -/
  clientAddress : BitVec 16
  /-- `message` -/
  message : List Byte
  deriving DecidableEq, Repr

/-- `client_info_t`: the message, and its length. -/
structure ClientInfo where
  /-- `message` -/
  message : List Byte
  /-- `msglen` -/
  msglen : ℕ
  deriving DecidableEq, Repr

/-- What memory holds that has not been written. -/
structure Uninit where
  /-- `request`, which is on the stack. -/
  request : Vector Byte 1032
  /-- `str`, which is on the heap. -/
  str : ℕ → Byte

/-- What comes of a datagram. -/
inductive Decoded where
  /-- A query, and the tuple if there is one. -/
  | query (tuple : Option GreyTuple)
  /-- A line for the log. -/
  | logmsg (str : List Byte)
  /-- Something else. -/
  | unknown
  deriving DecidableEq, Repr

/-- The characters of a string. -/
def chars (bs : List Byte) : List Char := bs.map fun b => Char.ofNat b.toNat

/-- The message that lies at an address. -/
def SjsmsMsg.ofBytes (e : Endian) (bs : List Byte) : SjsmsMsg :=
  ⟨halfOf e (slice bs 0 2), halfOf e (slice bs 2 2), bs.drop 4⟩

/-- The request that lies at an address. -/
def GreyReq.ofBytes (e : Endian) (bs : List Byte) : GreyReq :=
  ⟨halfOf e (slice bs 0 2), halfOf e (slice bs 2 2), halfOf e (slice bs 4 2), halfOf e (slice bs 6 2), bs.drop 8⟩

/-- `Malloc`, of so many bytes. -/
def malloc (size : ℕ) : Except Fault Unit := check (size ≠ 0)

/-- `sjsms_to_host_order` -/
def sjsmsToHostOrder (e : Endian) (message : SjsmsMsg) : SjsmsMsg :=
  { message with msgtype := ntohs e message.msgtype, msglen := ntohs e message.msglen }

/-- `recvquery` -/
def recvquery (e : Endian) (message : SjsmsMsg) (request : List Byte) : Except Fault GreyReq := do
  let request ← memcpy request 0 message.message (min message.msglen.toNat maxlinelen)
  let text ← store (GreyReq.ofBytes e request).message (maxlinelen - 1) 0
  return { GreyReq.ofBytes e request with message := text }

/-- `recvquerystr` -/
def recvquerystr (message : SjsmsMsg) : Except Fault (List Byte) := do
  let querystr ← strncpy 0 maxlinelen message.message
  let querystr ← store querystr (maxlinelen - 1) 0
  strdup 0 querystr

/-- `unfold` -/
def unfoldRequest (e : Endian) (request : GreyReq) : Except Fault (Option GreyTuple) :=
  if (ntohs e request.sender).toNat ≥ maxlinelen ∨ (ntohs e request.recipient).toNat ≥ maxlinelen ∨
      (ntohs e request.clientAddress).toNat ≥ maxlinelen then .ok none
  else do
    let sender ← strdup 0 (request.message.drop (ntohs e request.sender).toNat)
    let recipient ← strdup 0 (request.message.drop (ntohs e request.recipient).toNat)
    let clientAddress ← strdup 0 (request.message.drop (ntohs e request.clientAddress).toNat)
    return some ⟨some (chars sender), some (chars recipient), some (chars clientAddress), some "<unknown>".toList⟩

/-- What `sjsms_connection` does with a line for the log. Where its length is zero, `Malloc`
stops before the NUL is stored. -/
def recvLogmsg (u : Uninit) (message : SjsmsMsg) : Except Fault (List Byte) := do
  malloc message.msglen.toNat
  let str ← memcpy ((List.range message.msglen.toNat).map u.str) 0 message.message (min message.msglen.toNat maxlinelen)
  let str ← store str (message.msglen.toNat - 1) 0
  strdup 0 str

/-- The switch of `sjsms_connection`. -/
def decode (e : Endian) (u : Uninit) (message : SjsmsMsg) : Except Fault Decoded :=
  if message.msgtype = msgtypeQuery then do
    let request ← recvquery e message u.request.toList
    let tuple ← unfoldRequest e request
    return .query tuple
  else if message.msgtype = msgtypeQueryV2 then do
    let querystr ← recvquerystr message
    let tuple ← parsequery (chars querystr)
    return .query tuple
  else if message.msgtype = msgtypeLogmsg then do
    let str ← recvLogmsg u message
    return .logmsg str
  else .ok .unknown

/-- `sjsms_connection`, up to the tuple or the line for the log. -/
def sjsmsConnection (e : Endian) (u : Uninit) (info : ClientInfo) : Except Fault Decoded := do
  check (0 < info.msglen)
  check (info.msglen ≤ msgsz)
  let msg ← memcpy (List.replicate (4 + maxlinelen) 0) 0 info.message info.msglen
  decode e u (sjsmsToHostOrder e (SjsmsMsg.ofBytes e msg))

/-- `sjsms_server`: what is kept of a datagram. -/
def sjsmsServer (mesg : List Byte) : Except Fault ClientInfo := do
  malloc mesg.length
  let message ← memcpy (List.replicate mesg.length 0) 0 mesg mesg.length
  return ⟨message, mesg.length⟩

/-- What is done with a datagram. -/
def serve (e : Endian) (u : Uninit) (datagram : List Byte) : Except Fault Decoded := do
  let info ← sjsmsServer datagram
  sjsmsConnection e u info

/-! ### What is received -/

/-- The message as `sjsms_connection` has it: what is missing of it is zeros, and the words
of the header are read in network order. -/
def received (datagram : List Byte) : SjsmsMsg :=
  ⟨halfOf .big (slice (datagram ++ List.replicate (4 + maxlinelen - datagram.length) 0) 0 2),
    halfOf .big (slice (datagram ++ List.replicate (4 + maxlinelen - datagram.length) 0) 2 2),
    (datagram ++ List.replicate (4 + maxlinelen - datagram.length) 0).drop 4⟩

variable {datagram : List Byte}

theorem length_message_received (h : datagram.length ≤ maxlinelen) :
    (received datagram).message.length = maxlinelen := by
  simp only [received, List.length_drop, List.length_append, List.length_replicate]
  omega

theorem sjsmsServer_ok (hne : datagram ≠ []) : sjsmsServer datagram = .ok ⟨datagram, datagram.length⟩ := by
  have hpos : datagram.length ≠ 0 := fun h => hne (List.length_eq_zero_iff.mp h)
  have hcopy : memcpy (List.replicate datagram.length 0) 0 datagram datagram.length = .ok datagram := by
    rw [memcpy_ok le_rfl (by simp), List.take_length, overwrite_start]
    simp
  rw [sjsmsServer, malloc, check_pos hpos, ok_bind, hcopy]
  rfl

theorem sjsmsToHostOrder_ofBytes (e : Endian) {bs : List Byte} (h : 4 ≤ bs.length) :
    sjsmsToHostOrder e (SjsmsMsg.ofBytes e bs) = ⟨halfOf .big (slice bs 0 2), halfOf .big (slice bs 2 2), bs.drop 4⟩ := by
  rw [sjsmsToHostOrder, SjsmsMsg.ofBytes, ntohs_halfOf e (length_slice (by omega)),
    ntohs_halfOf e (length_slice (by omega))]

/-- **What `sjsms_connection` works on**: the datagram, with zeros after it. -/
theorem serve_eq (e : Endian) (u : Uninit) (hne : datagram ≠ []) (hlen : datagram.length ≤ maxlinelen) :
    serve e u datagram = decode e u (received datagram) := by
  have hpos : 0 < datagram.length := List.length_pos_iff.mpr hne
  have hcopy : memcpy (List.replicate (4 + maxlinelen) 0) 0 datagram datagram.length =
      .ok (datagram ++ List.replicate (4 + maxlinelen - datagram.length) 0) := by
    rw [memcpy_ok le_rfl (by rw [List.length_replicate]; omega), List.take_length, overwrite_start, List.drop_replicate]
  have hle : datagram.length ≤ msgsz := hlen
  rw [serve, sjsmsServer_ok hne, ok_bind, sjsmsConnection]
  simp only [check_pos hpos, check_pos hle, hcopy, ok_bind]
  rw [sjsmsToHostOrder_ofBytes e (by rw [List.length_append, List.length_replicate]; omega)]
  rfl

/-! ### What is read of it -/

variable {message : SjsmsMsg}

theorem mem_drop_of_getElem? {mem : List Byte} {n i : ℕ} (h : mem[n]? = some 0) (hi : i ≤ n) : 0 ∈ mem.drop i := by
  have hget : (mem.drop i)[n - i]? = some 0 := by rw [List.getElem?_drop, Nat.add_sub_cancel' hi, h]
  exact List.mem_of_getElem? hget

theorem recvquery_ok (e : Endian) (hlen : message.message.length = maxlinelen) {request : List Byte}
    (hreq : request.length = 8 + maxlinelen) :
    ∃ r, recvquery e message request = .ok r ∧ r.message[maxlinelen - 1]? = some 0 := by
  have hn : min message.msglen.toNat maxlinelen ≤ maxlinelen := min_le_right _ _
  have htake : (message.message.take (min message.msglen.toNat maxlinelen)).length =
      min message.msglen.toNat maxlinelen := by
    rw [List.length_take, hlen, min_eq_left hn]
  have hcopy : memcpy request 0 message.message (min message.msglen.toNat maxlinelen) = .ok _ :=
    memcpy_ok (hn.trans hlen.ge) (by omega)
  generalize hbs : overwrite request 0 (message.message.take (min message.msglen.toNat maxlinelen)) = bs at hcopy
  have hbslen : bs.length = 8 + maxlinelen := by
    rw [← hbs, length_overwrite (by omega), hreq]
  have hlt : maxlinelen - 1 < (GreyReq.ofBytes e bs).message.length := by
    show maxlinelen - 1 < (bs.drop 8).length
    rw [List.length_drop, hbslen]
    decide
  refine ⟨{ GreyReq.ofBytes e bs with message := (GreyReq.ofBytes e bs).message.set (maxlinelen - 1) 0 }, ?_, ?_⟩
  · rw [recvquery, hcopy, ok_bind, store_lt hlt]
    rfl
  · show ((GreyReq.ofBytes e bs).message.set (maxlinelen - 1) 0)[maxlinelen - 1]? = some 0
    rw [List.getElem?_set_self hlt]

/-- The three strings end with the buffer, if not before. -/
theorem unfoldRequest_ok (e : Endian) {request : GreyReq} (h : request.message[maxlinelen - 1]? = some 0) :
    ∃ r, unfoldRequest e request = .ok r := by
  unfold unfoldRequest
  split_ifs with hbig
  · exact ⟨none, rfl⟩
  · simp only [not_or, Nat.not_le, ge_iff_le] at hbig
    obtain ⟨hsender, hrecipient, hclient⟩ := hbig
    rw [strdup_of_mem (mem_drop_of_getElem? h (Nat.le_pred_of_lt hsender)),
      strdup_of_mem (mem_drop_of_getElem? h (Nat.le_pred_of_lt hrecipient)),
      strdup_of_mem (mem_drop_of_getElem? h (Nat.le_pred_of_lt hclient))]
    exact ⟨_, rfl⟩

theorem recvquerystr_ok (hlen : message.message.length = maxlinelen) :
    ∃ s, recvquerystr message = .ok s ∧ 0 ∉ s := by
  obtain ⟨buf, hbuf, hbuflen, -⟩ := strncpy_ok (n := maxlinelen) (.inr hlen.ge)
  have hlt : maxlinelen - 1 < buf.length := by
    rw [hbuflen]
    decide
  have hmem : 0 ∈ buf.set (maxlinelen - 1) 0 := List.mem_of_getElem? (List.getElem?_set_self hlt)
  refine ⟨_, ?_, nul_notMem_cstring (buf.set (maxlinelen - 1) 0)⟩
  rw [recvquerystr, hbuf, ok_bind, store_lt hlt, ok_bind, strdup_of_mem hmem]

theorem recvLogmsg_ok (u : Uninit) (hlen : message.message.length = maxlinelen) (hmsglen : message.msglen ≠ 0) :
    ∃ str, recvLogmsg u message = .ok str := by
  have hne : message.msglen.toNat ≠ 0 := fun h => hmsglen (BitVec.eq_of_toNat_eq h)
  have hstr : ((List.range message.msglen.toNat).map u.str).length = message.msglen.toNat := by simp
  have hn : min message.msglen.toNat maxlinelen ≤ message.msglen.toNat := min_le_left _ _
  have hcopy : memcpy ((List.range message.msglen.toNat).map u.str) 0 message.message
      (min message.msglen.toNat maxlinelen) = .ok _ :=
    memcpy_ok ((min_le_right _ _).trans hlen.ge) (by omega)
  generalize hbs : overwrite ((List.range message.msglen.toNat).map u.str) 0
    (message.message.take (min message.msglen.toNat maxlinelen)) = bs at hcopy
  have hlt : message.msglen.toNat - 1 < bs.length := by
    rw [← hbs, length_overwrite (by rw [List.length_take, hlen]; omega), hstr]
    omega
  have hmem : 0 ∈ bs.set (message.msglen.toNat - 1) 0 := List.mem_of_getElem? (List.getElem?_set_self hlt)
  rw [recvLogmsg, malloc, check_pos hne, ok_bind, hcopy, ok_bind, store_lt hlt, ok_bind, strdup_of_mem hmem]
  exact ⟨_, rfl⟩

/-- Different bytes are different characters. -/
theorem mem_chars {s : List Byte} (b : Byte) : Char.ofNat b.toNat ∈ chars s ↔ b ∈ s := by
  have hcode : ∀ b : Byte, (Char.ofNat b.toNat).toNat = b.toNat := by decide
  apply List.mem_map_of_injective
  intro a b hab
  apply BitVec.eq_of_toNat_eq
  rw [← hcode a, ← hcode b]
  exact congrArg Char.toNat hab

theorem nul_notMem_chars {s : List Byte} (h : 0 ∉ s) : '\x00' ∉ chars s := mt (mem_chars 0).mp h

/-- What `sjsms_connection` makes of a message: all is well, unless it is a line of length
zero for the log. -/
theorem decode_iff (e : Endian) (u : Uninit) (hlen : message.message.length = maxlinelen) :
    (∃ d, decode e u message = .ok d) ↔ ¬ (message.msgtype = msgtypeLogmsg ∧ message.msglen = 0) := by
  unfold decode
  by_cases hquery : message.msgtype = msgtypeQuery
  · rw [if_pos hquery, hquery]
    obtain ⟨request, hrequest, hnul⟩ := recvquery_ok e hlen (Vector.length_toList : u.request.toList.length = 1032)
    obtain ⟨tuple, htuple⟩ := unfoldRequest_ok e hnul
    rw [hrequest, ok_bind, htuple]
    exact iff_of_true ⟨_, rfl⟩ fun h => absurd h.1 (by decide)
  · rw [if_neg hquery]
    by_cases hv2 : message.msgtype = msgtypeQueryV2
    · rw [if_pos hv2, hv2]
      obtain ⟨s, hs, hnul⟩ := recvquerystr_ok hlen
      obtain ⟨tuple, htuple⟩ := parsequery_ok (nul_notMem_chars hnul)
      rw [hs, ok_bind, htuple]
      exact iff_of_true ⟨_, rfl⟩ fun h => absurd h.1 (by decide)
    · rw [if_neg hv2]
      by_cases hlog : message.msgtype = msgtypeLogmsg
      · rw [if_pos hlog]
        by_cases hzero : message.msglen = 0
        · have hcheck : ¬ message.msglen.toNat ≠ 0 := not_not.mpr (by rw [hzero]; rfl)
          rw [recvLogmsg, malloc, check_neg hcheck]
          refine iff_of_false ?_ (not_not.mpr ⟨hlog, hzero⟩)
          rintro ⟨d, hd⟩
          cases hd
        · obtain ⟨str, hstr⟩ := recvLogmsg_ok u hlen hzero
          rw [hstr]
          exact iff_of_true ⟨_, rfl⟩ fun h => hzero h.2
      · rw [if_neg hlog]
        exact iff_of_true ⟨_, rfl⟩ fun h => hlog h.1

/-- The header of what is received. -/
theorem take_received (h : datagram.length ≤ maxlinelen) :
    (datagram ++ List.replicate (4 + maxlinelen - datagram.length) 0).take 4 = (datagram ++ [0, 0, 0, 0]).take 4 := by
  have hrep : List.replicate (4 + maxlinelen - datagram.length) (0 : Byte) =
      [0, 0, 0, 0] ++ List.replicate (maxlinelen - datagram.length) 0 := by
    rw [show 4 + maxlinelen - datagram.length = 4 + (maxlinelen - datagram.length) by omega, List.replicate_add]
    rfl
  rw [hrep, ← List.append_assoc, List.take_append_of_le_length (by simp)]

/-- It says that this is a line of length zero for the log just if its bytes are these. -/
theorem received_eq_iff (h : datagram.length ≤ maxlinelen) :
    ((received datagram).msgtype = msgtypeLogmsg ∧ (received datagram).msglen = 0) ↔
      (datagram ++ [0, 0, 0, 0]).take 4 = [0, 1, 0, 0] := by
  rw [← take_received h]
  unfold received
  generalize hbs : datagram ++ List.replicate (4 + maxlinelen - datagram.length) 0 = bs
  have hlen : 4 ≤ bs.length := by
    rw [← hbs, List.length_append, List.length_replicate]
    omega
  have htake : bs.take 4 = slice bs 0 2 ++ slice bs 2 2 := by
    rw [slice, slice, List.drop_zero, show (4 : ℕ) = 2 + 2 from rfl, List.take_add]
  have htype : (slice bs 0 2).length = 2 := length_slice (by omega)
  have hmsglen : (slice bs 2 2).length = 2 := length_slice (by omega)
  rw [halfOf_eq_iff htype, halfOf_eq_iff hmsglen, htake]
  constructor
  · rintro ⟨h0, h2⟩
    rw [h0, h2]
    decide
  · intro happ
    have hbytes : bytesOfHalf .big msgtypeLogmsg ++ bytesOfHalf .big 0 = [0, 1, 0, 0] := by decide
    rw [← hbytes] at happ
    exact List.append_inj happ (htype.trans (length_bytesOfHalf _ _).symm)

/-- **Which datagrams are served**: of all that `recvfrom` can give, no assertion fails and
no index is out of bounds exactly if the datagram is not empty, and is not a line of
length zero for the log. What is missing of a header counts as zero. -/
theorem serve_iff (e : Endian) (u : Uninit) (h : datagram.length ≤ maxlinelen) :
    (∃ d, serve e u datagram = .ok d) ↔
      datagram ≠ [] ∧ (datagram ++ [0, 0, 0, 0]).take 4 ≠ [0, 1, 0, 0] := by
  by_cases hne : datagram = []
  · subst hne
    refine iff_of_false ?_ fun hd => hd.1 rfl
    rintro ⟨d, hd⟩
    cases hd
  · rw [serve_eq e u hne h, decode_iff e u (length_message_received h), received_eq_iff h]
    exact (and_iff_right hne).symm

/-- Memory that holds zeros. -/
def blank : Uninit := ⟨Vector.replicate 1032 0, fun _ => 0⟩

/-- The bytes of a text. -/
def ascii (s : String) : List Byte := s.toList.map fun c => BitVec.ofNat 8 c.toNat

/-- A query as text: its type, its length, and the lines of a request. -/
def textQuery : List Byte := [0, 2, 0, 51] ++ ascii "sender=a@b\nrecipient=c@d\nclient_address=192.0.2.1\n\n"

theorem serve_textQuery : ∃ d, serve .little blank textQuery = .ok d :=
  (serve_iff .little blank (by decide)).mpr ⟨by decide, by decide⟩

/-- No bytes at all; and the type of a line for the log, and nothing more. -/
theorem serve_assertion :
    serve .little blank [] = .error .assertion ∧ serve .little blank [0, 1] = .error .assertion := by
  refine ⟨rfl, ?_⟩
  rw [serve_eq .little blank (by decide) (by decide)]
  rfl

end Gross.Sjsms
