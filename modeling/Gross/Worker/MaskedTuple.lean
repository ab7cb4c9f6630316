import Gross.Foundation.ByteOrder
import Gross.Foundation.CString
import Gross.Postfix.Parse

/-!
# The string that is hashed

`test_tuple` knows a request by a digest. It masks the client address, so that
addresses of one net count as one, puts the masked address, the sender and the
recipient in a row, with blanks between them, and hashes that (`grey_tuple = user`;
with `server` it takes the domain of the sender and the name in the greeting). The
row is made by `snprintf`, in a buffer of `MSGSZ` bytes.

## The model

`Inet` is what the C library knows of addresses, of which nothing matters but that a
printed address has no blank in it. `greyMask` and `maskedtuple` are the source's.
What a request stands for is its `Key`: the masked address, the sender and the
recipient.

## What is proved

`hashed_apart_iff` — no request with another key has the same string exactly if there
is no blank in the sender and the recipient, and the row is shorter than
`MSGSZ - 1`. So of two requests with different keys, if the strings are the same,
neither is such.

## Honest scope

The digest is left out: what is compared is the strings that are hashed. A mask of
less than two bits asks for an `int` that C leaves undefined (`Gross.Addrutils.GreyMask`);
here it keeps as many bits as it says.
-/

namespace Gross.Worker

open Foundation Postfix

/-- `MSGSZ` -/
def msgsz : ℕ := 1024

/-- `INET_ADDRSTRLEN` -/
def inetAddrstrlen : ℕ := 16

/-- `INET6_ADDRSTRLEN` -/
def inet6Addrstrlen : ℕ := 46

/-- `inet_pton` and `inet_ntop`. An address is its bytes, in network order. -/
structure Inet where
  /-- `inet_pton(AF_INET, …)` -/
  pton4 : List Char → Option (List Byte)
  /-- `inet_ntop(AF_INET, …)` -/
  ntop4 : List Byte → Option (List Char)
  /-- `inet_pton(AF_INET6, …)` -/
  pton6 : List Char → Option (List Byte)
  /-- `inet_ntop(AF_INET6, …)` -/
  ntop6 : List Byte → Option (List Char)
  /-- A printed address has no blank in it. -/
  blank4 : ∀ bs s, ntop4 bs = some s → ' ' ∉ s
  /-- Nor has one of the other kind. -/
  blank6 : ∀ bs s, ntop6 bs = some s → ' ' ∉ s

/-- `config.grey_tuple` -/
inductive GreyTupleKind where
  /-- `GREY_TUPLE_USER` -/
  | user
  /-- `GREY_TUPLE_SERVER` -/
  | server
  deriving DecidableEq, Repr

/-- What is configured of the tuple. -/
structure MaskConfig where
  /-- `grey_mask` -/
  greyMask : ℕ
  /-- `grey_mask6`; `configure_grossd` lets a negative one through. -/
  greyMask6 : ℤ
  /-- `grey_tuple` -/
  greyTuple : GreyTupleKind
  deriving DecidableEq, Repr

/-- `grey_mask_v4` -/
def greyMaskV4 (inet : Inet) (e : Endian) (conf : MaskConfig) (ipstr : List Char) : Option (List Char) :=
  if ipstr.length ≥ inetAddrstrlen then none
  else
    match inet.pton4 ipstr with
    | none => none
    | some addr =>
      let mask : Word := 0xffffffff ^^^ (((1 : Word) <<< (32 - conf.greyMask)) - 1)
      inet.ntop4 (bytesOf e (wordOf e addr &&& htonl e mask))

/-- What is kept of byte `i` of an address of the other kind. -/
def maskPart (conf : MaskConfig) (i : ℕ) : Byte :=
  if (i : ℤ) < conf.greyMask6 >>> (3 : ℕ) then 0xff
  else if (i : ℤ) > conf.greyMask6 >>> (3 : ℕ) then 0
  else 0xff ^^^ (((1 : Byte) <<< (8 - (conf.greyMask6 % 8).toNat)) - 1)

/-- `grey_mask_v6` -/
def greyMaskV6 (inet : Inet) (conf : MaskConfig) (ipstr : List Char) : Option (List Char) :=
  if ipstr.length ≥ inet6Addrstrlen then none
  else
    match inet.pton6 ipstr with
    | none => none
    | some addr => inet.ntop6 (addr.mapIdx fun i b => b &&& maskPart conf i)

/-- `grey_mask` -/
def greyMask (inet : Inet) (e : Endian) (conf : MaskConfig) (ipstr : List Char) : Option (List Char) :=
  match greyMaskV4 inet e conf ipstr with
  | some masked => some masked
  | none => greyMaskV6 inet conf ipstr

/-- `domain_part` -/
def domainPart (email : List Char) : List Char :=
  match email.dropWhile (· ≠ '@') with
  | [] => email
  | _ :: domain => domain

/-- `snprintf(buf, size, "%s %s %s", a, b, c)` -/
def snprintfRow (size : ℕ) (a b c : List Char) : List Char := (a ++ ' ' :: (b ++ ' ' :: c)).take (size - 1)

/-- What `test_tuple` hashes, or `none` where `grey_mask` fails. A field that is printed must
be set. -/
def maskedtuple (inet : Inet) (e : Endian) (conf : MaskConfig) (request : GreyTuple) :
    Except Fault (Option (List Char)) :=
  match request.clientAddress with
  | none => .error .outOfBounds
  | some addr =>
    match greyMask inet e conf addr with
    | none => .ok none
    | some chkipstr =>
      match conf.greyTuple with
      | .user =>
        match request.sender, request.recipient with
        | some sender, some recipient => .ok (some (snprintfRow msgsz chkipstr sender recipient))
        | _, _ => .error .outOfBounds
      | .server =>
        match request.sender, request.heloName with
        | some sender, some helo => .ok (some (snprintfRow msgsz chkipstr (domainPart sender) helo))
        | _, _ => .error .outOfBounds

/-! ### What a request stands for -/

/-- The masked address, the sender and the recipient. -/
structure Key where
  /-- The client address, masked. -/
  masked : List Char
  /-- The sender. -/
  sender : List Char
  /-- The recipient. -/
  recipient : List Char
  deriving DecidableEq, Repr

/-- The row of a key, uncut. -/
def Key.row (k : Key) : List Char := k.masked ++ ' ' :: (k.sender ++ ' ' :: k.recipient)

/-- The fields of a request are strings: there is no NUL in them. -/
def IsStrings (request : GreyTuple) : Prop :=
  ∀ s, request.sender = some s ∨ request.recipient = some s ∨ request.clientAddress = some s → '\x00' ∉ s

/-- `check_request` accepts the request, its client address passes `grey_mask`, and `k` is
what it stands for. -/
structure StandsFor (inet : Inet) (e : Endian) (conf : MaskConfig) (request : GreyTuple) (k : Key) : Prop where
  /-- It is made of strings. -/
  strings : IsStrings request
  /-- It is accepted. -/
  accepted : checkRequest request = true
  /-- The sender. -/
  sender : request.sender = some k.sender
  /-- The recipient. -/
  recipient : request.recipient = some k.recipient
  /-- The client address, masked. -/
  masked : ∃ addr, request.clientAddress = some addr ∧ greyMask inet e conf addr = some k.masked

section

variable {inet : Inet} {e : Endian} {conf : MaskConfig} {request : GreyTuple} {k : Key}

/-- A masked address has no blank in it. -/
theorem blank_notMem_greyMask {addr masked : List Char} (h : greyMask inet e conf addr = some masked) :
    ' ' ∉ masked := by
  unfold greyMask at h
  cases h4 : greyMaskV4 inet e conf addr with
  | some s =>
    rw [h4] at h
    cases h
    unfold greyMaskV4 at h4
    split_ifs at h4
    split at h4
    · cases h4
    · exact inet.blank4 _ _ h4
  | none =>
    rw [h4] at h
    simp only [greyMaskV6] at h
    split_ifs at h
    split at h
    · cases h
    · exact inet.blank6 _ _ h

/-- What is hashed is the row, cut to the buffer. -/
theorem StandsFor.maskedtuple (h : StandsFor inet e conf request k) (huser : conf.greyTuple = .user) :
    maskedtuple inet e conf request = .ok (some (k.row.take (msgsz - 1))) := by
  obtain ⟨addr, haddr, hmask⟩ := h.masked
  simp only [Worker.maskedtuple, haddr, hmask, huser, h.sender, h.recipient]
  rfl

/-- What a request with other mail addresses and the same client address stands for. -/
theorem StandsFor.withAddresses (h : StandsFor inet e conf request k) (sender recipient : List Char)
    (hsender : '\x00' ∉ sender) (hrecipient : '\x00' ∉ recipient) :
    StandsFor inet e conf { request with sender := some sender, recipient := some recipient }
      ⟨k.masked, sender, recipient⟩ where
  strings := by
    rintro s (hs | hs | hs)
    · cases hs
      exact hsender
    · cases hs
      exact hrecipient
    · exact h.strings s (Or.inr (Or.inr hs))
  accepted := by
    obtain ⟨addr, haddr, -⟩ := h.masked
    simp [checkRequest, haddr]
  sender := rfl
  recipient := rfl
  masked := h.masked

end

/-! ### A host without the other kind of addresses -/

/-- A number of an address, in decimal digits and with no zero before it. -/
def octet (s : List Char) : Option Byte :=
  let n := s.foldl (fun n c => 10 * n + (c.toNat - '0'.toNat)) 0
  if s ≠ [] ∧ s.all Char.isDigit ∧ (s.head? = some '0' → s = ['0']) ∧ n < 256 then some (BitVec.ofNat 8 n) else none

/-- `inet_pton(AF_INET, …)`: four numbers with dots between them. -/
def ptonDotted (s : List Char) : Option (List Byte) :=
  match s.splitOn '.' with
  | [a, b, c, d] => [a, b, c, d].mapM octet
  | _ => none

/-- `inet_ntop(AF_INET, …)` -/
def ntopDotted (addr : List Byte) : List Char :=
  List.intercalate ['.'] (addr.map fun b => Nat.toDigits 10 b.toNat)

/-- What is in no part, and does not stand between them, is not in the whole. -/
theorem notMem_intercalate {α : Type*} {a d : α} (had : a ≠ d) {ls : List (List α)} (hls : ∀ s ∈ ls, a ∉ s) :
    a ∉ [d].intercalate ls := by
  induction ls with
  | nil => simp
  | cons s ls ih =>
    obtain ⟨hs, hls⟩ := List.forall_mem_cons.mp hls
    cases ls with
    | nil => rwa [List.intercalate_singleton]
    | cons t ls =>
      rw [List.intercalate_cons_cons, List.mem_append, List.mem_append, List.mem_singleton, not_or, not_or]
      exact ⟨⟨hs, had⟩, ih hls⟩

theorem notMem_toDigits {c : Char} (hc : c.isDigit = false) (n : ℕ) : c ∉ Nat.toDigits 10 n := by
  intro h
  rw [Nat.isDigit_of_mem_toDigits (by omega) (by omega) h] at hc
  cases hc

/-- A printed address is made of digits and dots. -/
theorem notMem_ntopDotted {c : Char} (hc : c.isDigit = false) (hdot : c ≠ '.') (addr : List Byte) :
    c ∉ ntopDotted addr := by
  refine notMem_intercalate hdot ?_
  rw [List.forall_mem_map]
  exact fun b _ => notMem_toDigits hc b.toNat

/-- Addresses of four numbers only. -/
def dotted : Inet where
  pton4 := ptonDotted
  ntop4 addr := some (ntopDotted addr)
  pton6 _ := none
  ntop6 _ := none
  blank4 addr s h := by
    cases h
    exact notMem_ntopDotted rfl (by decide) addr
  blank6 _ _ h := by cases h

/-! ### Which rows tell their key -/

section

variable {k k' : Key}

/-- The buffer takes the row, and there is no blank in the mail addresses. -/
structure Key.Plain (k : Key) : Prop where
  /-- The sender has no blank. -/
  sender : ' ' ∉ k.sender
  /-- The recipient has no blank. -/
  recipient : ' ' ∉ k.recipient
  /-- One character more would go into the buffer. -/
  short : k.row.length < msgsz - 1

theorem Key.plain_iff : k.Plain ↔ ' ' ∉ k.sender ∧ ' ' ∉ k.recipient ∧ k.row.length < msgsz - 1 :=
  ⟨fun h => ⟨h.sender, h.recipient, h.short⟩, fun h => ⟨h.1, h.2.1, h.2.2⟩⟩

/-- A row with but two blanks tells its key. -/
theorem Key.eq_of_row_eq (hmasked : ' ' ∉ k.masked) (hmasked' : ' ' ∉ k'.masked) (hsender : ' ' ∉ k.sender)
    (hrecipient : ' ' ∉ k.recipient) (h : k.row = k'.row) : k = k' := by
  have hm : k.masked = k'.masked := by
    rw [← cstring_append hmasked (k.sender ++ ' ' :: k.recipient),
      ← cstring_append hmasked' (k'.sender ++ ' ' :: k'.recipient)]
    exact congrArg (cstring ' ') h
  rw [Key.row, Key.row, hm, List.append_cancel_left_eq, List.cons_inj_right,
    List.append_cons_inj_of_notMem hsender hrecipient] at h
  obtain ⟨hs, -, hr⟩ := h
  cases k
  cases k'
  simp_all

/-- If the row of a plain key is hashed for another as well, it is the same key. -/
theorem Key.Plain.eq_of_take_eq (h : k.Plain) (hmasked : ' ' ∉ k.masked) (hmasked' : ' ' ∉ k'.masked)
    (heq : k'.row.take (msgsz - 1) = k.row.take (msgsz - 1)) : k' = k := by
  have hshort := h.short
  rw [List.take_of_length_le hshort.le] at heq
  -- the buffer is not full, so nothing was cut off the other row
  have hshort' : k'.row.length ≤ msgsz - 1 := by
    have hlen := congrArg List.length heq
    rw [List.length_take] at hlen
    omega
  rw [List.take_of_length_le hshort'] at heq
  exact (Key.eq_of_row_eq hmasked hmasked' h.sender h.recipient heq.symm).symm

/-- A blank in the sender could be the one behind the sender. -/
theorem Key.exists_of_blank_sender (h : ' ' ∈ k.sender) :
    ∃ a b, k.sender = a ++ ' ' :: b ∧ (⟨k.masked, a, b ++ ' ' :: k.recipient⟩ : Key).row = k.row := by
  obtain ⟨a, b, hab⟩ := List.append_of_mem h
  refine ⟨a, b, hab, ?_⟩
  simp [Key.row, hab]

/-- A blank in the recipient could be the one before the recipient. -/
theorem Key.exists_of_blank_recipient (h : ' ' ∈ k.recipient) :
    ∃ a b, k.recipient = a ++ ' ' :: b ∧ (⟨k.masked, k.sender ++ ' ' :: a, b⟩ : Key).row = k.row := by
  obtain ⟨a, b, hab⟩ := List.append_of_mem h
  refine ⟨a, b, hab, ?_⟩
  simp [Key.row, hab]

/-- What comes behind a full buffer is cut off. -/
theorem Key.take_row_append (h : msgsz - 1 ≤ k.row.length) (s : List Char) :
    (⟨k.masked, k.sender, k.recipient ++ s⟩ : Key).row.take (msgsz - 1) = k.row.take (msgsz - 1) := by
  have hrow : (⟨k.masked, k.sender, k.recipient ++ s⟩ : Key).row = k.row ++ s := by simp [Key.row]
  rw [hrow, List.take_append_of_le_length h]

end

section

variable {inet : Inet} {e : Endian} {conf : MaskConfig} {request : GreyTuple} {k : Key}

/-- A request whose key is not plain shares its string with one that has another key. -/
theorem StandsFor.exists_same (h : StandsFor inet e conf request k) (hplain : ¬ k.Plain) :
    ∃ request' k', StandsFor inet e conf request' k' ∧ k' ≠ k ∧
      k'.row.take (msgsz - 1) = k.row.take (msgsz - 1) := by
  have hsender := h.strings k.sender (Or.inl h.sender)
  have hrecipient := h.strings k.recipient (Or.inr (Or.inl h.recipient))
  by_cases hs : ' ' ∈ k.sender
  · obtain ⟨a, b, hab, hrow⟩ := Key.exists_of_blank_sender hs
    rw [hab, List.mem_append, List.mem_cons, not_or, not_or] at hsender
    refine ⟨_, _, h.withAddresses a (b ++ ' ' :: k.recipient) hsender.1 ?_, ?_, congrArg _ hrow⟩
    · simp [hsender.2.2, hrecipient]
    · intro heq
      have hlen := congrArg (fun k : Key => k.sender.length) heq
      simp [hab] at hlen
  by_cases hr : ' ' ∈ k.recipient
  · obtain ⟨a, b, hab, hrow⟩ := Key.exists_of_blank_recipient hr
    rw [hab, List.mem_append, List.mem_cons, not_or, not_or] at hrecipient
    refine ⟨_, _, h.withAddresses (k.sender ++ ' ' :: a) b ?_ hrecipient.2.2, ?_, congrArg _ hrow⟩
    · simp [hrecipient.1, hsender]
    · intro heq
      have hlen := congrArg (fun k : Key => k.sender.length) heq
      simp at hlen
  · have hlong : msgsz - 1 ≤ k.row.length := by
      by_contra hshort
      exact hplain ⟨hs, hr, by omega⟩
    refine ⟨_, _, h.withAddresses k.sender (k.recipient ++ ['x']) hsender ?_, ?_, Key.take_row_append hlong ['x']⟩
    · simp [hrecipient]
    · intro heq
      have hlen := congrArg (fun k : Key => k.recipient.length) heq
      simp at hlen

/-- With `grey_tuple = user`, the string hashed for a request is hashed for no request with
another masked address, sender or recipient exactly if there is no blank in its sender and
its recipient and its row is shorter than the buffer takes. -/
theorem hashed_apart_iff (huser : conf.greyTuple = .user) (h : StandsFor inet e conf request k) :
    (∀ request' k', StandsFor inet e conf request' k' → k' ≠ k →
        maskedtuple inet e conf request' ≠ maskedtuple inet e conf request) ↔
      ' ' ∉ k.sender ∧ ' ' ∉ k.recipient ∧ k.row.length < msgsz - 1 := by
  rw [← Key.plain_iff]
  constructor
  · intro hapart
    by_contra hplain
    obtain ⟨request', k', h', hne, hsame⟩ := h.exists_same hplain
    apply hapart request' k' h' hne
    rw [h'.maskedtuple huser, h.maskedtuple huser, hsame]
  · intro hplain request' k' h' hne heq
    rw [h'.maskedtuple huser, h.maskedtuple huser] at heq
    obtain ⟨addr, -, hmask⟩ := h.masked
    obtain ⟨addr', -, hmask'⟩ := h'.masked
    apply hne
    apply hplain.eq_of_take_eq (blank_notMem_greyMask hmask) (blank_notMem_greyMask hmask')
    injection heq with heq
    injection heq

end

/-- Nets of 256 addresses, of 64 bits for the other kind. -/
def netConfig : MaskConfig := ⟨24, 64, .user⟩

/-- A request from 192.0.2.1. -/
def requestOf (sender recipient : String) : GreyTuple where
  sender := some sender.toList
  recipient := some recipient.toList
  clientAddress := some "192.0.2.1".toList
  heloName := none

theorem greyMask_dotted : greyMask dotted .little netConfig "192.0.2.1".toList = some "192.0.2.0".toList := by decide

/-- What it stands for. -/
theorem requestOf_standsFor (sender recipient : String) (hsender : '\x00' ∉ sender.toList)
    (hrecipient : '\x00' ∉ recipient.toList) :
    StandsFor dotted .little netConfig (requestOf sender recipient)
      ⟨"192.0.2.0".toList, sender.toList, recipient.toList⟩ where
  strings := by
    rintro s (hs | hs | hs) <;> cases hs
    · exact hsender
    · exact hrecipient
    · decide
  accepted := rfl
  sender := rfl
  recipient := rfl
  masked := ⟨_, rfl, greyMask_dotted⟩

/-- No other mail is taken for mail from `a@b` to `c@d`. -/
theorem hashed_apart_plain :
    ¬ ∃ request' k', StandsFor dotted .little netConfig request' k' ∧
      k' ≠ ⟨"192.0.2.0".toList, "a@b".toList, "c@d".toList⟩ ∧
      maskedtuple dotted .little netConfig request' = maskedtuple dotted .little netConfig (requestOf "a@b" "c@d") := by
  rintro ⟨request', k', h', hne, hsame⟩
  have hstands := requestOf_standsFor "a@b" "c@d" (by decide) (by decide)
  exact (hashed_apart_iff rfl hstands).mpr (by decide) request' k' h' hne hsame

/-- Mail from `a b` to `c` is taken for mail from `a` to `b c`. -/
theorem hashed_same :
    StandsFor dotted .little netConfig (requestOf "a b" "c") ⟨"192.0.2.0".toList, "a b".toList, "c".toList⟩ ∧
      StandsFor dotted .little netConfig (requestOf "a" "b c") ⟨"192.0.2.0".toList, "a".toList, "b c".toList⟩ ∧
      "a b".toList ≠ "a".toList ∧
      maskedtuple dotted .little netConfig (requestOf "a b" "c") = .ok (some "192.0.2.0 a b c".toList) ∧
      maskedtuple dotted .little netConfig (requestOf "a" "b c") = .ok (some "192.0.2.0 a b c".toList) := by
  have hfirst := requestOf_standsFor "a b" "c" (by decide) (by decide)
  have hsecond := requestOf_standsFor "a" "b c" (by decide) (by decide)
  refine ⟨hfirst, hsecond, by decide, ?_, ?_⟩
  · rw [hfirst.maskedtuple rfl]
    rfl
  · rw [hsecond.maskedtuple rfl]
    rfl

end Gross.Worker
