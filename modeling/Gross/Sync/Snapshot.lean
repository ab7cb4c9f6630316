import Gross.Sync.Startup

/-!
# What a startup synchronisation tells the peer

While a node sends its filters, its other threads go on: request threads put
updates on the inner queue, and so does the thread that receives from the peer;
the delay thread passes messages from the inner queue to the outer one; and
`bloommgr` takes them from there and changes the ring. `synchronize` stops the
queues (`queue_freeze`), sends the filters, goes through the queue for updates
that are not in the filters yet (`walk_queue`), and lets the queues go on
(`queue_thaw`).

## The model

`Snap` is the state of all these threads. A digest that has been put can be in
five places: the inner queue, the hand of the delay thread, the outer queue, the
hand of `bloommgr`, or the ring. `queue_freeze` takes the two locks one after
the other; a thread that needs a lock that is held does not move. `bloommgr` is
not stopped in what it does with a message it has taken, so the ring can change
between any two words that `send_filters` reads. What `queue_freeze` found in
the five places when it returned is kept with the stage, for the statements.

## What is proved

`snapshot_communicated` — in every interleaving, every `UPDATE` that was put
before `queue_freeze` returned is communicated, by the filters or by an
`OPER_SYNC`, if it was in the inner queue or in the ring then, and not rotated
out of the ring since. `snapshot_lost` shows what need not be communicated: digests
that came from the peer, which `send_update_msg_as_oper_sync` leaves out; updates in
the outer queue, for which `walk_queue` goes through the inner one once more; and
updates in the hand of the delay thread or of `bloommgr`, where nobody looks.

## Honest scope

What `bloommgr` does with a message is one step, and so is `walk_queue`, which
runs while the queues are stopped. Messages are what they say; their bytes are
the subject of `Gross.Sync.Receive`.
-/

namespace Gross.Sync

open Foundation Foundation.Window Bloom

/-! ### The threads of the sender -/

/-- A message of the update queue. -/
inductive Msg where
  /-- `UPDATE`, from a request thread. -/
  | update (d : Digest)
  /-- `UPDATE_OPER`, from the peer. -/
  | updateOper (d : Digest)
  /-- `ROTATE`, with the clock values it will meet. -/
  | rotate (clock : Clock)
  deriving DecidableEq, Repr

/-- What the message tells `bloommgr`. -/
def Msg.command : Msg → Command
  | .update d => .update d
  | .updateOper d => .updateOper d
  | .rotate clock => .rotate clock

theorem Msg.isLocal_command (m : Msg) : m.command.isLocal = true := by cases m <;> rfl

/-- The places a message goes through. -/
structure Places where
  /-- The inner queue. -/
  inq : List Msg
  /-- The message the delay thread has taken and not passed on. -/
  hand : Option Msg
  /-- The outer queue. -/
  outq : List Msg
  /-- The message `bloommgr` has taken and not carried out. -/
  taken : Option Msg
  /-- What has been done to the ring. -/
  events : List (Event Digest)
  /-- All messages that were put on the inner queue. -/
  puts : List Msg
  deriving DecidableEq

/-- How far `synchronize` is. From the moment `queue_freeze` returns, with what it
found. -/
inductive Stage where
  /-- Before `queue_freeze`. -/
  | idle
  /-- `queue_freeze` has locked the inner queue. -/
  | freezing
  /-- `queue_freeze` has returned. -/
  | frozen (found : Places)
  /-- In `send_filters`, at word `j` of member `i`. -/
  | sending (found : Places) (size : Word) (i j : ℕ) (st : Sending)
  /-- `send_filters` has returned. -/
  | filtersSent (found : Places) (chunks : List StartupSync)
  /-- `walk_queue` has returned. -/
  | walked (found : Places) (chunks : List StartupSync) (opers : List Digest)
  /-- `queue_thaw` has released the inner queue. -/
  | thawing (found : Places) (chunks : List StartupSync) (opers : List Digest)
  /-- `queue_thaw` has returned. -/
  | done (found : Places) (chunks : List StartupSync) (opers : List Digest)
  deriving DecidableEq

/-- `synchronize` holds the lock of the inner queue. -/
def Stage.inqLocked : Stage → Bool
  | .freezing | .frozen _ | .sending .. | .filtersSent .. | .walked .. => true
  | .idle | .thawing .. | .done .. => false

/-- `synchronize` holds the lock of the outer queue. -/
def Stage.outqLocked : Stage → Bool
  | .frozen _ | .sending .. | .filtersSent .. | .walked .. | .thawing .. => true
  | .idle | .freezing | .done .. => false

/-- What `queue_freeze` found, the chunks sent and the digests sent as `OPER_SYNC`,
once `walk_queue` has returned. -/
def Stage.result : Stage → Option (Places × List StartupSync × List Digest)
  | .walked found chunks opers | .thawing found chunks opers | .done found chunks opers =>
    some (found, chunks, opers)
  | _ => none

/-- The threads of the sender. -/
structure Snap where
  /-- Where the messages are. -/
  places : Places
  /-- The state of `bloommgr`. -/
  ctx : Ctx
  /-- How far `synchronize` is. -/
  stage : Stage
  deriving DecidableEq

/-- A move of one of the threads. -/
inductive Move where
  /-- A request thread calls `put_msg`. -/
  | putUpdate (d : Digest)
  /-- The receiver calls `put_msg`. -/
  | putUpdateOper (d : Digest)
  /-- The main thread calls `instant_msg`. -/
  | instantRotate (clock : Clock)
  /-- The delay thread takes a message. -/
  | take
  /-- The delay thread passes it on. -/
  | pass
  /-- `bloommgr` takes a message. -/
  | get
  /-- `bloommgr` carries it out. -/
  | perform
  /-- `synchronize` goes on. -/
  | sync
  deriving DecidableEq, Repr

/-- `put_msg`, on the inner queue. -/
def Snap.put (s : Snap) (m : Msg) : Snap :=
  if s.stage.inqLocked then s
  else { s with places := { s.places with inq := s.places.inq ++ [m], puts := s.places.puts ++ [m] } }

/-- `send_update_msg_as_oper_sync`: the digest it sends, if any. -/
def sendUpdateMsgAsOperSync : Msg → Option Digest
  | .update d => some d
  | _ => none

/-- `walk_queue` with `send_update_msg_as_oper_sync`: the digests sent. When the outer
queue is not empty, it is the inner queue that is gone through again. -/
def walkQueue (inq outq : List Msg) : List Digest :=
  inq.filterMap sendUpdateMsgAsOperSync ++ if outq = [] then [] else inq.filterMap sendUpdateMsgAsOperSync

/-- A move of `synchronize`. -/
def Snap.sync (s : Snap) : Except Fault Stage :=
  match s.stage with
  | .idle => .ok .freezing
  | .freezing => .ok (.frozen s.places)
  | .frozen found => do return .sending found (← sendSize s.ctx.filter) 0 0 Sending.start
  | .sending found size i j st =>
    if i < s.ctx.filter.group.groupSize then do
      let f ← load s.ctx.filter.group.filterGroup i
      if j < f.size.toNat then
        let w ← readWord s.ctx.filter i j
        let st ← st.word size i j w
        return .sending found size i (j + 1) st
      else return .sending found size (i + 1) 0 st
    else .ok (.filtersSent found st.sent)
  | .filtersSent found chunks => .ok (.walked found chunks (walkQueue s.places.inq s.places.outq))
  | .walked found chunks opers => .ok (.thawing found chunks opers)
  | .thawing found chunks opers => .ok (.done found chunks opers)
  | .done found chunks opers => .ok (.done found chunks opers)

/-- A move. One that has to wait changes nothing. -/
def Snap.act (s : Snap) : Move → Except Fault Snap
  | .putUpdate d => .ok (s.put (.update d))
  | .putUpdateOper d => .ok (s.put (.updateOper d))
  | .instantRotate clock =>
    if s.stage.outqLocked then .ok s
    else .ok { s with places := { s.places with outq := s.places.outq ++ [.rotate clock] } }
  | .take =>
    match s.stage.inqLocked, s.places.hand, s.places.inq with
    | false, none, m :: inq => .ok { s with places := { s.places with hand := some m, inq := inq } }
    | _, _, _ => .ok s
  | .pass =>
    match s.stage.outqLocked, s.places.hand with
    | false, some m => .ok { s with places := { s.places with hand := none, outq := s.places.outq ++ [m] } }
    | _, _ => .ok s
  | .get =>
    match s.stage.outqLocked, s.places.taken, s.places.outq with
    | false, none, m :: outq => .ok { s with places := { s.places with taken := some m, outq := outq } }
    | _, _, _ => .ok s
  | .perform =>
    match s.places.taken with
    | some m => do
      let ctx ← s.ctx.execute m.command
      return { s with
        ctx := ctx, places := { s.places with taken := none, events := s.places.events ++ s.ctx.events m.command } }
    | none => .ok s
  | .sync => do return { s with stage := ← s.sync }

/-- A run of the threads. -/
def Snap.run (s : Snap) (moves : List Move) : Except Fault Snap := moves.foldlM Snap.act s

/-- Before anything is put. -/
def Snap.start (ctx : Ctx) : Snap := ⟨⟨[], none, [], none, [], []⟩, ctx, .idle⟩

/-- A digest is communicated: it was sent as an `OPER_SYNC`, or its bits were in the
chunks of one member. -/
def Communicated (nb : ℕ) (chunks : List StartupSync) (opers : List Digest) (d : Digest) : Prop :=
  d ∈ opers ∨ ∃ s, ∀ n ∈ maskedIndices (bitMask nb) d, ∃ ss ∈ chunks, ss.buffer.toNat = s ∧ n ∈ ss.bits nb

/-! ### Digests that stay in the ring -/

/-- The digest inserted after `pre` was there when the history was `before`, and has
not expired in the history `now`. -/
def Live (num : ℕ) (before now pre : List (Event Digest)) (d : Digest) : Prop :=
  pre ++ [.insert d] <+: before ∧ ∃ post, now = pre ++ .insert d :: post ∧ .clear ∉ post ∧ rotations post < num

theorem Live.of_prefix {num : ℕ} {before now now' pre : List (Event Digest)} {d : Digest}
    (h : Live num before now' pre d) (hb : before <+: now) (hnow : now <+: now') : Live num before now pre d := by
  obtain ⟨hpre, post', hpost', hclear, hrot⟩ := h
  obtain ⟨post, hpost⟩ := hpre.trans hb
  obtain ⟨more, hmore⟩ := hnow
  have heq : post' = post ++ more := by
    rw [hpost', ← hpost] at hmore
    simpa using hmore.symm
  subst heq
  refine ⟨hpre, post, by rw [← hpost]; simp, fun h => hclear (List.mem_append_left _ h), ?_⟩
  rw [rotations_append] at hrot
  omega

variable {num nb : ℕ}

/-- What a ring keeps, it keeps over events that do not expire it, in its member. -/
theorem keeps_run {r : Ring num nb} {d : Digest} {k : ℕ} (h : r.Keeps d k) {es : List (Event Digest)}
    (hclear : .clear ∉ es) (hrot : k + rotations es < num) :
    (r.run es).Keeps d (k + rotations es) ∧ slot num (r.run es).cur (k + rotations es) = slot num r.cur k := by
  induction es generalizing r k with
  | nil => exact ⟨h, rfl⟩
  | cons e es ih =>
    have hes : .clear ∉ es := fun h => hclear (List.mem_cons_of_mem _ h)
    have hcons : rotations (e :: es) = rotations [e] + rotations es := rotations_append [e] es
    rw [hcons] at hrot ⊢
    cases e with
    | clear => exact absurd (List.mem_cons_self ..) hclear
    | insert d' =>
      rw [rotations_insert, Nat.zero_add] at hrot ⊢
      obtain ⟨hkeeps, hslot⟩ := ih (h.insertDigest d') hes hrot
      refine ⟨hkeeps, hslot.trans ?_⟩
      rw [(r.insertDigest_spec d').1]
    | rotate =>
      rw [rotations_rotate, ← Nat.add_assoc] at hrot ⊢
      have hk : k + 1 < num := by omega
      obtain ⟨hkeeps, hslot⟩ := ih (h.rotate hk) hes hrot
      refine ⟨hkeeps, hslot.trans ?_⟩
      rw [r.rotate_spec.1, slot_next_succ r.cur_lt hk]

/-- A live digest is in the member that was current when it was inserted. -/
theorem Live.subset_member {before now pre : List (Event Digest)} {d : Digest} (h : Live num before now pre d)
    (r : Ring num nb) : indexSet (bitMask nb) d ⊆ (r.run now).member (r.run pre).cur := by
  obtain ⟨-, post, rfl, hclear, hrot⟩ := h
  have hrun : r.run (pre ++ .insert d :: post) = (((r.run pre).insertDigest d).run post) := by
    rw [Ring.run, List.foldl_append]
    rfl
  obtain ⟨hkeeps, hslot⟩ := keeps_run ((r.run pre).keeps_insertDigest d) hclear (by rwa [Nat.zero_add])
  rw [((r.run pre).insertDigest_spec d).1, slot_zero (r.run pre).cur_lt] at hslot
  have := hkeeps.member
  rw [hslot] at this
  rwa [hrun]

/-! ### The account of the five places -/

/-- Every update that was put is in one of the five places. -/
def Places.Conserves (p : Places) : Prop :=
  ∀ d, .update d ∈ p.puts → .update d ∈ p.inq ∨ p.hand = some (.update d) ∨ .update d ∈ p.outq ∨
    p.taken = some (.update d) ∨ .insert d ∈ p.events

/-- What is known of the filters sent of digests that `queue_freeze` found in the ring
and that are still live. -/
def Sent (r : Ring num nb) (found now : List (Event Digest)) (P : ℕ → Set ℕ → Prop) : Prop :=
  ∀ pre d, Live num found now pre d → P (r.run pre).cur (indexSet (bitMask nb) d)

/-- The bits are in the chunks of member `s`. -/
def InChunks (nb : ℕ) (chunks : List StartupSync) (s : ℕ) (N : Set ℕ) : Prop :=
  ∀ n ∈ N, ∃ ss ∈ chunks, ss.buffer.toNat = s ∧ n ∈ ss.bits nb

/-- The bits are in the chunks sent before member `i`, or in the words `ws` read of it. -/
def InWords (nb : ℕ) (before : List StartupSync) (i : ℕ) (ws : List Word) (s : ℕ) (N : Set ℕ) : Prop :=
  (s < i → InChunks nb before s N) ∧ (s = i → ∀ n ∈ N, n / 32 < ws.length → n ∈ bits ws)

/-- What `queue_freeze` found, seen from later. -/
structure Since (found p : Places) : Prop where
  /-- All updates were accounted for. -/
  conserves : found.Conserves
  /-- More may have been done to the ring. -/
  events : found.events <+: p.events

/-- What holds in each stage, when the messages are where `p` says. -/
def StageInv (r : Ring num nb) (p : Places) : Stage → Prop
  | .idle | .freezing => True
  | .frozen found => Since found p ∧ found.inq = p.inq
  | .sending found size i j st => Since found p ∧ found.inq = p.inq ∧ size.toNat = chunkLen nb ∧ i ≤ num ∧
    ∃ before ws, AtWord (chunkLen nb) i before ws st ∧ ws.length = j ∧ j ≤ 2 ^ (nb - 5) ∧
      Sent r found.events p.events (InWords nb before i ws)
  | .filtersSent found chunks => Since found p ∧ found.inq = p.inq ∧
    Sent r found.events p.events (InChunks nb chunks)
  | .walked found chunks opers | .thawing found chunks opers | .done found chunks opers =>
    Since found p ∧ (∀ d, .update d ∈ found.inq → d ∈ opers) ∧ Sent r found.events p.events (InChunks nb chunks)

/-- The invariant of all threads. -/
structure SnapInv (r : Ring num nb) (s : Snap) : Prop where
  /-- The ring has gone through the events. -/
  filter : s.ctx.filter = (r.run s.places.events).brq
  /-- All updates are accounted for. -/
  conserves : s.places.Conserves
  /-- What `synchronize` has done. -/
  stage : StageInv r s.places s.stage

theorem Sent.mono {r : Ring num nb} {found now now' : List (Event Digest)} {P : ℕ → Set ℕ → Prop}
    (h : Sent r found now P) (hf : found <+: now) (hnow : now <+: now') : Sent r found now' P :=
  fun pre d hlive => h pre d (hlive.of_prefix hf hnow)

/-- The stage does not mind what other threads do, as long as they respect the lock of
the inner queue. -/
theorem StageInv.mono {r : Ring num nb} {p p' : Places} {st : Stage} (h : StageInv r p st)
    (hinq : st.inqLocked = true → p'.inq = p.inq) (hev : p.events <+: p'.events) : StageInv r p' st := by
  have hsince : ∀ {found}, Since found p → Since found p' := fun h => ⟨h.conserves, h.events.trans hev⟩
  cases st with
  | idle => trivial
  | freezing => trivial
  | frozen found => exact ⟨hsince h.1, h.2.trans (hinq rfl).symm⟩
  | sending found size i j st =>
    obtain ⟨hs, hi, hsize, hnum, before, ws, hat, hlen, hle, hsent⟩ := h
    exact ⟨hsince hs, hi.trans (hinq rfl).symm, hsize, hnum, before, ws, hat, hlen, hle, hsent.mono hs.events hev⟩
  | filtersSent found chunks =>
    obtain ⟨hs, hi, hsent⟩ := h
    exact ⟨hsince hs, hi.trans (hinq rfl).symm, hsent.mono hs.events hev⟩
  | walked found chunks opers =>
    obtain ⟨hs, hop, hsent⟩ := h
    exact ⟨hsince hs, hop, hsent.mono hs.events hev⟩
  | thawing found chunks opers =>
    obtain ⟨hs, hop, hsent⟩ := h
    exact ⟨hsince hs, hop, hsent.mono hs.events hev⟩
  | done found chunks opers =>
    obtain ⟨hs, hop, hsent⟩ := h
    exact ⟨hsince hs, hop, hsent.mono hs.events hev⟩

/-! ### The moves of the other threads -/

variable {r : Ring num nb} {s : Snap}

theorem SnapInv.put (h : SnapInv r s) (m : Msg) : SnapInv r (s.put m) := by
  unfold Snap.put
  split_ifs with hlock
  · exact h
  · refine ⟨h.filter, fun d hd => ?_, h.stage.mono (fun hl => absurd hl hlock) List.prefix_rfl⟩
    rcases List.mem_append.mp hd with hd | hd
    · exact (h.conserves d hd).imp_left (List.mem_append_left _)
    · exact .inl (List.mem_append_right _ hd)

theorem SnapInv.instantRotate (h : SnapInv r s) (clock : Clock) :
    ∃ s', s.act (.instantRotate clock) = .ok s' ∧ SnapInv r s' := by
  unfold Snap.act
  cases hlock : s.stage.outqLocked with
  | true => exact ⟨s, rfl, h⟩
  | false =>
    refine ⟨_, rfl, h.filter, fun d hd => ?_, h.stage.mono (fun _ => rfl) List.prefix_rfl⟩
    rcases h.conserves d hd with h | h | h | h
    · exact .inl h
    · exact .inr (.inl h)
    · exact .inr (.inr (.inl (List.mem_append_left _ h)))
    · exact .inr (.inr (.inr h))

theorem SnapInv.take (h : SnapInv r s) : ∃ s', s.act .take = .ok s' ∧ SnapInv r s' := by
  unfold Snap.act
  cases hlock : s.stage.inqLocked with
  | true => exact ⟨s, rfl, h⟩
  | false =>
    cases hhand : s.places.hand with
    | some m => exact ⟨s, rfl, h⟩
    | none =>
      cases hinq : s.places.inq with
      | nil => exact ⟨s, rfl, h⟩
      | cons m inq =>
        refine ⟨_, rfl, h.filter, fun d hd => ?_,
          h.stage.mono (fun hl => absurd (hlock.symm.trans hl) (by decide)) List.prefix_rfl⟩
        rcases h.conserves d hd with h | h | h
        · rw [hinq] at h
          rcases List.mem_cons.mp h with rfl | h
          · exact .inr (.inl rfl)
          · exact .inl h
        · rw [hhand] at h
          cases h
        · exact .inr (.inr h)

theorem SnapInv.pass (h : SnapInv r s) : ∃ s', s.act .pass = .ok s' ∧ SnapInv r s' := by
  unfold Snap.act
  cases hlock : s.stage.outqLocked with
  | true => exact ⟨s, rfl, h⟩
  | false =>
    cases hhand : s.places.hand with
    | none => exact ⟨s, rfl, h⟩
    | some m =>
      refine ⟨_, rfl, h.filter, fun d hd => ?_, h.stage.mono (fun _ => rfl) List.prefix_rfl⟩
      rcases h.conserves d hd with h | h | h | h
      · exact .inl h
      · rw [hhand] at h
        cases h
        exact .inr (.inr (.inl (List.mem_append_right _ (List.mem_singleton_self _))))
      · exact .inr (.inr (.inl (List.mem_append_left _ h)))
      · exact .inr (.inr (.inr h))

theorem SnapInv.get (h : SnapInv r s) : ∃ s', s.act .get = .ok s' ∧ SnapInv r s' := by
  unfold Snap.act
  cases hlock : s.stage.outqLocked with
  | true => exact ⟨s, rfl, h⟩
  | false =>
    cases htaken : s.places.taken with
    | some m => exact ⟨s, rfl, h⟩
    | none =>
      cases hout : s.places.outq with
      | nil => exact ⟨s, rfl, h⟩
      | cons m outq =>
        refine ⟨_, rfl, h.filter, fun d hd => ?_, h.stage.mono (fun _ => rfl) List.prefix_rfl⟩
        rcases h.conserves d hd with h | h | h | h | h
        · exact .inl h
        · exact .inr (.inl h)
        · rw [hout] at h
          rcases List.mem_cons.mp h with rfl | h
          · exact .inr (.inr (.inr (.inl rfl)))
          · exact .inr (.inr (.inl h))
        · rw [htaken] at h
          cases h
        · exact .inr (.inr (.inr (.inr h)))

/-- What `bloommgr` does with a message it has taken. -/
theorem SnapInv.perform (h : SnapInv r s) : ∃ s', s.act .perform = .ok s' ∧ SnapInv r s' := by
  unfold Snap.act
  cases htaken : s.places.taken with
  | none => exact ⟨s, rfl, h⟩
  | some m =>
    have hexec := s.ctx.execute_local _ h.filter m.isLocal_command
    refine ⟨{ s with
      ctx := { s.ctx with
        filter := ((r.run s.places.events).run (s.ctx.events m.command)).brq,
        lastRotate := s.ctx.nextLastRotate m.command }
      places := { s.places with taken := none, events := s.places.events ++ s.ctx.events m.command } },
      by simp only [hexec]; rfl, ?_, fun d hd => ?_, h.stage.mono (fun _ => rfl) (List.prefix_append _ _)⟩
    · simp only [Ring.run, List.foldl_append]
    · rcases h.conserves d hd with h | h | h | h | h
      · exact .inl h
      · exact .inr (.inl h)
      · exact .inr (.inr (.inl h))
      · rw [htaken] at h
        cases h
        exact .inr (.inr (.inr (.inr (List.mem_append_right _ (List.mem_singleton_self _)))))
      · exact .inr (.inr (.inr (.inr (List.mem_append_left _ h))))

/-! ### The moves of `synchronize` -/

/-- A bit of the words read so far stays one when a word is added. -/
theorem mem_bits_append_left {ws : List Word} {n : ℕ} (w : Word) (h : n ∈ bits ws) : n ∈ bits (ws ++ [w]) := by
  have hlt := lt_of_mem_bits h
  rw [mem_bits, testBit] at h ⊢
  rwa [List.getElem?_append_left (by omega)]

/-- Reading a word of a member that holds the bits. -/
theorem InWords.snoc {before : List StartupSync} {i : ℕ} {ws : List Word} {t : ℕ} {N : Set ℕ}
    (h : InWords nb before i ws t N) {a : List Word} (ha : t = i → N ⊆ bits a) {w : Word} (hw : a[ws.length]? = some w) :
    InWords nb before i (ws ++ [w]) t N := by
  refine ⟨h.1, fun hti n hn hlt => ?_⟩
  rw [List.length_append, List.length_singleton] at hlt
  by_cases hold : n / 32 < ws.length
  · exact mem_bits_append_left w (h.2 hti n hn hold)
  · have hbit := ha hti hn
    have hword : n / 32 = ws.length := by omega
    rw [mem_bits, testBit, hword] at hbit ⊢
    rw [hw] at hbit
    simpa using hbit

/-- When all words of member `i` have been read, its bits have been sent. -/
theorem InWords.next {before : List StartupSync} {i : ℕ} {ws : List Word} {t : ℕ} {N : Set ℕ}
    (h : InWords nb before i ws t N) (hlen : ws.length = 2 ^ (nb - 5)) (hnb : nb ≤ 31) (hi : i < num)
    (hmax : num ≤ 2 ^ 32) (hN : t = i → ∀ n ∈ N, n / 32 < ws.length) :
    InWords nb (before ++ memberChunks (chunkLen nb) i ws) (i + 1) [] t N := by
  refine ⟨fun hti n hn => ?_, fun _ n _ hlt => absurd hlt (Nat.not_lt_zero _)⟩
  rcases Nat.lt_succ_iff_lt_or_eq.mp hti with hti | rfl
  · obtain ⟨ss, hss, hbit⟩ := h.1 hti n hn
    exact ⟨ss, List.mem_append_left _ hss, hbit⟩
  · obtain ⟨ss, hss, hbit⟩ := (mem_bits_memberChunks hlen hnb t n).mpr (h.2 rfl n hn (hN rfl n hn))
    exact ⟨ss, List.mem_append_right _ hss, (fits_of_mem_memberChunks hlen (by omega) hi hmax hss).2, hbit⟩

/-- The update messages in the inner queue are sent. -/
theorem mem_walkQueue {inq outq : List Msg} {d : Digest} (h : .update d ∈ inq) : d ∈ walkQueue inq outq :=
  List.mem_append_left _ (List.mem_filterMap.mpr ⟨_, h, rfl⟩)

/-- A turn of the loops of `send_filters`. -/
theorem SnapInv.sending (h : SnapInv r s) (hmax : num ≤ 2 ^ 32) {found : Places} {size : Word} {i j : ℕ} {st : Sending}
    (hst : s.stage = .sending found size i j st) : ∃ stage, s.sync = .ok stage ∧ StageInv r s.places stage := by
  have hstage := h.stage
  rw [hst] at hstage
  obtain ⟨hsince, hinq, hsize, hi, before, ws, hat, rfl, hj, hsent⟩ := hstage
  have hwf : s.ctx.filter.WF num nb := h.filter ▸ (r.run s.places.events).wf
  simp only [Snap.sync, hst, hwf.groupSize]
  by_cases hlt : i < num
  · rw [if_pos hlt]
    obtain ⟨f, hget⟩ : ∃ f, s.ctx.filter.group.filterGroup[i]? = some f :=
      ⟨_, List.getElem?_eq_getElem (hwf.length.symm ▸ hlt)⟩
    have hf := hwf.getElem?_wf hget
    have hmember : (r.run s.places.events).member i = bits f.filter := by
      rw [Ring.member, ← h.filter, memberBits_of_getElem? hget]
    have hpow : 2 ^ (nb - 5) ≤ 2 ^ 31 := Nat.pow_le_pow_right (by decide) (by have := hf.hi; omega)
    simp only [load_of_getElem? hget, ok_bind, hf.size]
    by_cases hjlt : ws.length < 2 ^ (nb - 5)
    · rw [if_pos hjlt]
      have hword : ws.length < f.filter.length := hf.length.symm ▸ hjlt
      obtain ⟨st', hst', hat'⟩ := hat.word f.filter[ws.length] hsize (chunkLen_pos nb) (chunkLen_le nb) (by omega)
        ((chunkLen_cases nb).imp_right fun hc => by omega)
      refine ⟨.sending found size i (ws.length + 1) st',
        by simp only [readWord, load_of_getElem? hget, load_lt hword, ok_bind, hst']; rfl,
        hsince, hinq, hsize, hi, before, _, hat', by simp, hjlt, fun pre d hlive => ?_⟩
      refine (hsent pre d hlive).snoc (fun hti => ?_) (List.getElem?_eq_getElem hword)
      rw [← hmember, ← hti]
      exact hlive.subset_member r
    · rw [if_neg hjlt]
      have hlen : ws.length = 2 ^ (nb - 5) := by omega
      refine ⟨_, rfl, hsince, hinq, hsize, hlt, st.sent, [], atWord_nil _ _ st, rfl, Nat.zero_le _, fun pre d hlive => ?_⟩
      rw [hat.sent]
      refine (hsent pre d hlive).next hlen hf.hi hlt hmax fun hti n hn => ?_
      have hbit := hlive.subset_member r hn
      rw [hti, hmember] at hbit
      have := lt_of_mem_bits hbit
      rw [hf.length] at this
      omega
  · rw [if_neg hlt]
    refine ⟨_, rfl, hsince, hinq, fun pre d hlive n hn => ?_⟩
    obtain ⟨ss, hss, hbit⟩ := (hsent pre d hlive).1 (Nat.lt_of_lt_of_le (r.run pre).cur_lt (by omega)) n hn
    refine ⟨ss, ?_, hbit⟩
    rw [hat.sent]
    exact List.mem_append_left _ hss

theorem SnapInv.sync (h : SnapInv r s) (hmax : num ≤ 2 ^ 32) : ∃ s', s.act .sync = .ok s' ∧ SnapInv r s' := by
  have hwf : s.ctx.filter.WF num nb := h.filter ▸ (r.run s.places.events).wf
  suffices hstage : ∃ stage, s.sync = .ok stage ∧ StageInv r s.places stage by
    obtain ⟨stage, hsync, hinv⟩ := hstage
    exact ⟨{ s with stage := stage }, by simp only [Snap.act, hsync]; rfl, h.filter, h.conserves, hinv⟩
  have hstage := h.stage
  cases hst : s.stage with
  | sending found size i j st => exact h.sending hmax hst
  | idle => exact ⟨.freezing, by simp only [Snap.sync, hst], trivial⟩
  | freezing => exact ⟨.frozen s.places, by simp only [Snap.sync, hst], ⟨h.conserves, List.prefix_rfl⟩, rfl⟩
  | frozen found =>
    rw [hst] at hstage
    obtain ⟨size, hsize, hlen⟩ := sendSize_ok hwf.sized (by have := hwf.aggregate.hi; omega)
      ((Nat.zero_le _).trans_lt hwf.current)
    refine ⟨.sending found size 0 0 Sending.start, by simp only [Snap.sync, hst, hsize]; rfl, hstage.1, hstage.2, hlen,
      Nat.zero_le _, [], [], atWord_nil _ _ Sending.start, rfl, Nat.zero_le _, fun pre d _ => ?_⟩
    exact ⟨fun h => absurd h (Nat.not_lt_zero _), fun _ n _ h => absurd h (Nat.not_lt_zero _)⟩
  | filtersSent found chunks =>
    rw [hst] at hstage
    obtain ⟨hsince, hinq, hsent⟩ := hstage
    exact ⟨.walked found chunks (walkQueue s.places.inq s.places.outq), by simp only [Snap.sync, hst], hsince,
      fun d hd => mem_walkQueue (hinq ▸ hd), hsent⟩
  | walked found chunks opers =>
    rw [hst] at hstage
    exact ⟨.thawing found chunks opers, by simp only [Snap.sync, hst], hstage⟩
  | thawing found chunks opers =>
    rw [hst] at hstage
    exact ⟨.done found chunks opers, by simp only [Snap.sync, hst], hstage⟩
  | done found chunks opers =>
    rw [hst] at hstage
    exact ⟨.done found chunks opers, by simp only [Snap.sync, hst], hstage⟩

/-- Every move keeps the invariant. -/
theorem SnapInv.act (h : SnapInv r s) (hmax : num ≤ 2 ^ 32) (m : Move) : ∃ s', s.act m = .ok s' ∧ SnapInv r s' := by
  cases m with
  | putUpdate d => exact ⟨_, rfl, h.put _⟩
  | putUpdateOper d => exact ⟨_, rfl, h.put _⟩
  | instantRotate clock => exact h.instantRotate clock
  | take => exact h.take
  | pass => exact h.pass
  | get => exact h.get
  | perform => exact h.perform
  | sync => exact h.sync hmax

theorem snapInv_start (r : Ring num nb) {ctx : Ctx} (hctx : ctx.filter = r.brq) : SnapInv r (Snap.start ctx) :=
  ⟨hctx, fun _ hd => (by cases hd), trivial⟩

/-- **What is communicated**: in no run of the threads does anything fail; and when
`walk_queue` has returned, every update that was put before `queue_freeze` returned,
and was then neither in the hand of the delay thread, nor in the outer queue, nor in
the hand of `bloommgr`, has been communicated, unless it has expired: it had been
inserted, is not in the inner queue again, and no insertion of it is live. -/
theorem snapshot_communicated (num nb : ℕ) (hmax : num ≤ 2 ^ 32) (r : Ring num nb) (ctx : Ctx)
    (hctx : ctx.filter = r.brq) (moves : List Move) :
    ∃ s, (Snap.start ctx).run moves = .ok s ∧
      ∀ found chunks opers, s.stage.result = some (found, chunks, opers) →
        ∀ d, .update d ∈ found.puts → found.hand ≠ some (.update d) → .update d ∉ found.outq →
          found.taken ≠ some (.update d) →
          (.insert d ∈ found.events → .update d ∈ found.inq ∨ ∃ pre, Live num found.events s.places.events pre d) →
          Communicated nb chunks opers d := by
  obtain ⟨s, hrun, hinv⟩ := foldlM_inv Snap.act (SnapInv r) moves (fun s m _ h => h.act hmax m) (snapInv_start r hctx)
  refine ⟨s, hrun, fun found chunks opers hres d hput hhand hout htaken hexp => ?_⟩
  obtain ⟨hsince, hop, hsent⟩ : Since found s.places ∧ (∀ d, .update d ∈ found.inq → d ∈ opers) ∧
      Sent r found.events s.places.events (InChunks nb chunks) := by
    have hstage := hinv.stage
    cases hst : s.stage <;> rw [hst] at hres hstage <;> cases hres <;> exact hstage
  rcases hsince.conserves d hput with h | h | h | h | h
  · exact .inl (hop d h)
  · exact absurd h hhand
  · exact absurd h hout
  · exact absurd h htaken
  · rcases hexp h with h | ⟨pre, hlive⟩
    · exact .inl (hop d h)
    · exact .inr ⟨(r.run pre).cur, hsent pre d hlive⟩

/-- A digest inserted before the freeze, and one still in the inner queue: the first is
in the filters sent, the second is sent as an `OPER_SYNC`. -/
theorem snapshot_communicated_two :
    ∃ s found chunks opers,
      (Snap.start ⟨10, 2, oneWordRing [0, 0] 0 0, 100, 1⟩).run
        ([.putUpdate ⟨1, 2, 3, 4, 5, 6, 7, 8⟩, .take, .pass, .get, .perform, .putUpdate ⟨9, 10, 11, 12, 13, 14, 15, 16⟩] ++
          List.replicate 9 .sync) = .ok s ∧
      s.stage.result = some (found, chunks, opers) ∧
      Communicated 5 chunks opers ⟨1, 2, 3, 4, 5, 6, 7, 8⟩ ∧
      Communicated 5 chunks opers ⟨9, 10, 11, 12, 13, 14, 15, 16⟩ := by
  have hwf : (oneWordRing [0, 0] 0 0).WF 2 5 := wf_oneWordRing rfl (by decide)
  obtain ⟨s, hrun, hall⟩ := snapshot_communicated 2 5 (by decide) ⟨oneWordRing [0, 0] 0 0, hwf⟩
    ⟨10, 2, oneWordRing [0, 0] 0 0, 100, 1⟩ rfl
    ([.putUpdate ⟨1, 2, 3, 4, 5, 6, 7, 8⟩, .take, .pass, .get, .perform, .putUpdate ⟨9, 10, 11, 12, 13, 14, 15, 16⟩] ++
      List.replicate 9 .sync)
  let found : Places := ⟨[.update ⟨9, 10, 11, 12, 13, 14, 15, 16⟩], none, [], none, [.insert ⟨1, 2, 3, 4, 5, 6, 7, 8⟩],
    [.update ⟨1, 2, 3, 4, 5, 6, 7, 8⟩, .update ⟨9, 10, 11, 12, 13, 14, 15, 16⟩]⟩
  have hrun' : (Snap.start ⟨10, 2, oneWordRing [0, 0] 0 0, 100, 1⟩).run
      ([.putUpdate ⟨1, 2, 3, 4, 5, 6, 7, 8⟩, .take, .pass, .get, .perform, .putUpdate ⟨9, 10, 11, 12, 13, 14, 15, 16⟩] ++
        List.replicate 9 .sync) =
      .ok ⟨found, ⟨10, 2, oneWordRing [510, 0] 510 0, 100, 1⟩, .walked found
        [⟨0, 0, pad [510]⟩, ⟨1, 0, pad [0]⟩] [⟨9, 10, 11, 12, 13, 14, 15, 16⟩]⟩ := by decide
  have hs := hrun.symm.trans hrun'
  cases hs
  refine ⟨_, _, _, _, hrun', rfl, ?_, ?_⟩
  · exact hall _ _ _ rfl _ (by decide) (by decide) (by decide) (by decide)
      fun _ => .inr ⟨[], List.prefix_rfl, [], rfl, by decide, by decide⟩
  · exact hall _ _ _ rfl _ (by decide) (by decide) (by decide) (by decide) fun h => absurd h (by decide)

/-- Three updates and a digest from the peer, in the places that a digest can be in before the ring: `bloommgr` has
taken the first update, the second is in the outer queue, the delay thread has taken the third, and what came from
the peer is in the inner queue. The peer is told of none of them. -/
theorem snapshot_lost :
    ∃ s found chunks opers,
      (Snap.start ⟨10, 2, oneWordRing [0, 0] 0 0, 100, 1⟩).run
        ([.putUpdate ⟨1, 2, 3, 4, 5, 6, 7, 8⟩, .take, .pass, .get, .putUpdate ⟨2, 3, 4, 5, 6, 7, 8, 9⟩, .take, .pass,
          .putUpdate ⟨3, 4, 5, 6, 7, 8, 9, 10⟩, .take, .putUpdateOper ⟨9, 10, 11, 12, 13, 14, 15, 16⟩] ++
          List.replicate 11 .sync) = .ok s ∧
      s.stage = .done found chunks opers ∧ s.places.events = [] ∧
      found.puts = [.update ⟨1, 2, 3, 4, 5, 6, 7, 8⟩, .update ⟨2, 3, 4, 5, 6, 7, 8, 9⟩,
        .update ⟨3, 4, 5, 6, 7, 8, 9, 10⟩, .updateOper ⟨9, 10, 11, 12, 13, 14, 15, 16⟩] ∧
      found.taken = some (.update ⟨1, 2, 3, 4, 5, 6, 7, 8⟩) ∧ found.outq = [.update ⟨2, 3, 4, 5, 6, 7, 8, 9⟩] ∧
      found.hand = some (.update ⟨3, 4, 5, 6, 7, 8, 9, 10⟩) ∧ found.inq = [.updateOper ⟨9, 10, 11, 12, 13, 14, 15, 16⟩] ∧
      ∀ d, ¬ Communicated 5 chunks opers d := by
  let found : Places := ⟨[.updateOper ⟨9, 10, 11, 12, 13, 14, 15, 16⟩], some (.update ⟨3, 4, 5, 6, 7, 8, 9, 10⟩),
    [.update ⟨2, 3, 4, 5, 6, 7, 8, 9⟩], some (.update ⟨1, 2, 3, 4, 5, 6, 7, 8⟩), [],
    [.update ⟨1, 2, 3, 4, 5, 6, 7, 8⟩, .update ⟨2, 3, 4, 5, 6, 7, 8, 9⟩, .update ⟨3, 4, 5, 6, 7, 8, 9, 10⟩,
      .updateOper ⟨9, 10, 11, 12, 13, 14, 15, 16⟩]⟩
  have hnone : ∀ d : Digest, ¬ Communicated 5 [⟨0, 0, pad [0]⟩, ⟨1, 0, pad [0]⟩] [] d := by
    rintro d (hd | ⟨t, hd⟩)
    · cases hd
    · have hzero : (pad [0]).toList.take (chunkLen 5) = List.replicate 1 0 := by decide
      obtain ⟨ss, hss, -, k, hk, -⟩ := hd _ (List.mem_map.mpr ⟨d.h0, List.mem_cons_self .., rfl⟩)
      have hfilter : ss.filter = pad [0] := by
        rcases List.mem_cons.mp hss with rfl | hss
        · rfl
        · rw [List.mem_singleton.mp hss]
      rw [hfilter, hzero, bits_replicate_zero] at hk
      exact hk
  exact ⟨⟨found, ⟨10, 2, oneWordRing [0, 0] 0 0, 100, 1⟩, .done found [⟨0, 0, pad [0]⟩, ⟨1, 0, pad [0]⟩] []⟩, _, _, _,
    by decide, rfl, rfl, rfl, rfl, rfl, rfl, rfl, hnone⟩

end Gross.Sync
