import Mathlib.Data.List.Nodup
import Mathlib.Data.List.Perm.Subperm
import Mathlib.Data.List.Range
import Mathlib.Data.List.Count
import Gross.Foundation.Interleave

/-!
# Several senders and one queue

Several parties put messages on one queue, and one takes them from it in order. Each message is marked with
its sender. What a sender has sent arrives in the order in which it was sent, so that who has heard
the last message of a sender has heard all of them.

* `Mailbox` — what each sender has sent, what is on the queue, and what has been heard.
* `Mailbox.Ok` — nothing is lost, added or turned round; `Ok.send`, `Ok.take`: it stays so.
* `Ok.perm` — all that was sent is on the queue or has been heard.
* `Ok.all_heard` — if each sender ends with one final message, and as many of these have been heard as
  there are senders, then all senders have ended and everything has been heard.
-/

namespace Gross.Foundation

universe u

variable {α : Type u}

/-- What sender `k` has in a list of messages. -/
def fromSender (k : ℕ) (ms : List (ℕ × α)) : List α := (ms.filter (·.1 = k)).map Prod.snd

theorem fromSender_append (k : ℕ) (ms ms' : List (ℕ × α)) :
    fromSender k (ms ++ ms') = fromSender k ms ++ fromSender k ms' := by
  rw [fromSender, List.filter_append, List.map_append]
  rfl

theorem fromSender_self (k : ℕ) (l : List α) : fromSender k (l.map fun a => (k, a)) = l := by
  induction l with
  | nil => rfl
  | cons a l ih => simpa [fromSender] using ih

theorem fromSender_of_ne {j k : ℕ} (h : j ≠ k) (l : List α) : fromSender k (l.map fun a => (j, a)) = [] := by
  simp [fromSender, List.filter_map, Function.comp_def, h]

/-- All messages are those of the senders. -/
theorem perm_flatten_fromSender {n : ℕ} {ms : List (ℕ × α)} (h : ∀ m ∈ ms, m.1 < n) :
    (ms.map Prod.snd).Perm ((List.range n).map fun k => fromSender k ms).flatten := by
  induction ms with
  | nil => simp [fromSender]
  | cons m ms ih =>
    obtain ⟨hm, hms⟩ := List.forall_mem_cons.mp h
    have hget : ((List.range n).map fun k => fromSender k (m :: ms))[m.1]? = some (m.2 :: fromSender m.1 ms) := by
      simp [hm, fromSender]
    have hset : ((List.range n).map fun k => fromSender k (m :: ms)).set m.1 (fromSender m.1 ms) =
        (List.range n).map fun k => fromSender k ms := by
      refine List.ext_getElem (by simp) fun k hk _ => ?_
      rw [List.getElem_set]
      split_ifs with heq
      · simp [heq]
      · simp [fromSender, heq]
    have := flatten_set_perm hget
    rw [hset] at this
    exact ((ih hms).cons _).trans this

/-- What has been sent, and where it is. -/
structure Mailbox (α : Type u) where
  /-- What each sender has sent. -/
  sent : List (List α)
  /-- The queue. -/
  queue : List (ℕ × α)
  /-- What has been taken from it. -/
  heard : List (ℕ × α)

namespace Mailbox

/-- Sender `k` sends messages. -/
def send (b : Mailbox α) (k : ℕ) (l : List α) : Mailbox α :=
  { b with sent := b.sent.modify k (· ++ l), queue := b.queue ++ l.map fun a => (k, a) }

/-- The next message, and the rest. -/
def take (b : Mailbox α) : Option (α × Mailbox α) :=
  match b.queue with
  | [] => none
  | m :: queue => some (m.2, { b with queue := queue, heard := b.heard ++ [m] })

/-- Nothing is lost, added or turned round. -/
structure Ok (b : Mailbox α) : Prop where
  /-- What a sender has sent, in its order. -/
  order : ∀ k l, b.sent[k]? = some l → fromSender k (b.heard ++ b.queue) = l
  /-- There are no other senders. -/
  lt : ∀ m ∈ b.heard ++ b.queue, m.1 < b.sent.length

variable {b b' : Mailbox α} {k : ℕ}

theorem ok_empty (n : ℕ) : (⟨List.replicate n [], [], []⟩ : Mailbox α).Ok where
  order k l h := by
    rw [List.getElem?_replicate] at h
    split_ifs at h
    exact Option.some.inj h
  lt _ h := nomatch h

theorem Ok.send (h : b.Ok) (hk : k < b.sent.length) (l : List α) : (b.send k l).Ok where
  order j l' hl' := by
    rw [Mailbox.send] at hl' ⊢
    dsimp only at hl' ⊢
    rw [← List.append_assoc, fromSender_append]
    rw [List.getElem?_modify] at hl'
    by_cases hj : k = j
    · subst hj
      obtain ⟨old, hold, heq⟩ := Option.map_eq_some_iff.mp hl'
      rw [h.order k old hold, fromSender_self]
      simpa using heq
    · rw [fromSender_of_ne hj, List.append_nil]
      refine h.order j l' ?_
      simpa [hj] using hl'
  lt m hm := by
    rw [Mailbox.send] at hm ⊢
    dsimp only at hm ⊢
    rw [List.length_modify]
    rw [← List.append_assoc, List.mem_append] at hm
    rcases hm with hm | hm
    · exact h.lt m hm
    · obtain ⟨a, -, rfl⟩ := List.mem_map.mp hm
      exact hk

theorem take_eq_some {a : α} (ht : b.take = some (a, b')) :
    b'.sent = b.sent ∧ b'.heard ++ b'.queue = b.heard ++ b.queue ∧ ∃ j, b'.heard = b.heard ++ [(j, a)] := by
  unfold Mailbox.take at ht
  split at ht
  · cases ht
  · rename_i m queue hqueue
    cases ht
    exact ⟨rfl, by simp [hqueue], m.1, rfl⟩

theorem Ok.take (h : b.Ok) {a : α} (ht : b.take = some (a, b')) : b'.Ok := by
  obtain ⟨hsent, hall, -⟩ := take_eq_some ht
  constructor
  · rw [hsent, hall]
    exact h.order
  · rw [hsent, hall]
    exact h.lt

/-- All that was sent. -/
theorem Ok.perm (h : b.Ok) : ((b.heard ++ b.queue).map Prod.snd).Perm b.sent.flatten := by
  have hsent : (List.range b.sent.length).map (fun k => fromSender k (b.heard ++ b.queue)) = b.sent := by
    refine List.ext_getElem (by simp) fun k hk hk' => ?_
    rw [List.getElem_map, List.getElem_range]
    exact h.order k _ (List.getElem?_eq_getElem hk')
  have := perm_flatten_fromSender h.lt
  rwa [hsent] at this

/-- The final message is the last one, if there is one. -/
inductive Stream (final : α → Bool) : List α → Prop where
  /-- More is to come. -/
  | going {l : List α} (h : ∀ a ∈ l, final a = false) : Stream final l
  /-- The sender has ended. -/
  | closed {l : List α} {a : α} (h : ∀ a ∈ l, final a = false) (ha : final a = true) : Stream final (l ++ [a])

theorem countP_of_forall_false {final : α → Bool} {l : List α} (h : ∀ a ∈ l, final a = false) : l.countP final = 0 := by
  rw [List.countP_eq_zero]
  intro a ha
  rw [h a ha]
  decide

theorem Stream.countP_le_one {final : α → Bool} {l : List α} (h : Stream final l) : l.countP final ≤ 1 := by
  cases h with
  | going h =>
    rw [countP_of_forall_false h]
    exact Nat.zero_le 1
  | closed h ha => simp [countP_of_forall_false h, ha]

/-- Who has heard the final message has heard all. -/
theorem Stream.eq_nil_of_append {final : α → Bool} {heard rest : List α} (h : Stream final (heard ++ rest)) {a : α}
    (ha : a ∈ heard) (hfinal : final a = true) : rest = [] := by
  generalize hl : heard ++ rest = l at h
  cases h with
  | going h =>
    have := h a (hl ▸ List.mem_append_left _ ha)
    rw [hfinal] at this
    cases this
  | closed h hx =>
    rcases List.eq_nil_or_concat rest with rfl | ⟨rest, x, rfl⟩
    · rfl
    · -- the final message would be before the last one
      rw [List.concat_eq_append, ← List.append_assoc] at hl
      have hinit := (List.append_inj' hl rfl).1
      have := h a (hinit ▸ List.mem_append_left _ ha)
      rw [hfinal] at this
      cases this

/-- The senders whose final message has been heard. -/
def enders (final : α → Bool) (b : Mailbox α) : List ℕ := (b.heard.filter fun m => final m.2).map Prod.fst

theorem count_enders (final : α → Bool) (b : Mailbox α) (k : ℕ) :
    (b.enders final).count k = (fromSender k b.heard).countP final := by
  simp only [enders, fromSender, List.count_eq_countP, List.countP_map, List.countP_filter]
  exact List.countP_congr fun m _ => by simp [Function.comp, and_comm]

theorem Ok.lt_of_mem_enders (h : b.Ok) {final : α → Bool} (hk : k ∈ b.enders final) : k < b.sent.length := by
  obtain ⟨m, hm, rfl⟩ := List.mem_map.mp hk
  exact h.lt m (List.mem_append_left _ (List.mem_filter.mp hm).1)

/-- No sender ends twice. -/
theorem Ok.nodup_enders (h : b.Ok) {final : α → Bool} (hstream : ∀ l ∈ b.sent, Stream final l) : (b.enders final).Nodup := by
  refine List.nodup_iff_count_le_one.mpr fun k => ?_
  by_cases hk : k ∈ b.enders final
  · have hlt := h.lt_of_mem_enders hk
    have hsub : (fromSender k b.heard).Sublist b.sent[k] := by
      rw [← h.order k _ (List.getElem?_eq_getElem hlt), fromSender_append]
      exact List.sublist_append_left _ _
    rw [count_enders]
    exact hsub.countP_le.trans (hstream _ (List.getElem_mem hlt)).countP_le_one
  · rw [List.count_eq_zero_of_not_mem hk]
    exact Nat.zero_le 1

/-- As many senders have ended as there are: each of them has. -/
theorem Ok.exists_final (h : b.Ok) {final : α → Bool} (hstream : ∀ l ∈ b.sent, Stream final l)
    (hcount : b.heard.countP (fun m => final m.2) = b.sent.length) (hk : k < b.sent.length) :
    ∃ a ∈ fromSender k b.heard, final a = true := by
  have hlen : (List.range b.sent.length).length ≤ (b.enders final).length := by
    rw [List.length_range, ← hcount, List.countP_eq_length_filter]
    exact (List.length_map _).ge
  have hperm : (b.enders final).Perm (List.range b.sent.length) :=
    (List.subperm_of_subset (h.nodup_enders hstream) fun k hk => List.mem_range.mpr (h.lt_of_mem_enders hk)).perm_of_length_le hlen
  obtain ⟨m, hm, rfl⟩ := List.mem_map.mp (hperm.mem_iff.mpr (List.mem_range.mpr hk))
  obtain ⟨hm, hfinal⟩ := List.mem_filter.mp hm
  exact ⟨m.2, List.mem_map.mpr ⟨m, List.mem_filter.mpr ⟨hm, by simp⟩, rfl⟩, hfinal⟩

/-- As many final messages have been heard as there are senders: all senders have ended, and everything has been
heard. -/
theorem Ok.all_heard (h : b.Ok) {final : α → Bool} (hstream : ∀ l ∈ b.sent, Stream final l)
    (hcount : b.heard.countP (fun m => final m.2) = b.sent.length) :
    b.queue = [] ∧ ∀ l ∈ b.sent, ∃ a ∈ l, final a = true := by
  refine ⟨List.eq_nil_iff_forall_not_mem.mpr fun m hm => ?_, fun l hl => ?_⟩
  · have hk := h.lt m (List.mem_append_right _ hm)
    have horder := h.order m.1 _ (List.getElem?_eq_getElem hk)
    rw [fromSender_append] at horder
    have hstr := hstream _ (List.getElem_mem hk)
    rw [← horder] at hstr
    -- the sender of a message on the queue has ended, and so has sent nothing more
    obtain ⟨a, ha, hfinal⟩ := h.exists_final hstream hcount hk
    have hnil := hstr.eq_nil_of_append ha hfinal
    have hmem : m.2 ∈ fromSender m.1 b.queue := List.mem_map.mpr ⟨m, List.mem_filter.mpr ⟨hm, by simp⟩, rfl⟩
    rw [hnil] at hmem
    cases hmem
  · obtain ⟨k, hk, rfl⟩ := List.getElem_of_mem hl
    obtain ⟨a, ha, hfinal⟩ := h.exists_final hstream hcount hk
    refine ⟨a, ?_, hfinal⟩
    rw [← h.order k _ (List.getElem?_eq_getElem hk), fromSender_append]
    exact List.mem_append_left _ ha

end Mailbox

end Gross.Foundation
