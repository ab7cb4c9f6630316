import Gross.Worker.Fields

/-!
# The domain of the sender

The domain of the sender is needed in two places. With `grey_tuple = server` it is put in the
row that is hashed: `domain_part` takes what stands after the first `@`. A list of domains is
asked about it: `dnsblc` takes what stands after the last `@`, as far as its buffer for
addresses goes, and puts the name of the list behind it.

## The model

`queries` is what the lists of `dnsblc` are asked. `qstr` is not initialised, so it begins
with anything. `SameDomain` is that both places have what stands after the last `@`.

## What is proved

`sameDomain_iff` — for a sender with an `@` after its first character, both have it
exactly if there is one `@`, and less than `INET6_ADDRSTRLEN` characters follow it. A longer
domain is cut, and not ended: what is printed goes on with what the buffer held before.
-/

namespace Gross.Dnsbl

open Foundation Postfix Worker Addrutils

/-- `MAXQUERYSTRLEN` -/
def maxquerystrlen : ℕ := 256

/-- The name of a list, made fully qualified; the last character is read before the name is known to have one. -/
def qualified (name : List Char) : Except Fault (List Char) :=
  match name.getLast? with
  | none => .error .outOfBounds
  | some c => .ok (if c ≠ '.' then name ++ ['.'] else name)

/-- `snprintf(buffer, MAXQUERYSTRLEN, "%s.%s%s", qstr, dnsbl->name, …)` -/
def query (qstr name : List Char) : Except Fault (List Char) := do
  let domain ← strdup '\x00' qstr
  let name ← qualified name
  return (domain ++ '.' :: name).take (maxquerystrlen - 1)

/-- What the lists of `dnsblc` are asked. -/
def queries (inet : Inet) (e : Endian) (type : DnsCheckType) (request : GreyTuple) (qstr : List Char)
    (names : List (List Char)) : Except Fault (List (List Char)) := do
  match ← dnsblc inet e type request qstr with
  | none => return []
  | some qstr => names.mapM (query qstr)

/-- What stands after the last `@`. -/
def afterLast (sender : List Char) : List Char := (sender.reverse.takeWhile (· ≠ '@')).reverse

/-- Whatever the buffer held before, the lists are asked about this domain. -/
def Asks (sender domain : List Char) : Prop :=
  ∀ inet e request qstr names fulls, request.sender = some sender → qstr.length = reversedInet6Addrstrlen →
    names.mapM qualified = .ok fulls →
    queries inet e .rhsbl request qstr names =
      .ok (fulls.map fun full => (domain ++ '.' :: full).take (maxquerystrlen - 1))

/-- The row and the queries have what stands after the last `@`. -/
structure SameDomain (sender : List Char) : Prop where
  /-- In the row. -/
  tuple : domainPart sender = afterLast sender
  /-- In front of the names of the lists. -/
  query : Asks sender (afterLast sender)

variable {sender : List Char}

/-! ### The first and the last `@` -/

theorem afterLast_append {s domain : List Char} (h : '@' ∉ domain) : afterLast (s ++ '@' :: domain) = domain := by
  rw [afterLast, List.reverse_append, List.reverse_cons, List.append_assoc,
    List.takeWhile_append_of_pos fun c hc => ?_]
  · simp
  · exact decide_eq_true (ne_of_mem_of_not_mem (List.mem_reverse.mp hc) h)

theorem domainPart_append {s domain : List Char} (h : '@' ∉ s) : domainPart (s ++ '@' :: domain) = domain := by
  rw [domainPart, List.dropWhile_append_of_pos fun c hc => decide_eq_true (ne_of_mem_of_not_mem hc h)]
  simp

/-- The first `@` is the last. -/
theorem domainPart_eq_afterLast_iff (h : '@' ∈ sender) :
    domainPart sender = afterLast sender ↔ sender.count '@' = 1 := by
  obtain ⟨s, domain, rfl, hs⟩ := List.eq_append_cons_of_mem h
  rw [domainPart_append hs, List.count_append, List.count_eq_zero.mpr hs, List.count_cons_self]
  by_cases hdomain : '@' ∈ domain
  · -- there is one more in the domain, and none after the last
    refine iff_of_false (fun heq => ?_) ?_
    · have hnone : '@' ∉ afterLast (s ++ '@' :: domain) := by
        intro hmem
        simpa using List.mem_takeWhile_imp (List.mem_reverse.mp hmem)
      exact hnone (heq ▸ hdomain)
    · have := List.count_pos_iff.mpr hdomain
      omega
  · rw [afterLast_append hdomain, List.count_eq_zero.mpr hdomain]
    exact iff_of_true rfl rfl

/-- The scan from the end finds the last `@`. -/
theorem afterAt_eq (h : '@' ∈ sender.tail) : afterAt sender = some (afterLast sender) := by
  cases sender with
  | nil => cases h
  | cons c sender =>
    obtain ⟨q, p, heq, hq⟩ := List.eq_append_cons_of_mem (List.mem_reverse.mpr (show '@' ∈ sender from h))
    have hdrop : (c :: sender).reverse.dropWhile (· ≠ '@') = '@' :: (p ++ [c]) := by
      rw [List.reverse_cons, heq, List.append_assoc,
        List.dropWhile_append_of_pos fun a ha => decide_eq_true (ne_of_mem_of_not_mem ha hq)]
      simp
    cases p <;> simp only [afterAt, hdrop, List.nil_append, List.cons_append, afterLast]

/-! ### What is copied -/

variable {qstr domain : List Char}

/-- A short domain is ended. -/
theorem copyQstr_short (hqstr : qstr.length = reversedInet6Addrstrlen) (hnul : '\x00' ∉ domain)
    (hlen : domain.length < inet6Addrstrlen) :
    ∃ mem, copyQstr qstr domain = .ok mem ∧ strdup '\x00' mem = .ok domain := by
  have hroom : 0 + inet6Addrstrlen ≤ qstr.length := by
    rw [hqstr]
    decide
  have hout : (domain ++ List.replicate (inet6Addrstrlen - domain.length) '\x00').length = inet6Addrstrlen := by
    rw [List.length_append, List.length_replicate]
    omega
  refine ⟨_, by rw [copyQstr, strncpy_append hnul hlen, ok_bind, memcpy_ok (Nat.le_of_eq hout.symm) hroom], ?_⟩
  obtain ⟨n, hn⟩ := Nat.exists_eq_add_one_of_ne_zero (Nat.sub_ne_zero_of_lt hlen)
  rw [overwrite_start, hn, List.replicate_succ, List.take_of_length_le (by rw [← hout, hn]; rfl), List.append_assoc,
    List.cons_append, strdup_append hnul]

/-- A long one is not, and goes on with what the buffer held before. -/
theorem copyQstr_long (hqstr : qstr.length = reversedInet6Addrstrlen) (hnul : '\x00' ∉ domain)
    (hlen : inet6Addrstrlen ≤ domain.length) :
    copyQstr qstr domain = .ok (domain.take inet6Addrstrlen ++ qstr.drop inet6Addrstrlen) := by
  have hroom : 0 + inet6Addrstrlen ≤ qstr.length := by
    rw [hqstr]
    decide
  have htake : (domain.take inet6Addrstrlen).length = inet6Addrstrlen := List.length_take_of_le hlen
  have hnul' : '\x00' ∉ domain.take inet6Addrstrlen := fun h => hnul (List.mem_of_mem_take h)
  have hcopy := strncpy_length hnul' (domain.drop inet6Addrstrlen ++ ['\x00'])
  rw [htake, ← List.append_assoc, List.take_append_drop] at hcopy
  rw [copyQstr, hcopy, ok_bind, memcpy_ok (Nat.le_of_eq htake.symm) hroom, overwrite_start, List.take_of_length_le
    (Nat.le_of_eq htake), htake]

/-! ### The row and the queries -/

theorem dnsblc_rhsbl_eq {inet : Inet} {e : Endian} {request : GreyTuple} (hsender : request.sender = some sender)
    (hat : '@' ∈ sender.tail) (qstr : List Char) :
    dnsblc inet e .rhsbl request qstr = copyQstr qstr (afterLast sender) >>= fun mem => .ok (some mem) := by
  simp only [dnsblc, hsender, unchecked, ok_bind, afterAt_eq hat]
  rfl

/-- What is asked, if `qstr` is a string. -/
theorem mapM_query {mem : List Char} {names fulls : List (List Char)} (hmem : strdup '\x00' mem = .ok domain)
    (hfull : names.mapM qualified = .ok fulls) :
    names.mapM (query mem) = .ok (fulls.map fun full => (domain ++ '.' :: full).take (maxquerystrlen - 1)) := by
  induction names generalizing fulls with
  | nil =>
    cases hfull
    rfl
  | cons name names ih =>
    rw [List.mapM_cons] at hfull ⊢
    obtain ⟨full, hname, hfull⟩ := bind_eq_ok hfull
    obtain ⟨rest, hnames, hfull⟩ := bind_eq_ok hfull
    cases hfull
    rw [ih hnames, query, hmem, hname]
    rfl

/-- The queries have the domain exactly if it is short. -/
theorem asks_iff (hnul : '\x00' ∉ sender) (hat : '@' ∈ sender.tail) :
    Asks sender (afterLast sender) ↔ (afterLast sender).length < inet6Addrstrlen := by
  have hdomain : '\x00' ∉ afterLast sender := fun h =>
    hnul (List.mem_reverse.mp ((List.takeWhile_sublist _).subset (List.mem_reverse.mp h)))
  constructor
  · intro h
    by_contra hlong
    -- the buffer held no NUL before, and holds none now
    have hqstr : (List.replicate reversedInet6Addrstrlen 'x').length = reversedInet6Addrstrlen := List.length_replicate
    have hmem : '\x00' ∉ (afterLast sender).take inet6Addrstrlen ++
        (List.replicate reversedInet6Addrstrlen 'x').drop inet6Addrstrlen := by
      rw [List.mem_append, not_or]
      refine ⟨fun hmem => hdomain (List.mem_of_mem_take hmem), fun hmem => ?_⟩
      cases List.eq_of_mem_replicate (List.mem_of_mem_drop hmem)
    have hask := h plainInet .little ⟨some sender, none, none, none⟩ _ [['x']] _ rfl hqstr rfl
    rw [queries, dnsblc_rhsbl_eq rfl hat, copyQstr_long hqstr hdomain (Nat.not_lt.mp hlong), ok_bind, ok_bind] at hask
    dsimp only at hask
    rw [List.mapM_cons, query, strdup_of_notMem hmem] at hask
    cases hask
  · intro hshort inet e request qstr names fulls hsender hqstr hfull
    obtain ⟨mem, hcopy, hmem⟩ := copyQstr_short hqstr hdomain hshort
    rw [queries, dnsblc_rhsbl_eq hsender hat, hcopy, ok_bind, ok_bind]
    exact mapM_query hmem hfull

/-- **The two places have the same domain**, what stands after the last `@`, exactly if there is one `@` and a
short domain. -/
theorem sameDomain_iff (hnul : '\x00' ∉ sender) (hat : '@' ∈ sender.tail) :
    SameDomain sender ↔ sender.count '@' = 1 ∧ (afterLast sender).length < inet6Addrstrlen := by
  rw [← domainPart_eq_afterLast_iff (List.mem_of_mem_tail hat), ← asks_iff hnul hat]
  exact ⟨fun h => ⟨h.tuple, h.query⟩, fun h => ⟨h.1, h.2⟩⟩

theorem sameDomain_user : SameDomain "user@example.org".toList :=
  (sameDomain_iff (by decide) (by decide)).mpr ⟨rfl, by decide⟩

/-- A request of which only the sender is looked at. -/
def sentBy (sender : List Char) : GreyTuple := ⟨some sender, none, none, none⟩

/-- A domain of as many characters as are copied. -/
def longDomain : List Char := List.replicate inet6Addrstrlen 'a'

/-- With two `@` the row has another domain than the query. With a long domain the query goes on with what the
buffer held, here a row of `b`. -/
theorem domains_differ :
    domainPart "a@b@c".toList = "b@c".toList ∧
      queries plainInet .little .rhsbl (sentBy "a@b@c".toList) (List.replicate 65 '\x00') ["l.".toList] =
        .ok ["c.l.".toList] ∧
      domainPart ("a@".toList ++ longDomain) = longDomain ∧
      queries plainInet .little .rhsbl (sentBy ("a@".toList ++ longDomain))
          (List.replicate 64 'b' ++ ['\x00']) ["l.".toList] =
        .ok [longDomain ++ List.replicate 18 'b' ++ ".l.".toList] :=
  ⟨rfl, rfl, rfl, rfl⟩

end Gross.Dnsbl
