import Gross.Conf.Configure
import Gross.Foundation.CString
import Gross.Postfix.Parse
import Mathlib.Data.List.DropRight
import Mathlib.Data.List.Nodup

/-!
# The configuration file

`default_config` makes a list of the default options, and `read_config` goes through
the file and records each option in the list. A new option goes to the front. An option
that can have several values (`multivalue`) takes the defaults of its name off the list;
another one replaces the value that is there.

## The model

* `namevalueparams` — a line: a name, a value, and parameters after semicolons.
* `recordConfigItem` — an option and the list.
* `readConfig` — the file, line by line as `readline` gives them, so that a line of more
  than 1022 characters is several (`fileLines`).

## What is proved

`readConfig_reflects_iff` — in the list of an accepted file, each name has the value and
the parameters of its last occurrence, or all of them if it can have several, or its
defaults if it does not occur, and `gconf` returns accordingly: exactly if the first and
the last `pidfile` have the same parameters. The value is replaced but not the
parameters, and no other option with one value can have any.

## Honest scope

`trim` looks at the byte before a name that is empty, which is before the buffer. What
is logged is left out.
-/

namespace Gross.Conf

open Foundation Utils Postfix

/-- `DEFAULT_CONFIG` -/
def defaults : List (String × String) :=
  [("update", "grey"), ("host", "127.0.0.1"), ("port", "5525"), ("sync_port", "5524"), ("status_port", "5522"),
    ("rotate_interval", "3600"), ("filter_bits", "24"), ("number_buffers", "8"), ("stat_interval", "300"),
    ("postfix_response_grey", "action=defer_if_permit %reason%"), ("postfix_response_block", "action=reject %reason%"),
    ("sjsms_response_grey", "$X4.4.3|$N%reason%"), ("sjsms_response_match", "$Y"), ("sjsms_response_trust", "$Y"),
    ("sjsms_response_block", "$N%reason%"), ("log_method", "syslog"), ("log_level", "info"), ("stat_type", "delay"),
    ("stat_type", "status"), ("grey_mask", "24"), ("grey_mask6", "64"), ("grey_delay", "10"), ("grey_tuple", "user"),
    ("syslog_facility", "mail"), ("blocker_port", "4466"), ("blocker_weight", "1"), ("block_threshold", "0"),
    ("grey_threshold", "1"), ("grey_reason", "Please try again later"), ("block_reason", "Bad reputation"),
    ("query_timelimit", "5000"), ("pool_maxthreads", "100")]

/-- `MULTIVALUES` -/
def multivalues : List String := ["dnsbl", "rhsbl", "dnswl", "check", "stat_type", "protocol", "log_method"]

/-- `VALID_NAMES` -/
def validNames : List String :=
  ["dnsbl", "rhsbl", "dnswl", "host", "port", "filter_bits", "rotate_interval", "number_buffers", "update", "peer_name",
    "statefile", "postfix_response_grey", "postfix_response_block", "sjsms_response_grey", "sjsms_response_match",
    "sjsms_response_trust", "sjsms_response_block", "log_method", "log_level", "grey_mask", "grey_mask6", "grey_delay",
    "grey_tuple", "check", "protocol", "syslog_facility", "sync_listen", "sync_peer", "sync_port", "stat_interval",
    "stat_type", "status", "blocker_host", "blocker_port", "blocker_weight", "query_timelimit", "block_threshold",
    "grey_threshold", "grey_reason", "block_reason", "milter_listen", "pidfile", "pool_maxthreads"]

/-- `PARAMS`: a name with the fewest and the most parameters it can have. -/
def paramCounts : List (String × ℕ × ℕ) := [("dnsbl", 0, 1), ("rhsbl", 0, 1), ("pidfile", 0, 1)]

/-- `multivalue` -/
def multivalue (name : String) : Bool := name ∈ multivalues

/-- `maxparams` -/
def maxparams (name : String) : ℕ := ((paramCounts.find? fun row => row.1 = name).map fun row => row.2.2).getD 0

/-- `minparams` -/
def minparams (name : String) : ℕ := ((paramCounts.find? fun row => row.1 = name).map fun row => row.2.1).getD 0

/-- An option as it stands in the file. -/
structure Occurrence where
  /-- The name. -/
  name : String
  /-- The value. -/
  value : String
  /-- The parameters. -/
  params : List String
  deriving DecidableEq, Repr

/-- The item that `add_config_item` makes of it. -/
def Occurrence.item (o : Occurrence) : ConfigItem := ⟨o.name, o.value, o.params, false⟩

/-- The same option with another value, in the item that is there. -/
def ConfigItem.setValue (item : ConfigItem) (value : String) : ConfigItem := { item with value := value }

/-- `default_config`: each item goes to the front. -/
def defaultConfig : List ConfigItem := defaults.foldl (fun config d => ⟨d.1, d.2, [], true⟩ :: config) []

/-! ### A line -/

/-- `trim`: no blanks and tabs at the ends. -/
def trim (s : List Char) : List Char :=
  (s.dropWhile fun c => c = ' ' ∨ c = '\t').rdropWhile fun c => c = ' ' ∨ c = '\t'

/-- `a_delim_b`: what is before and after the delimiter, if it is there. It returns -1 if one of the
two is empty. -/
def aDelimB (buffer : List Char) (delim : Char) : Option (List Char × List Char) :=
  if delim ∈ buffer then
    some (trim (buffer.takeWhile (· ≠ delim)), trim (buffer.dropWhile (· ≠ delim)).tail)
  else none

theorem length_trim_le (s : List Char) : (trim s).length ≤ s.length :=
  Nat.le_trans (List.rdropWhile_prefix _ _).length_le (List.dropWhile_suffix _).length_le

theorem length_lt_of_aDelimB {buffer stra strb : List Char} {delim : Char}
    (h : aDelimB buffer delim = some (stra, strb)) : strb.length < buffer.length := by
  unfold aDelimB at h
  split_ifs at h with hmem
  cases h
  have hne : buffer.dropWhile (· ≠ delim) ≠ [] := by
    intro hnil
    rw [List.dropWhile_eq_nil_iff] at hnil
    simpa using hnil delim hmem
  have htrim := length_trim_le (buffer.dropWhile (· ≠ delim)).tail
  have hsuffix := (List.dropWhile_suffix (l := buffer) (· ≠ delim)).length_le
  have hpos := List.length_pos_iff.mpr hne
  rw [List.length_tail] at htrim
  omega

/-- The loop of `namevalueparams`: what is left of the value, and the parameters. A piece is cut off
where it stands, so that also the -1 of `a_delim_b` leaves what is before the semicolon. -/
def paramLoop (tail : List Char) : List Char × List (List Char) :=
  match _h : aDelimB tail ';' with
  | none => (tail, [])
  | some (stra, strb) =>
    if stra = [] ∨ strb = [] then (stra, [])
    else (stra, (paramLoop strb).1 :: (paramLoop strb).2)
termination_by tail.length
decreasing_by all_goals exact length_lt_of_aDelimB _h

/-- What a line is. -/
inductive Line where
  /-- Nothing, as it has no `=`. -/
  | nothing
  /-- Not right. -/
  | invalid
  /-- An option. -/
  | option (o : Occurrence)
  deriving DecidableEq, Repr

/-- `namevalueparams` -/
def namevalueparams (buffer : List Char) : Except Fault Line :=
  match aDelimB (buffer.takeWhile (· ≠ '#')) '=' with
  | none => .ok .nothing
  | some (name, value) =>
    -- `trim` goes back from the end of the name
    if name = [] then .error .outOfBounds
    else if value = [] then .ok .invalid
    else
      .ok (.option ⟨String.ofList name, String.ofList (paramLoop value).1, (paramLoop value).2.map String.ofList⟩)

/-! ### The list -/

/-- The value of the first item of that name is replaced. -/
def replaceValue (o : Occurrence) : List ConfigItem → Option (List ConfigItem)
  | [] => none
  | item :: config =>
    if item.name = o.name then some (item.setValue o.value :: config)
    else (replaceValue o config).map (item :: ·)

/-- It is a default of that name. -/
def ConfigItem.isDefaultOf (item : ConfigItem) (name : String) : Bool := item.isDefault && item.name = name

/-- `record_config_item` -/
def recordConfigItem (config : List ConfigItem) (o : Occurrence) : Except Fault (List ConfigItem) :=
  if multivalue o.name then
    -- the first item is freed without being unlinked
    if config.head?.any (·.isDefaultOf o.name) then .error .outOfBounds
    else .ok (o.item :: config.filter (! ·.isDefaultOf o.name))
  else
    match replaceValue o config with
    | some config => .ok config
    | none => .ok (o.item :: config)

/-- Whether the name and the number of parameters are right. -/
def Occurrence.valid (o : Occurrence) : Bool :=
  o.name ∈ validNames && o.params.length ≤ maxparams o.name && minparams o.name ≤ o.params.length

/-- `read_config`, from an open descriptor. `none` is the return of -1. -/
def readConfig (config : List ConfigItem) (conn : Conn) : Except Fault (Option (List ConfigItem)) :=
  match _h : readline conn maxlinelen with
  | .error => .error .exit
  | .empty => .ok (some config)
  | .data buffer rest =>
    match namevalueparams (cstring '\x00' buffer) with
    | .error fault => .error fault
    | .ok .nothing => readConfig config rest
    | .ok .invalid => .ok none
    | .ok (.option o) =>
      -- a name that is deprecated or unknown, or a wrong number of parameters
      if o.valid = false then .ok none
      else
        match recordConfigItem config o with
        | .error fault => .error fault
        | .ok config => readConfig config rest
termination_by conn.bytes.length
decreasing_by all_goals exact rest_lt_of_readline (by decide) _h

/-! ### What the file says -/

/-- The lines as `readline` gives them. -/
def fileLines (conn : Conn) : List (List Char) :=
  match _h : readline conn maxlinelen with
  | .error => []
  | .empty => []
  | .data buffer rest => cstring '\x00' buffer :: fileLines rest
termination_by conn.bytes.length
decreasing_by exact rest_lt_of_readline (by decide) _h

/-- The option in a line. -/
def optionOf (line : List Char) : Option Occurrence :=
  match namevalueparams line with
  | .ok (.option o) => some o
  | _ => none

/-- The options of the file, in order. -/
def occurrences (conn : Conn) : List Occurrence := (fileLines conn).filterMap optionOf

/-- Those of a name. -/
def named (name : String) (os : List Occurrence) : List Occurrence := os.filter fun o => o.name = name

/-- The items of a name. -/
def entries (name : String) (config : List ConfigItem) : List ConfigItem := config.filter fun item => item.name = name

/-- The list says what the file says. -/
structure Reflects (os : List Occurrence) (config : List ConfigItem) : Prop where
  /-- A name with one value has that of its last occurrence, with its parameters. -/
  single : ∀ name last, multivalue name = false → (named name os).getLast? = some last →
    ∃ isDefault, entries name config = [⟨name, last.value, last.params, isDefault⟩]
  /-- A name with several has all that occur, the last one first. -/
  multi : ∀ name, multivalue name = true → named name os ≠ [] →
    entries name config = ((named name os).map Occurrence.item).reverse
  /-- A name that does not occur has its defaults. -/
  absent : ∀ name, named name os = [] → entries name config = entries name defaultConfig
  /-- `gconf` returns the last value, or that of the default. -/
  gconf : ∀ name, gconf config name =
    match (named name os).getLast? with
    | some last => some last.value
    | none => Conf.gconf defaultConfig name

theorem fileLines_data {conn rest : Conn} {buffer : List Char} (h : readline conn maxlinelen = .data buffer rest) :
    fileLines conn = cstring '\x00' buffer :: fileLines rest := by
  rw [fileLines]
  split
  · rename_i h'
    rw [h] at h'
    cases h'
  · rename_i h'
    rw [h] at h'
    cases h'
  · rename_i h'
    rw [h] at h'
    cases h'
    rfl

theorem fileLines_empty {conn : Conn} (h : readline conn maxlinelen = .empty) : fileLines conn = [] := by
  rw [fileLines]
  split
  · rfl
  · rfl
  · rename_i h'
    rw [h] at h'
    cases h'

/-- A line without an option adds none. -/
theorem occurrences_nothing {conn rest : Conn} {buffer : List Char} (hread : readline conn maxlinelen = .data buffer rest)
    (hline : namevalueparams (cstring '\x00' buffer) = .ok .nothing) : occurrences conn = occurrences rest := by
  rw [occurrences, fileLines_data hread, List.filterMap_cons_none]
  · rfl
  · rw [optionOf, hline]

/-- A line with an option adds that. -/
theorem occurrences_option {conn rest : Conn} {buffer : List Char} {o : Occurrence}
    (hread : readline conn maxlinelen = .data buffer rest)
    (hline : namevalueparams (cstring '\x00' buffer) = .ok (.option o)) : occurrences conn = o :: occurrences rest := by
  have hoption : optionOf (cstring '\x00' buffer) = some o := by rw [optionOf, hline]
  rw [occurrences, fileLines_data hread, List.filterMap_cons_some hoption]
  rfl

/-- The options of a file that is accepted are valid, and are recorded one after the other. -/
theorem of_readConfig_eq_ok {config config' : List ConfigItem} {conn : Conn}
    (h : readConfig config conn = .ok (some config')) :
    (occurrences conn).foldlM recordConfigItem config = .ok config' ∧ ∀ o ∈ occurrences conn, o.valid = true := by
  fun_induction readConfig config conn with
  | case1 => cases h
  | case2 config conn hread =>
    cases h
    rw [occurrences, fileLines_empty hread]
    exact ⟨rfl, fun o ho => by cases ho⟩
  | case3 => cases h
  | case4 config conn buffer rest hread hline ih =>
    rw [occurrences_nothing hread hline]
    exact ih h
  | case5 => cases h
  | case6 => cases h
  | case7 => cases h
  | case8 config conn buffer rest hread o hline hvalid config₁ hrecord ih =>
    rw [occurrences_option hread hline, List.foldlM_cons, hrecord, ok_bind, List.forall_mem_cons]
    obtain ⟨hfold, hall⟩ := ih h
    exact ⟨hfold, by simpa using hvalid, hall⟩

/-! ### One name -/

/-- What `record_config_item` does to the items of the name. -/
def recordEntries (es : List ConfigItem) (o : Occurrence) : List ConfigItem :=
  if multivalue o.name then o.item :: es.filter (! ·.isDefault)
  else
    match es with
    | [] => [o.item]
    | e :: es => e.setValue o.value :: es

theorem recordEntries_multi {o : Occurrence} (h : multivalue o.name = true) (es : List ConfigItem) :
    recordEntries es o = o.item :: es.filter (! ·.isDefault) := if_pos h

theorem recordEntries_nil {o : Occurrence} (h : ¬ multivalue o.name = true) : recordEntries [] o = [o.item] := if_neg h

theorem recordEntries_cons {o : Occurrence} (h : ¬ multivalue o.name = true) (e : ConfigItem) (es : List ConfigItem) :
    recordEntries (e :: es) o = e.setValue o.value :: es := if_neg h

/-- An occurrence of the name comes first, or is left out. -/
theorem named_cons (name : String) (o : Occurrence) (os : List Occurrence) :
    named name (o :: os) = if o.name = name then o :: named name os else named name os := by
  simp only [named, List.filter_cons, decide_eq_true_eq]

section

variable {config config' : List ConfigItem} {o : Occurrence}

theorem entries_cons (name : String) (item : ConfigItem) (config : List ConfigItem) :
    entries name (item :: config) = if item.name = name then item :: entries name config else entries name config := by
  simp only [entries, List.filter_cons, decide_eq_true_eq]

/-- The items of the name when a value is replaced. -/
theorem entries_replaceValue (h : replaceValue o config = some config') (name : String) :
    (o.name ≠ name → entries name config' = entries name config) ∧
      (o.name = name → ∃ e es, entries name config = e :: es ∧ entries name config' = e.setValue o.value :: es) := by
  induction config generalizing config' with
  | nil => cases h
  | cons item config ih =>
    simp only [replaceValue] at h
    split_ifs at h with hname
    · cases h
      constructor
      · intro hne
        have hitem : ¬ item.name = name := hname ▸ hne
        rw [entries_cons, entries_cons, if_neg hitem, if_neg (show ¬ (item.setValue o.value).name = name from hitem)]
      · intro heq
        have hitem : item.name = name := hname.trans heq
        refine ⟨item, entries name config, ?_, ?_⟩
        · rw [entries_cons, if_pos hitem]
        · rw [entries_cons, if_pos (show (item.setValue o.value).name = name from hitem)]
    · obtain ⟨config₁, hconfig₁, rfl⟩ := Option.map_eq_some_iff.mp h
      obtain ⟨hother, hsame⟩ := ih hconfig₁
      constructor
      · intro hne
        rw [entries_cons, entries_cons, hother hne]
      · intro heq
        have hitem : ¬ item.name = name := heq ▸ hname
        obtain ⟨e, es, hes, hes'⟩ := hsame heq
        refine ⟨e, es, ?_, ?_⟩
        · rw [entries_cons, if_neg hitem, hes]
        · rw [entries_cons, if_neg hitem, hes']

/-- If no value is replaced there is none. -/
theorem entries_of_replaceValue_eq_none (h : replaceValue o config = none) : entries o.name config = [] := by
  induction config with
  | nil => rfl
  | cons item config ih =>
    simp only [replaceValue] at h
    split_ifs at h with hname
    rw [entries_cons, if_neg hname, ih (Option.map_eq_none_iff.mp h)]

/-- **`record_config_item`** changes the items of its name only. -/
theorem entries_recordConfigItem (h : recordConfigItem config o = .ok config') (name : String) :
    entries name config' = if o.name = name then recordEntries (entries name config) o else entries name config := by
  unfold recordConfigItem at h
  by_cases hmulti : multivalue o.name = true
  · rw [if_pos hmulti] at h
    split_ifs at h
    cases h
    rw [entries_cons, recordEntries_multi hmulti]
    by_cases hname : o.name = name
    · rw [if_pos hname, if_pos (show o.item.name = name from hname), entries, entries, List.filter_filter,
        List.filter_filter]
      congr 1
      apply List.filter_congr
      intro item _
      rw [hname]
      by_cases hitem : item.name = name <;> simp [ConfigItem.isDefaultOf, hitem]
    · rw [if_neg hname, if_neg (show ¬ o.item.name = name from hname), entries, entries, List.filter_filter]
      apply List.filter_congr
      intro item _
      by_cases hitem : item.name = name
      · simp [ConfigItem.isDefaultOf, hitem, Ne.symm hname]
      · simp [hitem]
  · rw [if_neg hmulti] at h
    cases hreplace : replaceValue o config with
    | some config₁ =>
      rw [hreplace] at h
      cases h
      obtain ⟨hother, hsame⟩ := entries_replaceValue hreplace name
      by_cases hname : o.name = name
      · obtain ⟨e, es, hes, hes'⟩ := hsame hname
        rw [if_pos hname, hes, hes', recordEntries_cons hmulti]
      · rw [if_neg hname, hother hname]
    | none =>
      rw [hreplace] at h
      cases h
      rw [entries_cons]
      by_cases hname : o.name = name
      · have hnone := entries_of_replaceValue_eq_none hreplace
        rw [hname] at hnone
        rw [if_pos hname, if_pos (show o.item.name = name from hname), hnone, recordEntries_nil hmulti]
      · rw [if_neg hname, if_neg (show ¬ o.item.name = name from hname)]

/-- **A whole file**: the items of a name depend on its occurrences only. -/
theorem entries_foldlM {os : List Occurrence} (h : os.foldlM recordConfigItem config = .ok config') (name : String) :
    entries name config' = (named name os).foldl recordEntries (entries name config) := by
  induction os generalizing config with
  | nil =>
    cases h
    rfl
  | cons o os ih =>
    obtain ⟨config₁, hrecord, hrest⟩ := bind_eq_ok h
    rw [ih hrest, entries_recordConfigItem hrecord name, named_cons]
    by_cases hname : o.name = name
    · rw [if_pos hname, if_pos hname, List.foldl_cons]
    · rw [if_neg hname, if_neg hname]

end

section

variable {os : List Occurrence} {es : List ConfigItem}

/-- Names with several values: all that occur, without the defaults. -/
theorem foldl_recordEntries_multi (hmulti : ∀ o ∈ os, multivalue o.name = true) (hos : os ≠ []) :
    os.foldl recordEntries es = (os.map Occurrence.item).reverse ++ es.filter (! ·.isDefault) := by
  induction os using List.reverseRecOn with
  | nil => exact absurd rfl hos
  | append_singleton os o ih =>
    rw [List.forall_mem_append, List.forall_mem_singleton] at hmulti
    rw [List.foldl_append, List.foldl_cons, List.foldl_nil, recordEntries_multi hmulti.2, List.map_append,
      List.reverse_append]
    by_cases hnil : os = []
    · simp [hnil]
    · -- the items recorded before are no defaults, so they stay
      have hstay : (os.map Occurrence.item).reverse.filter (! ·.isDefault) = (os.map Occurrence.item).reverse := by
        rw [List.filter_eq_self]
        intro item hitem
        rw [List.mem_reverse, List.mem_map] at hitem
        obtain ⟨o, -, rfl⟩ := hitem
        rfl
      rw [ih hmulti.1 hnil, List.filter_append, hstay, List.filter_filter]
      simp

/-- A name with one value, and with one item: the last value that occurs. -/
theorem foldl_recordEntries_single (hsingle : ∀ o ∈ os, multivalue o.name = false) (e : ConfigItem) :
    os.foldl recordEntries [e] = [e.setValue ((os.getLast?.map Occurrence.value).getD e.value)] := by
  induction os using List.reverseRecOn with
  | nil => rfl
  | append_singleton os o ih =>
    rw [List.forall_mem_append, List.forall_mem_singleton] at hsingle
    have hnot : ¬ multivalue o.name = true := by simp [hsingle.2]
    rw [List.foldl_append, ih hsingle.1, List.foldl_cons, List.foldl_nil, recordEntries_cons hnot]
    simp [ConfigItem.setValue]

end

/-! ### The defaults -/

/-- The names of the defaults. -/
def defaultNames : List String := defaults.map Prod.fst

theorem defaultConfig_eq : defaultConfig = (defaults.map fun d => ⟨d.1, d.2, [], true⟩).reverse := rfl

theorem defaults_plain :
    ∀ item ∈ defaultConfig, item.isDefault = true ∧ item.params = [] ∧ item.name ∈ defaultNames := by
  intro item hitem
  rw [defaultConfig_eq, List.mem_reverse, List.mem_map] at hitem
  obtain ⟨d, hd, rfl⟩ := hitem
  exact ⟨rfl, rfl, List.mem_map_of_mem hd⟩

/-- No name with one value is in `DEFAULT_CONFIG` twice. -/
theorem nodup_defaultNames : (defaultNames.filter fun name => ! multivalue name).Nodup := by
  simp [defaultNames, defaults, multivalue, multivalues]

/-- Each name with one value has one default. -/
theorem defaults_single :
    ∀ name ∈ defaultNames, multivalue name = false → (entries name defaultConfig).length = 1 := by
  intro name hname hsingle
  have hnot : (! multivalue name) = true := by rw [hsingle]; rfl
  have hcount := List.count_eq_one_of_mem nodup_defaultNames (List.mem_filter.mpr ⟨hname, hnot⟩)
  rw [List.count_filter (p := fun name => ! multivalue name) hnot] at hcount
  rw [← hcount, entries, defaultConfig_eq, ← List.countP_eq_length_filter, List.countP_reverse, List.countP_map,
    defaultNames, List.count, List.countP_map]
  rfl

/-- Others have none. -/
theorem entries_defaultConfig_of_notMem {name : String} (h : name ∉ defaultNames) : entries name defaultConfig = [] := by
  rw [entries, List.filter_eq_nil_iff]
  intro item hitem hname
  have hmem := (defaults_plain item hitem).2.2
  rw [decide_eq_true_eq] at hname
  exact h (hname ▸ hmem)

/-- Only `pidfile` has one value, and parameters. -/
theorem maxparams_eq_zero {name : String} (hsingle : multivalue name = false) (hpidfile : name ≠ "pidfile") :
    maxparams name = 0 := by
  have hnot : name ∉ multivalues := by simpa [multivalue] using hsingle
  have hdnsbl : "dnsbl" ≠ name := fun h => hnot (h ▸ by decide)
  have hrhsbl : "rhsbl" ≠ name := fun h => hnot (h ▸ by decide)
  simp [maxparams, paramCounts, hdnsbl, hrhsbl, hpidfile.symm]

theorem params_eq_nil {o : Occurrence} (hvalid : o.valid = true) (hsingle : multivalue o.name = false)
    (hpidfile : o.name ≠ "pidfile") : o.params = [] := by
  simp only [Occurrence.valid, Bool.and_eq_true, decide_eq_true_eq] at hvalid
  have hlen := hvalid.1.2
  rw [maxparams_eq_zero hsingle hpidfile] at hlen
  exact List.length_eq_zero_iff.mp (Nat.le_zero.mp hlen)

/-! ### An accepted file -/

section

variable {os : List Occurrence} {config : List ConfigItem} {name : String}

theorem name_of_mem_named {o : Occurrence} (h : o ∈ named name os) : o.name = name := by
  simpa using (List.mem_filter.mp h).2

/-- The item of a name with one value: the last value, and the first parameters. -/
theorem entries_single (hrun : os.foldlM recordConfigItem defaultConfig = .ok config) (hvalid : ∀ o ∈ os, o.valid = true)
    (hsingle : multivalue name = false) {o : Occurrence} {rest : List Occurrence} (hos : named name os = o :: rest) :
    ∃ isDefault, entries name config =
      [⟨name, (rest.getLast?.map Occurrence.value).getD o.value, o.params, isDefault⟩] := by
  have hnames : ∀ o' ∈ o :: rest, multivalue o'.name = false := by
    intro o' ho'
    rw [name_of_mem_named (hos ▸ ho' : o' ∈ named name os)]
    exact hsingle
  have ho : o ∈ named name os := hos ▸ List.mem_cons_self ..
  have hname : o.name = name := name_of_mem_named ho
  have hnot : ¬ multivalue o.name = true := by simp [hname, hsingle]
  have hrest : ∀ o' ∈ rest, multivalue o'.name = false := fun o' ho' => hnames o' (List.mem_cons_of_mem _ ho')
  have hentries := entries_foldlM hrun name
  rw [hos, List.foldl_cons] at hentries
  by_cases hdefault : name ∈ defaultNames
  · obtain ⟨d, hd⟩ := List.length_eq_one_iff.mp (defaults_single name hdefault hsingle)
    have hmem : d ∈ entries name defaultConfig := hd ▸ List.mem_singleton_self d
    obtain ⟨hmem, hdname⟩ := List.mem_filter.mp hmem
    rw [decide_eq_true_eq] at hdname
    -- an option with a default has no parameters
    have hpidfile : o.name ≠ "pidfile" := by
      rintro h
      rw [hname] at h
      rw [h] at hdefault
      revert hdefault
      decide
    have hparams := params_eq_nil (hvalid o (List.mem_filter.mp ho).1) (hname ▸ hsingle) hpidfile
    rw [hd, recordEntries_cons hnot, foldl_recordEntries_single hrest] at hentries
    refine ⟨d.isDefault, ?_⟩
    rw [hentries, hparams, ← (defaults_plain d hmem).2.1, ← hdname]
    rfl
  · rw [entries_defaultConfig_of_notMem hdefault, recordEntries_nil hnot, foldl_recordEntries_single hrest] at hentries
    refine ⟨false, ?_⟩
    rw [hentries, ← hname]
    rfl

/-- The last of an occurrence and what follows. -/
theorem getLast?_value (o : Occurrence) (rest : List Occurrence) :
    ∃ last, (o :: rest).getLast? = some last ∧ last.value = (rest.getLast?.map Occurrence.value).getD o.value := by
  obtain rfl | ⟨init, last, rfl⟩ := List.eq_nil_or_concat' rest
  · exact ⟨o, rfl, rfl⟩
  · exact ⟨last, by rw [← List.cons_append, List.getLast?_concat], by simp⟩

theorem entries_multi (hrun : os.foldlM recordConfigItem defaultConfig = .ok config) (hmulti : multivalue name = true)
    (hos : named name os ≠ []) : entries name config = ((named name os).map Occurrence.item).reverse := by
  have hnames : ∀ o ∈ named name os, multivalue o.name = true := by
    intro o ho
    rw [name_of_mem_named ho]
    exact hmulti
  have hnone : (entries name defaultConfig).filter (! ·.isDefault) = [] := by
    rw [List.filter_eq_nil_iff]
    intro item hitem
    simp [(defaults_plain item (List.mem_filter.mp hitem).1).1]
  rw [entries_foldlM hrun name, foldl_recordEntries_multi hnames hos, hnone, List.append_nil]

theorem entries_absent (hrun : os.foldlM recordConfigItem defaultConfig = .ok config) (hos : named name os = []) :
    entries name config = entries name defaultConfig := by
  rw [entries_foldlM hrun name, hos]
  rfl

theorem gconf_eq_head? (config : List ConfigItem) (name : String) :
    gconf config name = (entries name config).head?.map ConfigItem.value := by
  rw [gconf, entries, List.head?_filter]

/-- `gconf` returns the last value in the file, or the default. -/
theorem gconf_eq (hrun : os.foldlM recordConfigItem defaultConfig = .ok config) (hvalid : ∀ o ∈ os, o.valid = true)
    (name : String) :
    gconf config name =
      match (named name os).getLast? with
      | some last => some last.value
      | none => gconf defaultConfig name := by
  cases hos : named name os with
  | nil => rw [gconf_eq_head?, gconf_eq_head?, entries_absent hrun hos, List.getLast?_nil]
  | cons o rest =>
    obtain ⟨last, hlast, hvalue⟩ := getLast?_value o rest
    rw [gconf_eq_head?, hlast]
    by_cases hmulti : multivalue name = true
    · rw [entries_multi hrun hmulti (by rw [hos]; exact List.cons_ne_nil o rest), hos, List.head?_reverse,
        List.getLast?_map, hlast]
      rfl
    · obtain ⟨isDefault, hentries⟩ := entries_single hrun hvalid (by simpa using hmulti) hos
      rw [hentries, List.head?_cons, Option.map_some, ← hvalue]

/-- Of each file that `read_config` accepts: the list has, for each name that occurs and has one
value, the value and the parameters of the last occurrence; for each that has several, just the
values and parameters that occur; and for each other just the defaults; and `gconf` returns
accordingly. This is so exactly if the first and the last `pidfile` have the same parameters. -/
theorem readConfig_reflects_iff {conn : Conn} (h : readConfig defaultConfig conn = .ok (some config)) :
    Reflects (occurrences conn) config ↔
      (named "pidfile" (occurrences conn)).head?.map Occurrence.params =
        (named "pidfile" (occurrences conn)).getLast?.map Occurrence.params := by
  obtain ⟨hrun, hvalid⟩ := of_readConfig_eq_ok h
  constructor
  · intro hreflects
    cases hos : named "pidfile" (occurrences conn) with
    | nil => rfl
    | cons o rest =>
      obtain ⟨last, hlast, -⟩ := getLast?_value o rest
      obtain ⟨d, hentries⟩ := entries_single hrun hvalid (by decide) hos
      obtain ⟨d', hentries'⟩ := hreflects.single "pidfile" last (by decide) (hos ▸ hlast)
      rw [hentries] at hentries'
      simp only [List.cons.injEq, ConfigItem.mk.injEq] at hentries'
      rw [hlast, List.head?_cons, Option.map_some, Option.map_some, hentries'.1.2.2.1]
  · intro hpidfile
    refine ⟨?_, fun name hmulti hos => entries_multi hrun hmulti hos, fun name hos => entries_absent hrun hos,
      gconf_eq hrun hvalid⟩
    intro name last hsingle hlast
    cases hos : named name (occurrences conn) with
    | nil =>
      rw [hos] at hlast
      cases hlast
    | cons o rest =>
      obtain ⟨isDefault, hentries⟩ := entries_single hrun hvalid hsingle hos
      obtain ⟨last', hlast', hvalue⟩ := getLast?_value o rest
      rw [hos, hlast'] at hlast
      cases hlast
      refine ⟨isDefault, ?_⟩
      rw [hentries, ← hvalue]
      -- the first and the last parameters are the same
      by_cases hname : name = "pidfile"
      · rw [hname] at hos
        rw [hos, hlast', List.head?_cons, Option.map_some, Option.map_some, Option.some.injEq] at hpidfile
        rw [hpidfile]
      · have hparams : ∀ o' ∈ o :: rest, o'.params = [] := by
          intro o' ho'
          have hmem : o' ∈ named name (occurrences conn) := hos ▸ ho'
          have hname' := name_of_mem_named hmem
          exact params_eq_nil (hvalid o' (List.mem_filter.mp hmem).1) (hname' ▸ hsingle) (hname' ▸ hname)
        rw [hparams o (List.mem_cons_self ..), hparams last (List.mem_of_getLast? hlast')]

/-- Two `pidfile` lines with the same parameter, and a `stat_type`. -/
def twoPidfiles : Conn := ⟨"pidfile = a ; check\nstat_type = full # all\n\npidfile = b;check\n".toList, false⟩

/-- The last value stands, and the defaults of `stat_type` are gone. -/
theorem readConfig_reflects_twoPidfiles :
    Reflects (occurrences twoPidfiles)
      (⟨"stat_type", "full", [], false⟩ :: ⟨"pidfile", "b", ["check"], false⟩ ::
        defaultConfig.filter fun item => item.name ≠ "stat_type") := by
  have hread : readConfig defaultConfig twoPidfiles =
      .ok (some (⟨"stat_type", "full", [], false⟩ :: ⟨"pidfile", "b", ["check"], false⟩ ::
        defaultConfig.filter fun item => item.name ≠ "stat_type")) ∧
      named "pidfile" (occurrences twoPidfiles) = [⟨"pidfile", "a", ["check"]⟩, ⟨"pidfile", "b", ["check"]⟩] := by
    decide +kernel
  apply (readConfig_reflects_iff hread.1).mpr
  rw [hread.2]
  rfl

/-- A `pidfile` with a parameter, and one without. -/
def lostParams : Conn := ⟨"pidfile = a ; check\npidfile = b\n".toList, false⟩

/-- The last value stands, with the parameter of the first. -/
theorem readConfig_lostParams :
    readConfig defaultConfig lostParams = .ok (some (⟨"pidfile", "b", ["check"], false⟩ :: defaultConfig)) ∧
      occurrences lostParams = [⟨"pidfile", "a", ["check"]⟩, ⟨"pidfile", "b", []⟩] ∧
      entries "pidfile" (⟨"pidfile", "b", ["check"], false⟩ :: defaultConfig) =
        [⟨"pidfile", "b", ["check"], false⟩] := by
  decide +kernel

/-! ### No item is lost -/

/-- The first item is none of those that are taken off the list. -/
def HeadStays (config : List ConfigItem) : Prop :=
  ∀ item, config.head? = some item → item.isDefault = false ∨ multivalue item.name = false

theorem headStays_cons {o : Occurrence} (config : List ConfigItem) : HeadStays (o.item :: config) := by
  intro item hitem
  cases hitem
  exact .inl rfl

/-- A value that is replaced leaves the first item where it is. -/
theorem HeadStays.replaceValue {config config' : List ConfigItem} {o : Occurrence} (h : HeadStays config)
    (hreplace : replaceValue o config = some config') : HeadStays config' := by
  cases config with
  | nil => cases hreplace
  | cons item config =>
    have hitem := h item rfl
    simp only [Conf.replaceValue] at hreplace
    split_ifs at hreplace
    · cases hreplace
      intro item' hitem'
      cases hitem'
      exact hitem
    · obtain ⟨config₁, -, rfl⟩ := Option.map_eq_some_iff.mp hreplace
      intro item' hitem'
      cases hitem'
      exact hitem

/-- **One option** is recorded without touching an item that is freed. -/
theorem HeadStays.recordConfigItem {config : List ConfigItem} (h : HeadStays config) (o : Occurrence) :
    ∃ config', recordConfigItem config o = .ok config' ∧ HeadStays config' := by
  unfold Conf.recordConfigItem
  by_cases hmulti : multivalue o.name = true
  · have hhead : config.head?.any (·.isDefaultOf o.name) = false := by
      cases hitem : config.head? with
      | none => rfl
      | some item =>
        have hstay := h item hitem
        by_cases hname : item.name = o.name
        · rw [hname, hmulti] at hstay
          simpa [ConfigItem.isDefaultOf, hname] using hstay
        · simp [ConfigItem.isDefaultOf, hname]
    rw [if_pos hmulti, hhead]
    exact ⟨_, rfl, headStays_cons _⟩
  · rw [if_neg hmulti]
    cases hreplace : Conf.replaceValue o config with
    | some config₁ => exact ⟨config₁, rfl, h.replaceValue hreplace⟩
    | none => exact ⟨_, rfl, headStays_cons _⟩

/-- **A whole file**: whatever its options are, each can be recorded. -/
theorem exists_foldlM_recordConfigItem (os : List Occurrence) :
    ∃ config, os.foldlM recordConfigItem defaultConfig = .ok config := by
  have hstart : HeadStays defaultConfig := by
    intro item hitem
    cases hitem
    decide
  obtain ⟨config, hrun, -⟩ := foldlM_inv recordConfigItem HeadStays os (fun _ o _ h => h.recordConfigItem o) hstart
  exact ⟨config, hrun⟩

end

end Gross.Conf
