import MbKeeper.Hooks
import Mathlib.Data.List.DropRight

/-!
# The replication gate

The client prints the row of the replica status in its vertical format, one
field a line, and `check_replication` reads it back line by line. A value may
hold line breaks, so a line need not be a field; of the lines that read like
the lag the last one counts. The gate fails closed exactly when that line tells
no better lag than the row itself.
-/
namespace MbKeeper

/-- What a line shows of the field `name`. -/
def shownOf (name : String) (line : List Char) : Option String :=
  match partitionColon (strip line) with
  | none => none
  | some (key, value) =>
    if String.ofList (strip key) = name then some (String.ofList (strip value)) else none

/-- What the last line that shows the field shows of it. -/
def lastShown (name : String) (text : String) : Option String :=
  ((splitlines text.toList).filterMap (shownOf name)).getLast?

/-- The fields after one more line. -/
def keepLine (fields : List (String × String)) (line : List Char) : List (String × String) :=
  match partitionColon (strip line) with
  | none => fields
  | some (key, value) =>
    (String.ofList (strip key), String.ofList (strip value)) ::
      fields.filter (fun f => f.1 ≠ String.ofList (strip key))

theorem parse_status_block_eq (output : String) :
    parse_status_block output = (splitlines output.toList).foldl keepLine [] := rfl

theorem lookup_filter_ne {key name : String} (h : key ≠ name) (fields : List (String × String)) :
    (fields.filter (fun f => f.1 ≠ key)).lookup name = fields.lookup name := by
  induction fields with
  | nil => rfl
  | cons f fields ih =>
    obtain ⟨k, v⟩ := f
    by_cases hk : k = key
    · have hne : (name == k) = false := by
        rw [beq_eq_false_iff_ne, hk]
        exact h.symm
      rw [List.filter_cons_of_neg (by simp [hk]), ih, List.lookup_cons, hne]
    · rw [List.filter_cons_of_pos (by simp [hk]), List.lookup_cons, List.lookup_cons, ih]

theorem lookup_keepLine (name : String) (fields : List (String × String)) (line : List Char) :
    (keepLine fields line).lookup name = (shownOf name line).or (fields.lookup name) := by
  rw [keepLine, shownOf]
  cases partitionColon (strip line) with
  | none => rfl
  | some p =>
    obtain ⟨key, value⟩ := p
    dsimp only
    by_cases hk : String.ofList (strip key) = name
    · rw [if_pos hk, hk, List.lookup_cons, BEq.rfl]
      rfl
    · have hne : (name == String.ofList (strip key)) = false := by
        rw [beq_eq_false_iff_ne]
        exact Ne.symm hk
      rw [if_neg hk, List.lookup_cons, hne, lookup_filter_ne hk]
      rfl

theorem lookup_foldl_keepLine (name : String) (ls : List (List Char))
    (fields : List (String × String)) : (ls.foldl keepLine fields).lookup name =
      ((ls.filterMap (shownOf name)).getLast?).or (fields.lookup name) := by
  induction ls generalizing fields with
  | nil => rfl
  | cons l ls ih =>
    rw [List.foldl_cons, ih, lookup_keepLine, List.filterMap_cons]
    cases shownOf name l with
    | none => rfl
    | some v =>
      dsimp only
      rw [List.getLast?_cons]
      cases (ls.filterMap (shownOf name)).getLast? <;> rfl

/-- Of the lines that show a field the last one counts. -/
theorem lookup_parse_status_block (name output : String) :
    (parse_status_block output).lookup name = lastShown name output := by
  rw [parse_status_block_eq, lookup_foldl_keepLine, lastShown]
  exact Option.or_none

theorem partitionColon_none_iff (cs : List Char) : partitionColon cs = none ↔ ':' ∉ cs := by
  induction cs with
  | nil => simp [partitionColon]
  | cons c cs ih =>
    rw [partitionColon]
    by_cases hc : c = ':'
    · simp [hc]
    · rw [if_neg hc, Option.map_eq_none_iff, ih]
      simp [Ne.symm hc]

theorem foldl_keepLine_nil_iff (ls : List (List Char)) (fields : List (String × String)) :
    ls.foldl keepLine fields = [] ↔ fields = [] ∧ ∀ l ∈ ls, ':' ∉ l := by
  induction ls generalizing fields with
  | nil => simp
  | cons l ls ih =>
    have hstep : keepLine fields l = [] ↔ fields = [] ∧ ':' ∉ l := by
      rw [← mem_strip_of_not_space (by decide), ← partitionColon_none_iff, keepLine]
      cases partitionColon (strip l) <;> simp
    rw [List.foldl_cons, ih, hstep, List.forall_mem_cons, and_assoc]

/-- Nothing is kept of a text without a colon. -/
theorem parse_status_block_nil_iff (output : String) :
    parse_status_block output = [] ↔ ':' ∉ output.toList := by
  rw [parse_status_block_eq, foldl_keepLine_nil_iff]
  constructor
  · intro h hc
    obtain ⟨l, hl, hcl⟩ := exists_mem_splitlines hc (by decide) (by decide)
    exact h.2 l hl hcl
  · exact fun h => ⟨rfl, fun l hl hc => h ((mem_splitlines hl).2 _ hc)⟩

/-- A row of the replica status; a field is NULL or has a text. -/
structure StatusRow where
  fields : List (String × Option String)
  distinct : (fields.map Prod.fst).Nodup

def rowHeader : String := "*************************** 1. row ***************************"

def shownValue (value : Option String) : String := value.getD "NULL"

/-- The name, padded on the left, and the value. -/
def fieldLine (width : ℕ) (f : String × Option String) : List Char :=
  List.replicate (width - f.1.length) ' ' ++ f.1.toList ++ ':' :: ' ' :: (shownValue f.2).toList

namespace StatusRow

def width (row : StatusRow) : ℕ := (row.fields.map (fun f => f.1.length)).foldr max 0

/-- The output of the client. -/
def print (row : StatusRow) : String :=
  String.ofList ((rowHeader.toList :: row.fields.map (fieldLine row.width)).flatMap (· ++ ['\n']))

def LAG_FIELD : String := "Seconds_Behind_Master"

/-- The lag the row itself has; none when it is NULL or there is no such field. -/
def lag (row : StatusRow) : Option String := (row.fields.lookup LAG_FIELD).join

/-- The row's own lag is an integer of at most `max_lag_seconds`. -/
def Within (row : StatusRow) (max_lag_seconds : ℕ) : Prop :=
  ∃ v z, row.lag = some v ∧ pyInt v.toList = some z ∧ z ≤ max_lag_seconds

theorem print_nil_iff (row : StatusRow) : parse_status_block row.print = [] ↔ row.fields = [] := by
  rw [parse_status_block_nil_iff, print, String.toList_ofList]
  constructor
  · intro h
    by_contra hne
    obtain ⟨f, hf⟩ := List.exists_mem_of_ne_nil _ hne
    refine h (List.mem_flatMap.mpr ⟨fieldLine row.width f, ?_, ?_⟩)
    · exact List.mem_cons_of_mem _ (List.mem_map_of_mem hf)
    · simp [fieldLine]
  · intro h
    rw [h, List.map_nil]
    decide

end StatusRow

theorem rdropWhile_cons {α : Type*} (p : α → Bool) (a : α) (l : List α) :
    (a :: l).rdropWhile p =
      if l.rdropWhile p = [] then (if p a then [] else [a]) else a :: l.rdropWhile p := by
  simp only [List.rdropWhile, List.reverse_cons, List.dropWhile_append, List.isEmpty_iff,
    List.reverse_eq_nil_iff]
  by_cases h : l.reverse.dropWhile p = []
  · rw [if_pos h, if_pos h]
    cases ha : p a <;> simp [ha]
  · rw [if_neg h, if_neg h]
    simp

theorem dropWhile_rdropWhile {α : Type*} (p : α → Bool) (l : List α) :
    (l.rdropWhile p).dropWhile p = (l.dropWhile p).rdropWhile p := by
  induction l with
  | nil => rfl
  | cons a l ih =>
    rw [rdropWhile_cons]
    by_cases ha : p a = true
    · rw [List.dropWhile_cons_of_pos ha, ← ih]
      by_cases hl : l.rdropWhile p = []
      · simp [hl, ha]
      · rw [if_neg hl, List.dropWhile_cons_of_pos ha]
    · rw [List.dropWhile_cons_of_neg ha, rdropWhile_cons]
      split_ifs with hl
      · rw [List.dropWhile_cons_of_neg ha]
      · rw [List.dropWhile_cons_of_neg ha]

theorem strip_eq_rdropWhile (l : List Char) :
    strip l = (l.dropWhile isSpace).rdropWhile isSpace := rfl

theorem strip_rdropWhile (l : List Char) : strip (l.rdropWhile isSpace) = strip l := by
  rw [strip_eq_rdropWhile, dropWhile_rdropWhile, List.rdropWhile_idempotent, strip_eq_rdropWhile]

theorem strip_cons_space (l : List Char) : strip (' ' :: l) = strip l := by
  rw [strip_eq_rdropWhile, List.dropWhile_cons_of_pos (by decide), strip_eq_rdropWhile]

theorem strip_strip (l : List Char) : strip (strip l) = strip l := by
  rw [strip_eq_rdropWhile l, strip_rdropWhile, strip_eq_rdropWhile, List.dropWhile_idempotent]

theorem partitionColon_append {l : List Char} (h : ':' ∉ l) (r : List Char) :
    partitionColon (l ++ ':' :: r) = some (l, r) := by
  induction l with
  | nil => rfl
  | cons c l ih =>
    obtain ⟨hc, hl⟩ := not_or.mp (List.mem_cons.not.mp h)
    rw [List.cons_append, partitionColon, if_neg (Ne.symm hc), ih hl]
    rfl

/-- A field's name without white space and colons. -/
structure PlainField (name : String) : Prop where
  nonempty : name ≠ ""
  space : ∀ c ∈ name.toList, isSpace c = false
  colon : ':' ∉ name.toList

/-- The line of a field is stripped to its name, the colon and what follows. -/
theorem strip_fieldLine {f : String × Option String} (hf : PlainField f.1) (width : ℕ) :
    strip (fieldLine width f) =
      f.1.toList ++ ':' :: (' ' :: (shownValue f.2).toList).rdropWhile isSpace := by
  have hpad : ∀ c ∈ List.replicate (width - f.1.length) ' ', isSpace c = true := by
    intro c hc
    rw [List.eq_of_mem_replicate hc]
    decide
  have hhead : ∀ r, (f.1.toList ++ r).dropWhile isSpace = f.1.toList ++ r := by
    intro r
    cases hname : f.1.toList with
    | nil => exact absurd (String.toList_eq_nil_iff.mp hname) hf.nonempty
    | cons c cs =>
      have hc := hf.space c (by simp [hname])
      rw [List.cons_append, List.dropWhile_cons_of_neg (by simp [hc])]
  have htail : ∀ l r : List Char, (l ++ ':' :: r).rdropWhile isSpace =
      l ++ ':' :: r.rdropWhile isSpace := by
    intro l r
    induction l with
    | nil =>
      rw [List.nil_append, List.nil_append, rdropWhile_cons]
      split_ifs with hr hc
      · cases hc
      · rw [hr]
      · rfl
    | cons c l ih =>
      rw [List.cons_append, List.cons_append, rdropWhile_cons, ih, if_neg (by simp)]
  rw [strip_eq_rdropWhile, fieldLine, List.append_assoc, List.dropWhile_append_of_pos hpad, hhead,
    htail]

theorem shownOf_fieldLine {f : String × Option String} (hf : PlainField f.1) (name : String)
    (width : ℕ) : shownOf name (fieldLine width f) =
      if f.1 = name then some (String.ofList (strip (shownValue f.2).toList)) else none := by
  rw [shownOf, strip_fieldLine hf, partitionColon_append hf.colon]
  dsimp only
  rw [strip_eq_self hf.space, String.ofList_toList, strip_rdropWhile, strip_cons_space]

namespace StatusRow

/-- Every field is printed on one line that starts with its name. -/
structure Plain (row : StatusRow) : Prop where
  names : ∀ f ∈ row.fields, PlainField f.1
  values : ∀ f ∈ row.fields, OneLine (shownValue f.2).toList

theorem splitlines_print {row : StatusRow} (h : row.Plain) :
    splitlines row.print.toList = rowHeader.toList :: row.fields.map (fieldLine row.width) := by
  rw [print, String.toList_ofList, splitlines_flatMap]
  intro l hl
  rcases List.mem_cons.mp hl with rfl | hl
  · have hheader : ∀ c ∈ rowHeader.toList, c ≠ '\r' ∧ isLineBreak c = false := by decide
    exact hheader
  · obtain ⟨f, hf, rfl⟩ := List.mem_map.mp hl
    have hname := oneLine_of_no_space (h.names f hf).space
    have hvalue := h.values f hf
    intro c hc
    simp only [fieldLine, List.mem_append, List.mem_cons] at hc
    rcases hc with (hc | hc) | rfl | rfl | hc
    · rw [List.eq_of_mem_replicate hc]
      decide
    · exact hname c hc
    · decide
    · decide
    · exact hvalue c hc

/-- Of distinct fields the one of a name is the last of that name. -/
theorem getLast?_filterMap_distinct {α : Type} {fields : List (String × Option String)}
    (h : (fields.map Prod.fst).Nodup) (name : String) (g : Option String → α) :
    (fields.filterMap (fun f => if f.1 = name then some (g f.2) else none)).getLast? =
      (fields.lookup name).map g := by
  induction fields with
  | nil => rfl
  | cons f fields ih =>
    obtain ⟨hf, hfields⟩ := List.nodup_cons.mp h
    obtain ⟨k, v⟩ := f
    rw [List.filterMap_cons, List.lookup_cons]
    by_cases hk : k = name
    · subst hk
      have hnone : fields.filterMap (fun f => if f.1 = k then some (g f.2) else none) = [] := by
        rw [List.filterMap_eq_nil_iff]
        intro f' hf'
        exact if_neg (fun he => hf (List.mem_map.mpr ⟨f', hf', he⟩))
      simp [hnone]
    · have hne : (name == k) = false := by
        rw [beq_eq_false_iff_ne]
        exact Ne.symm hk
      simp only [if_neg hk, hne]
      exact ih hfields

/-- The parser undoes the printer on the lag of a plain row. -/
theorem lastShown_print {row : StatusRow} (h : row.Plain) :
    lastShown LAG_FIELD row.print = (row.fields.lookup LAG_FIELD).map
      (fun v => String.ofList (strip (shownValue v).toList)) := by
  have hheader : shownOf LAG_FIELD rowHeader.toList = none := by decide
  have hfields : row.fields.filterMap (shownOf LAG_FIELD ∘ fieldLine row.width) =
      row.fields.filterMap (fun f => if f.1 = LAG_FIELD then
        some (String.ofList (strip (shownValue f.2).toList)) else none) := by
    refine List.filterMap_congr (fun f hf => ?_)
    exact shownOf_fieldLine (h.names f hf) _ _
  rw [lastShown, splitlines_print h, List.filterMap_cons, hheader, List.filterMap_map, hfields]
  exact getLast?_filterMap_distinct row.distinct LAG_FIELD
    (fun v => String.ofList (strip (shownValue v).toList))

end StatusRow

section

variable (backup : BackupConfig) (replication : ReplicationConfig)

/-- The client with its options files. -/
def clientArgv : List Toml :=
  [replication.client_path] ++
    (if backup.defaults_file.truthy then
      [.str s!"--defaults-file={backup.defaults_file.pyStr}"] else []) ++
    (if backup.defaults_extra_file.truthy then
      [.str s!"--defaults-extra-file={backup.defaults_extra_file.pyStr}"] else [])

/-- What the system takes as an argument vector. -/
structure Startable (argv : List Toml) : Prop where
  nonempty : argv ≠ []
  strings : argv.all Toml.isStr = true
  nul : ∀ a ∈ argv, hasNul a.pyStr = false

theorem subprocess_run_startable {argv : List Toml} (h : Startable argv) :
    subprocess_run argv = ask fun r _ => ⟨r.status, r.stdout, r.stderr⟩ := by
  have hnul : (argv.map Toml.pyStr).any hasNul = false := by
    simpa using h.nul
  rw [subprocess_run, argvStrings, if_pos h.strings]
  cases hargv : argv.map Toml.pyStr with
  | nil => exact absurd (List.map_eq_nil_iff.mp hargv) h.nonempty
  | cons a args =>
    rw [hargv] at hnul
    dsimp only
    rw [hnul]
    rfl

theorem startable_of_ok {argv : List Toml} {w w' : World} {proc : CompletedProcess}
    (h : exec (subprocess_run argv) w = (.ok proc, w')) : Startable argv := by
  rw [subprocess_run, argvStrings] at h
  by_cases hstr : argv.all Toml.isStr = true
  · rw [if_pos hstr] at h
    cases hargv : argv.map Toml.pyStr with
    | nil =>
      rw [hargv] at h
      cases h
    | cons a args =>
      rw [hargv] at h
      dsimp only at h
      by_cases hnul : (a :: args).any hasNul = true
      · rw [if_pos hnul] at h
        cases h
      · rw [← hargv] at hnul
        refine ⟨?_, hstr, by simpa using hnul⟩
        rintro rfl
        cases hargv
  · rw [if_neg hstr] at h
    cases h

/-- What becomes of a client that could not be run. -/
def clientFailed : Exn → Io CompletedProcess
  | .os m | .subprocess m =>
    throw (.precondition s!"failed to run {replication.client_path.pyStr}: {m}")
  | e => throw e

/-- What becomes of a client that ended. -/
def clientEnded (proc : CompletedProcess) : Io String :=
  if proc.returncode ≠ 0 then
    let code := String.ofList (intText proc.returncode)
    let detail := stripText proc.stderr
    throw (.precondition
      s!"{replication.client_path.pyStr} failed (returncode={code}): {detail}")
  else pure proc.stdout

theorem run_client_eq (sql : String) : run_client backup replication sql = (do
    let proc ← tryCatch (subprocess_run (clientArgv backup replication ++ [.str "-e", .str sql]))
      (clientFailed replication)
    clientEnded replication proc) := by
  unfold run_client clientFailed clientEnded clientArgv
  rfl

variable {backup replication}

theorem run_client_startable {sql out : String} {w w' : World}
    (h : exec (run_client backup replication sql) w = (.ok out, w')) :
    Startable (clientArgv backup replication ++ [.str "-e", .str sql]) := by
  rw [run_client_eq] at h
  obtain ⟨proc, u, hproc, -⟩ := exec_bind_eq_ok h
  rw [exec_tryCatch] at hproc
  rcases hrun :
    exec (subprocess_run (clientArgv backup replication ++ [.str "-e", .str sql])) w with
    ⟨e | p, v⟩
  · rw [hrun] at hproc
    cases e <;> cases hproc
  · exact startable_of_ok hrun

/-- A client that was started once can be asked again. -/
theorem Startable.another {sql : String}
    (h : Startable (clientArgv backup replication ++ [.str "-e", .str sql])) (sql' : String)
    (hnul : hasNul sql' = false) :
    Startable (clientArgv backup replication ++ [.str "-e", .str sql']) := by
  have hstr := h.strings
  have hn := h.nul
  simp only [List.all_append, Bool.and_eq_true] at hstr
  refine ⟨by simp, ?_, ?_⟩
  · rw [List.all_append, hstr.1]
    rfl
  · intro a ha
    rcases List.mem_append.mp ha with ha | ha
    · exact hn a (List.mem_append_left _ ha)
    · rcases List.mem_cons.mp ha with rfl | ha
      · decide
      · rw [List.mem_singleton.mp ha]
        exact hnul

/-- The version is asked for without a word on failures, but for output that is no text. -/
theorem query_server_version_cases {sql : String} {w : World} (hw : Usual w)
    (h : Startable (clientArgv backup replication ++ [.str "-e", .str sql])) :
    (∃ version u, exec (query_server_version backup replication) w = (.ok version, u) ∧
        ∀ m, (w.tape 0).fault ≠ some (.unicode m)) ∨
      ∃ m u, exec (query_server_version backup replication) w = (.error (.unicode m), u) ∧
        (w.tape 0).fault = some (.unicode m) := by
  have hask := subprocess_run_startable (h.another "SELECT VERSION()" (by decide))
  rw [query_server_version, exec_tryCatch, exec_bind, run_client_eq, hask, exec_bind,
    exec_tryCatch, exec_ask]
  rw [Usual] at hw
  cases hf : (w.tape 0).fault with
  | none =>
    refine .inl ?_
    by_cases hs : (w.tape 0).status = 0
    · simp only [clientEnded, hs]
      exact ⟨_, _, rfl, fun _ hx => by cases hx⟩
    · simp only [clientEnded, ne_eq, hs, not_false_eq_true, if_true]
      exact ⟨_, _, rfl, fun _ hx => by cases hx⟩
  | some e =>
    rw [hf] at hw
    cases e with
    | os m => exact .inl ⟨_, _, rfl, fun _ hx => by cases hx⟩
    | subprocess m => exact .inl ⟨_, _, rfl, fun _ hx => by cases hx⟩
    | unicode m => exact .inr ⟨m, _, rfl, rfl⟩
    | _ => exact hw.elim

/-- The gate lets a run through on a lag within the limit only, and says no in one way. -/
structure FailsClosed (row : StatusRow) (max_lag_seconds : ℕ)
    (res : Except Exn ReplicationState) : Prop where
  returns : ∀ state, res = .ok state → row.Within max_lag_seconds
  refuses : ¬ row.Within max_lag_seconds → ∃ message, res = .error (.precondition message)
  only : ∀ e, res = .error e → ∃ message, e = .precondition message

/-- A row that cannot be misread: it has a field, or one is required; and where its last line
that shows a lag shows digits, these are an integer, which is within the limit only if the row's
own lag is and the answer on the version is text. -/
def Legible (row : StatusRow) (replication : ReplicationConfig) (w : World) : Prop :=
  (row.fields = [] → replication.mode = "require_replica") ∧
    ∀ v, lastShown StatusRow.LAG_FIELD row.print = some v → isDigitText v = true →
      ∃ z, pyInt v.toList = some z ∧ (z ≤ replication.max_lag_seconds →
        row.Within replication.max_lag_seconds ∧ ∀ m, (w.tape 0).fault ≠ some (.unicode m))

theorem failsClosed_of_precondition {row : StatusRow} {m : ℕ} (message : String) :
    FailsClosed row m (.error (.precondition message)) where
  returns _ h := by cases h
  refuses _ := ⟨message, rfl⟩
  only e h := ⟨message, (Except.error.inj h).symm⟩

/-- What the check does with the fields it has read. -/
def decideOn (backup : BackupConfig) (replication : ReplicationConfig)
    (fields : List (String × String)) : Io ReplicationState :=
  if replication.mode = "require_replica" ∧ fields = [] then
    throw (.precondition ("replication.mode=require_replica but SHOW REPLICA STATUS returned " ++
      "no rows (this node is not configured as a replica)"))
  else do
    let lag_seconds ← liftExcept (if fields ≠ [] then lagOf fields else .ok none)
    checkLag replication (fields ≠ []) lag_seconds
    let server_version ← query_server_version backup replication
    pure ⟨fields ≠ [], lag_seconds, server_version⟩

theorem check_replication_eq : check_replication backup replication = (do
    let status_output ← run_client backup replication "SHOW REPLICA STATUS\\G"
    decideOn backup replication (parse_status_block status_output)) := rfl

theorem lagOf_parse (text : String) : lagOf (parse_status_block text) =
    match lastShown StatusRow.LAG_FIELD text with
    | none => .ok none
    | some v => if isDigitText v then (pyIntText v).map some else .ok none := by
  have hempty : isDigitText "" = false := by decide
  have hlookup := lookup_parse_status_block StatusRow.LAG_FIELD text
  rw [StatusRow.LAG_FIELD] at hlookup
  simp only [lagOf, hlookup, StatusRow.LAG_FIELD]
  cases lastShown "Seconds_Behind_Master" text with
  | none => simp only [Option.getD_none, hempty, Bool.false_eq_true, if_false]
  | some v => simp only [Option.getD_some]

variable {row : StatusRow} {fields : List (String × String)} {w : World}

/-- Without a field the gate closes only where a replica is required. -/
theorem decideOn_nil (hw : Usual w) {sql : String}
    (hstart : Startable (clientArgv backup replication ++ [.str "-e", .str sql]))
    (hrow : ¬ row.Within replication.max_lag_seconds) :
    FailsClosed row replication.max_lag_seconds (exec (decideOn backup replication []) w).1 ↔
      replication.mode = "require_replica" := by
  by_cases hmode : replication.mode = "require_replica"
  · refine iff_of_true ?_ hmode
    rw [decideOn, if_pos ⟨hmode, rfl⟩]
    exact failsClosed_of_precondition _
  · refine iff_of_false (fun hclosed => ?_) hmode
    have hrest : exec (decideOn backup replication []) w = exec (do
        let server_version ← query_server_version backup replication
        pure ⟨false, none, server_version⟩) w := by
      rw [decideOn, if_neg (fun h => hmode h.1)]
      rfl
    obtain ⟨message, hm⟩ := hclosed.refuses hrow
    rw [hrest] at hm
    rcases query_server_version_cases hw hstart with ⟨v, u, hv, -⟩ | ⟨m, u, hv, -⟩
    · rw [exec_bind_ok hv] at hm
      cases hm
    · rw [exec_bind_error hv] at hm
      cases hm

/-- What is read of the lag decides, once there is a field. -/
theorem decideOn_lag (hfields : fields ≠ []) {lag : Except Exn (Option ℤ)}
    (hlag : lagOf fields = lag) :
    exec (decideOn backup replication fields) w = exec (do
      let lag_seconds ← liftExcept lag
      checkLag replication true lag_seconds
      let server_version ← query_server_version backup replication
      pure ⟨true, lag_seconds, server_version⟩) w := by
  rw [decideOn, if_neg (fun h => hfields h.2), if_pos hfields, hlag]
  simp [hfields]

theorem checkLag_unknown (hmax : 0 < replication.max_lag_seconds) :
    ∃ message, exec (checkLag replication true none) w = (.error (.precondition message), w) := by
  rw [checkLag, if_pos ⟨rfl, hmax⟩]
  exact ⟨_, rfl⟩

theorem checkLag_known (hmax : 0 < replication.max_lag_seconds) (lag : ℤ) :
    (lag ≤ replication.max_lag_seconds ∧
      exec (checkLag replication true (some lag)) w = (.ok (), w)) ∨
      ¬ lag ≤ replication.max_lag_seconds ∧ ∃ message,
        exec (checkLag replication true (some lag)) w = (.error (.precondition message), w) := by
  rw [checkLag, if_pos ⟨rfl, hmax⟩]
  dsimp only
  by_cases hlag : lag ≤ replication.max_lag_seconds
  · rw [if_neg (by omega)]
    exact .inl ⟨hlag, rfl⟩
  · rw [if_pos (by omega)]
    exact .inr ⟨hlag, _, rfl⟩

/-- A lag that was read is held against the limit, and then the version is asked for. -/
theorem decideOn_read (hw : Usual w) {sql : String}
    (hstart : Startable (clientArgv backup replication ++ [.str "-e", .str sql]))
    (hmax : 0 < replication.max_lag_seconds) (hfields : fields ≠ []) {lag : ℤ}
    (hlag : lagOf fields = .ok (some lag)) :
    FailsClosed row replication.max_lag_seconds (exec (decideOn backup replication fields) w).1 ↔
      (lag ≤ replication.max_lag_seconds →
        row.Within replication.max_lag_seconds ∧ ∀ m, (w.tape 0).fault ≠ some (.unicode m)) := by
  rw [decideOn_lag hfields hlag]
  change FailsClosed _ _ (exec (checkLag replication true (some lag) >>= _) w).1 ↔ _
  rcases checkLag_known (w := w) hmax lag with ⟨hle, hok⟩ | ⟨hgt, message, herror⟩
  · rw [exec_bind_ok hok]
    rcases query_server_version_cases hw hstart with ⟨v, u, hv, htext⟩ | ⟨m, u, hv, hf⟩
    · rw [exec_bind_ok hv]
      constructor
      · exact fun hc _ => ⟨hc.returns _ rfl, htext⟩
      · intro h
        have hwithin := (h hle).1
        exact ⟨fun _ _ => hwithin, fun hn => absurd hwithin hn, fun e he => by cases he⟩
    · rw [exec_bind_error hv]
      refine iff_of_false (fun hc => ?_) (fun h => (h hle).2 m hf)
      obtain ⟨message, hm⟩ := hc.only _ rfl
      cases hm
  · rw [exec_bind_error herror]
    exact iff_of_true (failsClosed_of_precondition message) (fun hle => absurd hle hgt)

/-- With fields the gate closes as far as the lag that is read can be trusted. -/
theorem decideOn_cons (hw : Usual w) {sql text : String}
    (hstart : Startable (clientArgv backup replication ++ [.str "-e", .str sql]))
    (hmax : 0 < replication.max_lag_seconds) (hfields : parse_status_block text ≠ []) :
    FailsClosed row replication.max_lag_seconds
        (exec (decideOn backup replication (parse_status_block text)) w).1 ↔
      ∀ v, lastShown StatusRow.LAG_FIELD text = some v → isDigitText v = true →
        ∃ z, pyInt v.toList = some z ∧ (z ≤ replication.max_lag_seconds →
          row.Within replication.max_lag_seconds ∧ ∀ m, (w.tape 0).fault ≠ some (.unicode m)) := by
  have hunknown : ∀ {lag}, lagOf (parse_status_block text) = lag → lag = .ok none →
      FailsClosed row replication.max_lag_seconds
        (exec (decideOn backup replication (parse_status_block text)) w).1 := by
    intro lag hlag hnone
    obtain ⟨message, hm⟩ := checkLag_unknown (w := w) hmax
    rw [decideOn_lag hfields hlag, hnone]
    change FailsClosed _ _ (exec (checkLag replication true none >>= _) w).1
    rw [exec_bind_error hm]
    exact failsClosed_of_precondition message
  have hread := lagOf_parse text
  cases hshown : lastShown StatusRow.LAG_FIELD text with
  | none =>
    rw [hshown] at hread
    exact iff_of_true (hunknown hread rfl) (fun v hv => by cases hv)
  | some v =>
    rw [hshown] at hread
    cases hdigits : isDigitText v with
    | false =>
      simp only [hdigits] at hread
      refine iff_of_true (hunknown hread rfl) (fun u hu hd => ?_)
      rw [← Option.some.inj hu, hdigits] at hd
      cases hd
    | true =>
      simp only [hdigits, if_true] at hread
      cases hint : pyInt v.toList with
      | none =>
        rw [pyIntText, hint] at hread
        refine iff_of_false (fun hc => ?_) (fun h => ?_)
        · rw [decideOn_lag hfields hread] at hc
          obtain ⟨message, hm⟩ := hc.only _ rfl
          cases hm
        · obtain ⟨z, hz, -⟩ := h v rfl hdigits
          rw [hint] at hz
          cases hz
      | some z =>
        rw [pyIntText, hint] at hread
        rw [decideOn_read hw hstart hmax hfields hread]
        constructor
        · intro h u hu _
          rw [← Option.some.inj hu]
          exact ⟨z, hint, h⟩
        · intro h
          obtain ⟨z', hz', hle⟩ := h v rfl hdigits
          rw [hint] at hz'
          rwa [← Option.some.inj hz'] at hle

/-- For every row that the client prints and every limit that is set, the gate fails closed
exactly when the row cannot be misread. -/
theorem replication_gate_iff {w' : World} (hmax : 0 < replication.max_lag_seconds)
    (hprint : exec (run_client backup replication "SHOW REPLICA STATUS\\G") w = (.ok row.print, w'))
    (hw : Usual w') :
    FailsClosed row replication.max_lag_seconds (exec (check_replication backup replication) w).1 ↔
      Legible row replication w' := by
  have hstart := run_client_startable hprint
  rw [check_replication_eq, exec_bind_ok hprint, Legible]
  by_cases hrow : row.fields = []
  · have hnil := row.print_nil_iff.mpr hrow
    have hwithin : ¬ row.Within replication.max_lag_seconds := by
      rintro ⟨v, z, hv, -⟩
      rw [StatusRow.lag, hrow] at hv
      cases hv
    have hshown : lastShown StatusRow.LAG_FIELD row.print = none := by
      rw [← lookup_parse_status_block, hnil]
      rfl
    rw [hnil, decideOn_nil hw hstart hwithin, hshown]
    simp [hrow]
  · have hfields := row.print_nil_iff.not.mpr hrow
    rw [decideOn_cons hw hstart hmax hfields]
    simp [hrow]

/-- A plain row is misread only where its own lag shows digits that are no integer, or where the
answer on the version is no text. -/
theorem legible_of_plain (h : row.Plain) (hne : row.fields ≠ [])
    (hdigits : ∀ v, row.lag = some v → isDigitText (stripText v) = true →
      (pyInt v.toList).isSome = true)
    (htext : ∀ m, (w.tape 0).fault ≠ some (.unicode m)) : Legible row replication w := by
  refine ⟨fun hnil => absurd hnil hne, fun shown hshown hd => ?_⟩
  rw [StatusRow.lastShown_print h] at hshown
  obtain ⟨value, hvalue, rfl⟩ := Option.map_eq_some_iff.mp hshown
  cases value with
  | none =>
    have hnull : isDigitText (String.ofList (strip (shownValue none).toList)) = false := by decide
    rw [hnull] at hd
    cases hd
  | some v =>
    have hlag : row.lag = some v := by rw [StatusRow.lag, hvalue]; rfl
    obtain ⟨z, hz⟩ := Option.isSome_iff_exists.mp (hdigits v hlag hd)
    refine ⟨z, ?_, fun hle => ⟨⟨v, z, hlag, hz, hle⟩, htext⟩⟩
    rw [String.toList_ofList, pyInt, shownValue, Option.getD_some, strip_strip]
    exact hz

end

/-- The client prints the row, and answers on the version. -/
def statusWorld (row : StatusRow) : World :=
  { smallWorld smallTree with tape := fun n =>
      if n = 0 then { Reply.good 0 with stdout := row.print }
      else { Reply.good 0 with stdout := "VERSION()\n11.4.2-MariaDB\n" } }

/-- A replica that lags behind and reports an error whose second line looks like a field. -/
def laggingRow : StatusRow :=
  ⟨[("Slave_IO_State", none), ("Seconds_Behind_Master", some "9000"),
    ("Last_SQL_Error", some "Error in query\nSeconds_Behind_Master: 0")], by decide⟩

/-- A minute at most. -/
def minuteLimit : ReplicationConfig := ⟨"off", 60, true, .str "mariadb"⟩

theorem statusWorld_answers (row : StatusRow) :
    exec (run_client (smallConfig "/w" "p" "/b" 1).backup minuteLimit "SHOW REPLICA STATUS\\G")
      (statusWorld row) = (.ok row.print, (statusWorld row).next) := rfl

/-- The check lets it through. -/
theorem lagging_row_passes :
    (exec (run_client (smallConfig "/w" "p" "/b" 1).backup minuteLimit "SHOW REPLICA STATUS\\G")
        (statusWorld laggingRow)).1 = .ok laggingRow.print ∧
      laggingRow.lag = some "9000" ∧
      (∃ state, (exec (check_replication (smallConfig "/w" "p" "/b" 1).backup minuteLimit)
        (statusWorld laggingRow)).1 = .ok state) ∧
      ¬ FailsClosed laggingRow 60 (exec (check_replication (smallConfig "/w" "p" "/b" 1).backup
        minuteLimit) (statusWorld laggingRow)).1 := by
  have hpass : ((exec (check_replication (smallConfig "/w" "p" "/b" 1).backup minuteLimit)
      (statusWorld laggingRow)).1.map (fun state => state.lag_seconds)) = .ok (some 0) := by
    decide +kernel
  have hlag : laggingRow.lag = some "9000" := by decide
  have hreturns : ∃ state,
      (exec (check_replication (smallConfig "/w" "p" "/b" 1).backup minuteLimit)
      (statusWorld laggingRow)).1 = .ok state := by
    cases hres : (exec (check_replication (smallConfig "/w" "p" "/b" 1).backup minuteLimit)
        (statusWorld laggingRow)).1 with
    | error e =>
      rw [hres] at hpass
      cases hpass
    | ok state => exact ⟨state, rfl⟩
  refine ⟨congrArg Prod.fst (statusWorld_answers laggingRow), hlag, hreturns, fun hclosed => ?_⟩
  obtain ⟨state, hstate⟩ := hreturns
  obtain ⟨v, z, hv, hz, hle⟩ := hclosed.returns state hstate
  rw [hlag] at hv
  obtain rfl := Option.some.inj hv
  have hnine : pyInt "9000".toList = some 9000 := by decide
  rw [hnine] at hz
  rw [← Option.some.inj hz] at hle
  exact absurd hle (by decide)

/-- The same lag in a row of single lines. -/
def plainRow : StatusRow :=
  ⟨[("Slave_IO_State", none), ("Seconds_Behind_Master", some "9000")], by decide⟩

theorem plainRow_plain : plainRow.Plain where
  names f hf := by
    have hall : ∀ f ∈ plainRow.fields, f.1 ≠ "" ∧ (∀ c ∈ f.1.toList, isSpace c = false) ∧
        ':' ∉ f.1.toList := by decide
    exact ⟨(hall f hf).1, (hall f hf).2.1, (hall f hf).2.2⟩
  values f hf := by
    have hall : ∀ f ∈ plainRow.fields, ∀ c ∈ (shownValue f.2).toList,
        c ≠ '\r' ∧ isLineBreak c = false := by decide
    exact hall f hf

theorem replication_gate_iff_plain :
    FailsClosed plainRow 60 (exec (check_replication (smallConfig "/w" "p" "/b" 1).backup
      minuteLimit) (statusWorld plainRow)).1 := by
  have hlegible : Legible plainRow minuteLimit (statusWorld plainRow).next := by
    refine legible_of_plain plainRow_plain (by decide) (fun v hv _ => ?_)
      (fun m => by simp [statusWorld, World.next, Reply.good])
    have hlag : plainRow.lag = some "9000" := by decide
    rw [hlag] at hv
    rw [← Option.some.inj hv]
    decide
  exact (replication_gate_iff (by decide) (statusWorld_answers plainRow) trivial).mpr hlegible

end MbKeeper
