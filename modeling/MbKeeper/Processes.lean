import MbKeeper.Config

/-!
# Started processes: hooks and the replication check

`subprocess_run` starts a process and waits for it; what the process prints and
how it ends is the reply. Hooks split their command as a POSIX shell would and
only `pre_backup` may abort the run. `check_replication` asks the client of the
server and fails closed on what it does not understand.
-/
namespace MbKeeper

structure CompletedProcess where
  returncode : ℤ
  stdout : String
  stderr : String
  deriving Repr

/-- The parts of an argument vector, which must be strings. -/
def argvStrings (argv : List Toml) : Except Exn (List String) :=
  if argv.all Toml.isStr then .ok (argv.map Toml.pyStr)
  else .error (.type "expected str, bytes or os.PathLike object")

/-- `subprocess.run(argv, capture_output=True, text=True, …)` -/
def subprocess_run (argv : List Toml) : Io CompletedProcess :=
  match argvStrings argv with
  | .error e => throw e
  | .ok [] => throw (.index "list index out of range")
  | .ok args =>
    if args.any hasNul then throw (.value "embedded null byte")
    else ask fun r _ => ⟨r.status, r.stdout, r.stderr⟩

theorem subprocess_run_moves (argv : List Toml) : Moves Same (subprocess_run argv) := by
  unfold subprocess_run
  split
  · exact Moves.throw _
  · exact Moves.throw _
  · split_ifs
    · exact Moves.throw _
    · intro w
      rw [exec_ask_state]
      exact same_next w

def stripText (s : String) : String := String.ofList (strip s.toList)

/-- The states of `shlex` in POSIX mode. -/
inductive ShlexState where
  | blank
  | word
  | single
  | double
  | escaped
  | escapedInDouble
  deriving DecidableEq, Repr

def isShlexSpace (c : Char) : Bool := c = ' ' ∨ c = '\t' ∨ c = '\r' ∨ c = '\n'

/-- The words of a command from a state of the reader; `token` is the word being read and
`quoted` says whether a part of it was in quotes. -/
def shlexFrom : ShlexState → List Char → Bool → List Char → Except Exn (List String)
  | .blank, _, _, [] => .ok []
  | .word, token, quoted, [] =>
    .ok (if token ≠ [] ∨ quoted then [String.ofList token] else [])
  | .single, _, _, [] | .double, _, _, [] => .error (.value "No closing quotation")
  | .escaped, _, _, [] | .escapedInDouble, _, _, [] => .error (.value "No escaped character")
  | .blank, _, _, c :: cs =>
    if isShlexSpace c then shlexFrom .blank [] false cs
    else if c = '\\' then shlexFrom .escaped [] false cs
    else if c = '\'' then shlexFrom .single [] true cs
    else if c = '"' then shlexFrom .double [] true cs
    else shlexFrom .word [c] false cs
  | .word, token, quoted, c :: cs =>
    if isShlexSpace c then do
      let rest ← shlexFrom .blank [] false cs
      pure (if token ≠ [] ∨ quoted then String.ofList token :: rest else rest)
    else if c = '\'' then shlexFrom .single token true cs
    else if c = '"' then shlexFrom .double token true cs
    else if c = '\\' then shlexFrom .escaped token quoted cs
    else shlexFrom .word (token ++ [c]) quoted cs
  | .single, token, quoted, c :: cs =>
    if c = '\'' then shlexFrom .word token quoted cs else shlexFrom .single (token ++ [c]) quoted cs
  | .double, token, quoted, c :: cs =>
    if c = '"' then shlexFrom .word token quoted cs
    else if c = '\\' then shlexFrom .escapedInDouble token quoted cs
    else shlexFrom .double (token ++ [c]) quoted cs
  | .escaped, token, quoted, c :: cs => shlexFrom .word (token ++ [c]) quoted cs
  | .escapedInDouble, token, quoted, c :: cs =>
    if c = '"' ∨ c = '\\' then shlexFrom .double (token ++ [c]) quoted cs
    else shlexFrom .double (token ++ ['\\', c]) quoted cs

/-- `shlex.split(command)` -/
def shlex_split (command : String) : Except Exn (List String) :=
  shlexFrom .blank [] false command.toList

/-- `_handle_failure` -/
def hookFailed (message : String) (fail_fast : Bool) : Io Unit :=
  if fail_fast then throw (.precondition message) else pure ()

/-- What `run_hook` does with the outcome of its process. -/
def hookEnded (command : String) (fail_fast : Bool) (proc : CompletedProcess) : Io Unit :=
  if proc.returncode ≠ 0 then
    let code := String.ofList (intText proc.returncode)
    hookFailed s!"hook '{command}' exited with code {code}: {stripText proc.stderr}" fail_fast
  else pure ()

/-- The process of a hook; `none` when it could not be run. -/
def hookProcess (command : String) (fail_fast : Bool) (argv : List String) :
    Io (Option CompletedProcess) :=
  tryCatch (do
    let proc ← subprocess_run (argv.map .str)
    pure (some proc)) fun
    | .os m | .subprocess m => do
      hookFailed s!"hook '{command}' failed to execute: {m}" fail_fast
      pure none
    | e => throw e

def run_hook (command : String) (fail_fast : Bool) : Io Unit :=
  if command = "" then pure ()
  else match shlex_split command with
    | .error e => hookFailed
        s!"hook command could not be parsed: {reprString command}: {e.str}" fail_fast
    | .ok argv => do
      let proc ← hookProcess command fail_fast argv
      match proc with
      | none => pure ()
      | some proc => hookEnded command fail_fast proc

theorem hookFailed_moves (message : String) (fail_fast : Bool) :
    Moves Same (hookFailed message fail_fast) := Moves.ite (Moves.throw _) (Moves.pure _)

theorem run_hook_moves (command : String) (fail_fast : Bool) :
    Moves Same (run_hook command fail_fast) := by
  refine Moves.ite (Moves.pure _) ?_
  split
  · exact hookFailed_moves _ _
  · refine Moves.bind (Moves.tryCatch (Moves.bind (subprocess_run_moves _)
      (fun _ => Moves.pure _)) (fun e => ?_)) (fun proc => ?_)
    · split
      · exact Moves.bind (hookFailed_moves _ _) (fun _ => Moves.pure _)
      · exact Moves.bind (hookFailed_moves _ _) (fun _ => Moves.pure _)
      · exact Moves.throw _
    · split
      · exact Moves.pure _
      · exact Moves.ite (hookFailed_moves _ _) (Moves.pure _)

structure ReplicationState where
  is_replica : Bool
  lag_seconds : Option ℤ
  server_version : String

/-- `line.partition(":")` of a line that has a colon. -/
def partitionColon : List Char → Option (List Char × List Char)
  | [] => none
  | c :: cs => if c = ':' then some ([], cs) else (partitionColon cs).map (fun p => (c :: p.1, p.2))

/-- The fields of the vertical format; a later field of a name replaces an earlier one. -/
def parse_status_block (output : String) : List (String × String) :=
  (splitlines output.toList).foldl (fun fields line =>
    match partitionColon (strip line) with
    | none => fields
    | some (key, value) =>
      (String.ofList (strip key), String.ofList (strip value)) ::
        fields.filter (fun f => f.1 ≠ String.ofList (strip key))) []

/-- The code points of digits that `str.isdigit` accepts and `int` does not. -/
def otherDigits : List (ℕ × ℕ) :=
  [(178, 179), (185, 185), (4969, 4977), (6618, 6618), (8304, 8304), (8308, 8313), (8320, 8329),
    (9312, 9320), (9332, 9340), (9352, 9360), (9450, 9450), (9461, 9469), (9471, 9471),
    (10102, 10110), (10112, 10120), (10122, 10130), (68160, 68163), (69216, 69224),
    (69714, 69722), (127232, 127242)]

/-- `str.isdigit` -/
def isDigitText (s : String) : Bool :=
  s ≠ "" ∧ s.toList.all (fun c => (digitValue c).isSome ∨
    otherDigits.any (fun r => r.1 ≤ c.toNat ∧ c.toNat ≤ r.2))

/-- `int(text)` -/
def pyIntText (s : String) : Except Exn ℤ :=
  match pyInt s.toList with
  | some z => .ok z
  | none => .error (.value s!"invalid literal for int() with base 10: {reprString s}")

def run_client (backup : BackupConfig) (replication : ReplicationConfig) (sql : String) :
    Io String := do
  let argv := [replication.client_path] ++
    (if backup.defaults_file.truthy then
      [.str s!"--defaults-file={backup.defaults_file.pyStr}"] else []) ++
    (if backup.defaults_extra_file.truthy then
      [.str s!"--defaults-extra-file={backup.defaults_extra_file.pyStr}"] else []) ++
    [.str "-e", .str sql]
  let proc ← tryCatch (subprocess_run argv) fun
    | .os m | .subprocess m =>
      throw (.precondition s!"failed to run {replication.client_path.pyStr}: {m}")
    | e => throw e
  if proc.returncode ≠ 0 then
    let code := String.ofList (intText proc.returncode)
    let detail := stripText proc.stderr
    throw (.precondition
      s!"{replication.client_path.pyStr} failed (returncode={code}): {detail}")
  else pure proc.stdout

def query_server_version (backup : BackupConfig) (replication : ReplicationConfig) : Io String :=
  tryCatch (do
    let output ← run_client backup replication "SELECT VERSION()"
    let lines := (splitlines output.toList).map strip
    pure (String.ofList ((lines.filter (· ≠ [])).getLast?.getD []))) fun
    | .precondition _ => pure ""
    | e => throw e

/-- The lag a row reports, when its field is made of digits. -/
def lagOf (fields : List (String × String)) : Except Exn (Option ℤ) :=
  let raw_lag := (fields.lookup "Seconds_Behind_Master").getD ""
  if isDigitText raw_lag then (pyIntText raw_lag).map some else .ok none

/-- What is left of the lag check once the row has been read. -/
def checkLag (replication : ReplicationConfig) (is_replica : Bool) (lag_seconds : Option ℤ) :
    Io Unit :=
  if is_replica ∧ 0 < replication.max_lag_seconds then
    match lag_seconds with
    | none => throw (.precondition ("replication.max_lag_seconds is set but " ++
        "Seconds_Behind_Master is NULL (replication is stopped or lag is unknown)"))
    | some lag =>
      if (replication.max_lag_seconds : ℤ) < lag then
        let lagText := String.ofList (intText lag)
        let maxText := String.ofList (natText replication.max_lag_seconds)
        throw (.precondition s!"replication lag {lagText}s exceeds max_lag_seconds={maxText}")
      else pure ()
  else pure ()

def liftExcept {α : Type} : Except Exn α → Io α
  | .ok a => pure a
  | .error e => throw e

def check_replication (backup : BackupConfig) (replication : ReplicationConfig) :
    Io ReplicationState := do
  let status_output ← run_client backup replication "SHOW REPLICA STATUS\\G"
  let fields := parse_status_block status_output
  let is_replica := fields ≠ []
  if replication.mode = "require_replica" ∧ fields = [] then
    throw (.precondition ("replication.mode=require_replica but SHOW REPLICA STATUS returned " ++
      "no rows (this node is not configured as a replica)"))
  else do
    let lag_seconds ← liftExcept (if is_replica then lagOf fields else .ok none)
    checkLag replication is_replica lag_seconds
    let server_version ← query_server_version backup replication
    pure ⟨is_replica, lag_seconds, server_version⟩

theorem liftExcept_moves {α : Type} (x : Except Exn α) : Moves Same (liftExcept x) := by
  cases x with
  | ok a => exact Moves.pure _
  | error e => exact Moves.throw _

theorem run_client_moves (backup : BackupConfig) (replication : ReplicationConfig) (sql : String) :
    Moves Same (run_client backup replication sql) := by
  refine Moves.bind (Moves.tryCatch (subprocess_run_moves _) (fun e => ?_))
    (fun proc => Moves.ite (Moves.throw _) (Moves.pure _))
  split <;> exact Moves.throw _

theorem check_replication_moves (backup : BackupConfig) (replication : ReplicationConfig) :
    Moves Same (check_replication backup replication) := by
  refine Moves.bind (run_client_moves _ _ _) (fun output => Moves.ite (Moves.throw _) ?_)
  refine Moves.bind (liftExcept_moves _) (fun lag => Moves.bind ?_ (fun _ => Moves.bind ?_
    (fun _ => Moves.pure _)))
  · refine Moves.ite ?_ (Moves.pure _)
    split
    · exact Moves.throw _
    · exact Moves.ite (Moves.throw _) (Moves.pure _)
  · refine Moves.tryCatch (Moves.bind (run_client_moves _ _ _) (fun _ => Moves.pure _))
      (fun e => ?_)
    split
    · exact Moves.pure _
    · exact Moves.throw _

end MbKeeper
