import MbKeeper.ConfigFields
import MbKeeper.Destinations

/-!
# The command line

`main` loads the configuration, sets up logging and runs a command. What it
returns is the code the process ends with. A `KeeperError` has a code of its
own; anything else that a command raises becomes `INTERNAL_ERROR`. The handlers
around the command do not cover the setting up of logging, so the codes tell
the truth exactly where the log file can be opened.
-/
namespace MbKeeper

def LEVELS : List (String × ℕ) := [("debug", 10), ("info", 20), ("warning", 30), ("error", 40)]

/-- `open(path, "a")`, which makes the file when it is not there. -/
def open_append (p : Path) : Io Unit := primitive fun r w =>
  match p.find w.fs with
  | some l =>
    if w.fs.isDir l ∨ !w.fs.isDir l.dropLast then (.error (enoent p), w)
    else match r.fault with
      | some e => (.error e, w)
      | none => (.ok (),
          if w.fs.present l then w else w.setTree none (w.fs.create l (.file "") r.stamp))
  | none => (.error (lost p), w)

/-- The file handler of `logging`, which opens its file. -/
def open_log_file (cwd : Loc) : Toml → Io Unit
  | .str file => open_append (Path.configured cwd (PurePath.parse file))
  | _ => throw (.type "expected str, bytes or os.PathLike object")

def setup_logging (cwd : Loc) (config : LoggingConfig) : Io Unit :=
  match LEVELS.lookup config.level with
  | none => throw (.key (reprString config.level))
  | some _ => if config.file.truthy then open_log_file cwd config.file else pure ()

/-- `print(text)` -/
def print (_text : String) : Io Unit := ask fun _ _ => ()

def print_all : List String → Io Unit
  | [] => pure ()
  | text :: texts => do
    print text
    print_all texts

def purge_line (dry_run : Bool) (result : DestinationPurgeResult) : String :=
  let verb := if dry_run then "would delete" else "deleted"
  let deleted := ", ".intercalate result.deleted
  if result.error ≠ "" then s!"[{result.name}] error: {result.error}"
  else if result.deleted ≠ [] then s!"[{result.name}] {verb}: {deleted}"
  else
    let count := String.ofList (natText result.kept.length)
    s!"[{result.name}] nothing to purge (kept {count} generations)"

/-- `_print_purge_summary` -/
def print_purge_summary (summary : PurgeSummary) (dry_run : Bool) : Io Unit :=
  print_all (summary.results.map (purge_line dry_run))

structure CheckItem where
  name : String
  ok : Bool
  detail : String

structure CheckSummary where
  ok : Bool
  items : List CheckItem

def check_line (item : CheckItem) : String :=
  let status := if item.ok then "OK" else "FAIL"
  let detail := if item.detail ≠ "" then s!": {item.detail}" else ""
  s!"[{status}] {item.name}{detail}"

/-- `_print_check_summary` -/
def print_check_summary (summary : CheckSummary) : Io Unit :=
  print_all (summary.items.map check_line)

section

variable (site : Site) (config : Config)

def ReplicationState.detail (state : ReplicationState) : String :=
  let replica := if state.is_replica then "True" else "False"
  let lag := match state.lag_seconds with
    | none => "None"
    | some lag => String.ofList (intText lag)
  s!"is_replica={replica} lag_seconds={lag} server_version={state.server_version}"

def check_destinations : List DestinationConfig → Io (List CheckItem)
  | [] => pure []
  | dest :: dests => do
    let item ← tryCatch (do
      (site.build_destination dest config.transfer).check
      pure (CheckItem.mk s!"destination:{dest.name}" true "")) fun
      | .destination m => pure ⟨s!"destination:{dest.name}", false, m⟩
      | e => throw e
    let items ← check_destinations dests
    pure (item :: items)

/-- `mbkeeper check` -/
def check : Io CheckSummary := do
  let version ← (⟨config.backup, config.replication⟩ : MariabackupRunner).get_version
  let unknown := "unknown".toList.isPrefixOf version.toList
  let replication ← tryCatch (do
    let state ← check_replication config.backup config.replication
    pure (CheckItem.mk "replication" true state.detail)) fun
    | .precondition m => pure ⟨"replication", false, m⟩
    | e => throw e
  let destinations ← check_destinations site config config.destinations
  let items := ⟨"mariabackup", !unknown, version⟩ :: replication :: destinations
  pure ⟨items.all (·.ok), items⟩

def backup_line (backup : StoredBackup) : String :=
  let status := if backup.complete then "complete" else "partial"
  s!"  {backup.backup_id}  {status}  stored_at={isoformat backup.stored_at.wall}"

/-- What `mbkeeper list` prints of a destination; whether its listing failed. -/
def list_destination (dest : DestinationConfig) : Io Bool := do
  print s!"[{dest.name}] (keep={String.ofList (natText dest.keep)})"
  let listing ← tryCatch (do
    let backups ← (site.build_destination dest config.transfer).list_backups
    pure (Except.ok (newestFirst backups))) fun
    | .destination m => pure (.error m)
    | e => throw e
  match listing with
  | .error m => do
    print s!"  error: {m}"
    pure true
  | .ok backups => do
    print_all (if backups = [] then ["  (no generations)"] else backups.map backup_line)
    pure false

def list_destinations : List DestinationConfig → Io Bool
  | [] => pure false
  | dest :: dests => do
    let failed ← list_destination site config dest
    let others ← list_destinations dests
    pure (failed || others)

/-- `_cmd_list` -/
def cmd_list (destination_filter : Option String) : Io ExitCode := do
  let had_error ← list_destinations site config (config.destinations.filter (fun dest =>
    destination_filter.all (fun name => name = "" ∨ dest.name = name)))
  pure (if had_error then .PRECONDITION_FAILED else .SUCCESS)

/-- What follows the name of the program; without `--destination` a purge has none. -/
inductive Command where
  | run
  | purge (destinations : List String) (dry_run : Bool)
  | list (destination : Option String)
  | check

/-- A command line; `config` is what the file system answers about its `--config`. -/
structure Args where
  config : ConfigFile
  command : Command

/-- The command, with the code of its summary. -/
def dispatch : Command → Pipeline ExitCode
  | .run => do
    let summary ← run site config none
    pure summary.exit_code
  | .purge destinations dry_run => do
    let names := if destinations = [] then none else some destinations
    let summary ← purge site config names dry_run none
    lift (print_purge_summary summary dry_run)
    pure summary.exit_code
  | .list destination => lift (cmd_list site config destination)
  | .check => do
    let summary ← lift (check site config)
    lift (print_check_summary summary)
    pure (if summary.ok then .SUCCESS else .PRECONDITION_FAILED)

end

/-- Whether the exception is a `KeeperError`. -/
def Exn.isKeeperError : Exn → Bool
  | .config _ | .lock _ | .precondition _ | .backup _ | .destination _ => true
  | _ => false

/-- `exc.exit_code` of a `KeeperError`, and `INTERNAL_ERROR` of anything else. -/
def Exn.exit_code : Exn → ExitCode
  | .config _ => .CONFIG_ERROR
  | .lock _ => .LOCKED
  | .precondition _ => .PRECONDITION_FAILED
  | .backup _ => .BACKUP_FAILED
  | .destination _ => .ALL_DESTINATIONS_FAILED
  | _ => .INTERNAL_ERROR

/-- The handlers around a command. The end of the process is no `Exception`. -/
def boundary (m : Pipeline ExitCode) : Pipeline ExitCode :=
  tryCatch m fun
    | .crash => throw .crash
    | e => pure e.exit_code

def main_loaded (site : Site) (config : Config) (command : Command) : Pipeline ℕ := do
  lift (setup_logging site.cwd config.logging)
  let code ← boundary (dispatch site config command)
  pure code.toNat

/-- `main`, from the parsed command line on; `loads` is `tomllib.loads`. -/
def main (site : Site) (loads : String → Except String Table) (args : Args) : Pipeline ℕ :=
  match load_config loads args.config with
  | .ok config => main_loaded site config args.command
  | .error e => if e.isKeeperError then pure e.exit_code.toNat else throw e

/-- Logging is set up, then the command runs. -/
def attempted (site : Site) (config : Config) (command : Command) : Pipeline ExitCode := do
  lift (setup_logging site.cwd config.logging)
  dispatch site config command

/-- The process ends with the code of the command, or with that of what was raised. The end of
the process itself is not an exception that could have a code. -/
def TruthfulExit (outcome : Except Exn ExitCode) (result : Except Exn ℕ) : Prop :=
  match outcome with
  | .ok code => result = .ok code.toNat
  | .error .crash => True
  | .error e => result = .ok e.exit_code.toNat

/-- A file can be opened for appending at the path. -/
def Path.Opens (p : Path) (t : Fs) : Prop :=
  ∃ l, p.find t = some l ∧ t.isDir l = false ∧ t.isDir l.dropLast = true

/-- No log file is configured, or the text of its path leads into a directory and to no
directory, and the system lets it be opened. -/
def LogOpens (cwd : Loc) (file : Toml) (w : World) : Prop :=
  file.truthy = true →
    (∃ text, file = .str text ∧ (Path.configured cwd (PurePath.parse text)).Opens w.fs) ∧
      ((w.tape 0).fault = none ∨ (w.tape 0).fault = some .crash)

/-- Nothing but the end of the process stops the program. -/
def Unstopped {α : Type} (result : Except Exn α) : Prop := ∀ e, result = .error e → e = .crash

theorem lost_ne_crash (p : Path) : lost p ≠ .crash := by
  unfold lost enoent osError
  split_ifs <;> simp

@[simp] theorem unstopped_ok {α : Type} (a : α) : Unstopped (.ok a) := by
  intro e h
  cases h

@[simp] theorem unstopped_error {α : Type} (e : Exn) :
    Unstopped (.error e : Except Exn α) ↔ e = .crash := by
  constructor
  · intro h
    exact h e rfl
  · intro h e' he
    rw [← Except.error.inj he, h]

theorem open_append_unstopped (p : Path) (w : World) :
    Unstopped (exec (open_append p) w).1 ↔
      p.Opens w.fs ∧ ((w.tape 0).fault = none ∨ (w.tape 0).fault = some .crash) := by
  rw [open_append, exec_primitive, World.fs_next]
  cases hfind : p.find w.fs with
  | none =>
    have hnot : ¬ p.Opens w.fs := by
      intro h
      obtain ⟨l, hl, -⟩ := h
      rw [hfind] at hl
      cases hl
    simp [hnot, lost_ne_crash]
  | some l =>
    dsimp only
    by_cases hdir : w.fs.isDir l = true ∨ (!w.fs.isDir l.dropLast) = true
    · have hnot : ¬ p.Opens w.fs := by
        intro h
        obtain ⟨m, hm, hfile, hparent⟩ := h
        obtain rfl := Option.some.inj (hfind.symm.trans hm)
        rw [hfile, hparent] at hdir
        simp at hdir
      rw [if_pos hdir]
      simp [hnot, enoent, osError]
    · have hopens : p.Opens w.fs := by
        rw [not_or, Bool.not_eq_true, Bool.not_eq_true, Bool.not_eq_false'] at hdir
        exact ⟨l, hfind, hdir⟩
      rw [if_neg hdir]
      cases hf : (w.tape 0).fault with
      | none => simp [hopens]
      | some e => simp [hopens]

/-- A validated level has a number. -/
theorem levels_lookup {level : String} (h : level ∈ VALID_LOG_LEVELS) :
    ∃ n, LEVELS.lookup level = some n := by
  have hall : ∀ s ∈ VALID_LOG_LEVELS, (LEVELS.lookup s).isSome = true := by decide
  exact Option.isSome_iff_exists.mp (hall level h)

theorem setup_logging_unstopped {cwd : Loc} {config : LoggingConfig}
    (hlevel : config.level ∈ VALID_LOG_LEVELS) (w : World) :
    Unstopped (exec (setup_logging cwd config) w).1 ↔ LogOpens cwd config.file w := by
  obtain ⟨n, hn⟩ := levels_lookup hlevel
  unfold setup_logging LogOpens
  rw [hn]
  dsimp only
  by_cases htruthy : config.file.truthy = true
  · rw [if_pos htruthy]
    cases hfile : config.file with
    | str text =>
      rw [hfile] at htruthy
      rw [open_log_file, open_append_unstopped]
      simp [htruthy]
    | _ =>
      rw [hfile] at htruthy
      simp [open_log_file, htruthy]
  · simp [htruthy]

theorem parse_logging_level {raw : Table} {c : LoggingConfig}
    (h : parse_logging (getKey raw "logging") = .ok (c, [])) : c.level ∈ VALID_LOG_LEVELS := by
  have h := optionalSection_exact rfl h
  dsimp only at h
  obtain ⟨level, hlevel, h⟩ := except_bind_ok h
  obtain ⟨fmt, -, h⟩ := except_bind_ok h
  obtain ⟨rfl, herrors⟩ := Prod.mk.inj (Except.ok.inj h)
  simp only [List.append_eq_nil_iff] at herrors
  exact (choiceField_exact (hlevel.trans (congrArg Except.ok (Prod.ext rfl herrors.1.2)))).2

theorem load_config_ok {loads : String → Except String Table} {file : ConfigFile} {config : Config}
    (h : load_config loads file = .ok config) : ∃ raw, parse_config raw = .ok config := by
  unfold load_config at h
  split_ifs at h
  split at h
  · cases h
  · split at h
    · cases h
    · split at h
      · cases h
      · exact ⟨_, h⟩

theorem exec_lift_error {α : Type} {m : Io α} {s : Pipe} {e : Exn}
    (h : (exec m s.world).1 = .error e) :
    exec (lift m) s = (.error e, { s with world := (exec m s.world).2 }) := by
  rw [exec_lift, h]

theorem exec_boundary_truthful (m : Pipeline ExitCode) (s : Pipe) :
    TruthfulExit (exec m s).1 (exec (do let code ← boundary m; pure code.toNat) s).1 := by
  rw [exec_bind, boundary, exec_tryCatch]
  rcases exec m s with ⟨e | code, s'⟩
  · cases e <;> simp [TruthfulExit]
  · simp [TruthfulExit]

/-- The handlers tell the truth about a command unless logging could not be set up. -/
theorem main_loaded_truthful (site : Site) (config : Config) (command : Command) (s : Pipe) :
    TruthfulExit (exec (attempted site config command) s).1
        (exec (main_loaded site config command) s).1 ↔
      Unstopped (exec (setup_logging site.cwd config.logging) s.world).1 := by
  rw [attempted, main_loaded, exec_bind, exec_bind, exec_lift]
  rcases exec (setup_logging site.cwd config.logging) s.world with ⟨e | ⟨⟩, w⟩
  · cases e <;> simp [TruthfulExit]
  · have h := exec_boundary_truthful (dispatch site config command) { s with world := w }
    exact iff_of_true h (unstopped_ok ())

/-- The code tells the truth about an invocation exactly where the log file can be opened. -/
theorem main_truthful_iff {loads : String → Except String Table} {args : Args} {config : Config}
    (h : load_config loads args.config = .ok config) (site : Site) (s : Pipe) :
    TruthfulExit (exec (attempted site config args.command) s).1 (exec (main site loads args) s).1 ↔
      LogOpens site.cwd config.logging.file s.world := by
  obtain ⟨raw, hraw⟩ := load_config_ok h
  have hlevel := parse_logging_level (parse_config_parts hraw).logging
  rw [← setup_logging_unstopped hlevel, ← main_loaded_truthful site config args.command]
  simp only [main, h]

/-- A document that says where to log to. -/
def loggingLoads (file : String) (_text : String) : Except String Table :=
  .ok (smallTable "/w" "p" "/b" 1 ++ [("logging", .table [("file", .str file)])])

def loggingConfig (file : String) : Config :=
  { smallConfig "/w" "p" "/b" 1 with logging := ⟨"info", "text", .str file⟩ }

def loggingArgs (command : Command) : Args :=
  ⟨⟨"/etc/mbkeeper/config.toml", true, .ok ⟨#[]⟩⟩, command⟩

theorem load_loggingConfig (file : String) (command : Command) :
    load_config (loggingLoads file) (loggingArgs command).config = .ok (loggingConfig file) := by
  have hbytes : String.fromUTF8? ⟨#[]⟩ = some "" := by decide +kernel
  simp only [load_config, loggingArgs, if_true, hbytes, loggingLoads]
  rfl

/-- A log file right below the root directory can be opened. -/
theorem main_truthful_root_log :
    load_config (loggingLoads "/log") (loggingArgs .run).config = .ok (loggingConfig "/log") ∧
      TruthfulExit
        (exec (attempted (MbKeeper.site [] smallNodes) (loggingConfig "/log") .run)
          ⟨smallWorld smallTree, []⟩).1
        (exec (main (MbKeeper.site [] smallNodes) (loggingLoads "/log") (loggingArgs .run))
          ⟨smallWorld smallTree, []⟩).1 := by
  have hload := load_loggingConfig "/log" .run
  have hopens : LogOpens [] (.str "/log") (smallWorld smallTree) := by
    intro _
    exact ⟨⟨"/log", rfl, [entry "log"], by decide +kernel, by decide +kernel, by decide +kernel⟩,
      .inl rfl⟩
  have hiff := main_truthful_iff hload (MbKeeper.site [] smallNodes) ⟨smallWorld smallTree, []⟩
  exact ⟨hload, hiff.mpr hopens⟩

/-- With a log file in a directory that is not there, the error of opening it escapes. -/
theorem missing_log_directory_escapes :
    load_config (loggingLoads "/missing/log") (loggingArgs .run).config =
        .ok (loggingConfig "/missing/log") ∧
      (exec (main (MbKeeper.site [] smallNodes) (loggingLoads "/missing/log") (loggingArgs .run))
          ⟨smallWorld smallTree, []⟩).1 =
        .error (.os "[Errno 2] No such file or directory: '/missing/log'") ∧
      ¬ TruthfulExit
        (exec (attempted (MbKeeper.site [] smallNodes) (loggingConfig "/missing/log") .run)
          ⟨smallWorld smallTree, []⟩).1
        (exec (main (MbKeeper.site [] smallNodes) (loggingLoads "/missing/log")
          (loggingArgs .run)) ⟨smallWorld smallTree, []⟩).1 := by
  have hload := load_loggingConfig "/missing/log" .run
  have hsetup : (exec (setup_logging [] (loggingConfig "/missing/log").logging)
      (smallWorld smallTree)).1 =
        .error (.os "[Errno 2] No such file or directory: '/missing/log'") := by decide +kernel
  have hlift := exec_lift_error (s := ⟨smallWorld smallTree, []⟩) hsetup
  have hattempted : (exec (attempted (MbKeeper.site [] smallNodes)
      (loggingConfig "/missing/log") .run) ⟨smallWorld smallTree, []⟩).1 =
        .error (.os "[Errno 2] No such file or directory: '/missing/log'") := by
    unfold attempted
    exact congrArg Prod.fst (exec_bind_error hlift _)
  have hmain : (exec (main (MbKeeper.site [] smallNodes) (loggingLoads "/missing/log")
      (loggingArgs .run)) ⟨smallWorld smallTree, []⟩).1 =
        .error (.os "[Errno 2] No such file or directory: '/missing/log'") := by
    simp only [main, hload, main_loaded]
    exact congrArg Prod.fst (exec_bind_error hlift _)
  refine ⟨hload, hmain, fun h => ?_⟩
  rw [hattempted, hmain] at h
  cases h

end MbKeeper
