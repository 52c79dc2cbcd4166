import MbKeeper.Runner

/-!
# The run and purge pipelines

`run` locks, checks, backs up, places the generation at every destination and
purges where it was placed; `purge` is the purge alone. A `Site` says where the
program runs and how it makes a destination of its configuration, so that what
is proved here holds of any backend. The lemmas at the end take a run apart, one
for each of its stages.
-/
namespace MbKeeper

def VERSION : String := "0.1.0"

inductive ExitCode where
  | SUCCESS
  | INTERNAL_ERROR
  | USAGE_ERROR
  | CONFIG_ERROR
  | LOCKED
  | PRECONDITION_FAILED
  | BACKUP_FAILED
  | ALL_DESTINATIONS_FAILED
  | PARTIAL_DESTINATION_FAILURE
  | PURGE_FAILED
  deriving DecidableEq, Repr

def ExitCode.toNat : ExitCode → ℕ
  | .SUCCESS => 0
  | .INTERNAL_ERROR => 1
  | .USAGE_ERROR => 2
  | .CONFIG_ERROR => 3
  | .LOCKED => 4
  | .PRECONDITION_FAILED => 5
  | .BACKUP_FAILED => 6
  | .ALL_DESTINATIONS_FAILED => 7
  | .PARTIAL_DESTINATION_FAILURE => 8
  | .PURGE_FAILED => 9

structure DestinationOutcome where
  name : String
  stored : Bool
  error : String
  deriving DecidableEq, Repr

structure RunSummary where
  backup_id : String
  exit_code : ExitCode
  destination_outcomes : List DestinationOutcome
  error : String
  deriving DecidableEq, Repr

structure DestinationPurgeResult where
  name : String
  deleted : List String
  kept : List String
  error : String
  deriving DecidableEq, Repr

structure PurgeSummary where
  exit_code : ExitCode
  results : List DestinationPurgeResult
  deriving DecidableEq, Repr

/-- Where the program runs: its working directory and its backends. -/
structure Site where
  cwd : Loc
  build_destination : DestinationConfig → TransferConfig → Destination

/-- Whether the step succeeded; a `DestinationError` is caught and its text kept. -/
def attempt {α : Type} (m : Pipeline α) : Pipeline (Except String α) :=
  tryCatch (do
    let a ← m
    pure (.ok a)) fun
    | .destination message => pure (.error message)
    | e => throw e

def delete_one (dest : DestinationConfig) (destination : Destination) (dry_run : Bool)
    (backup_id : String) : Pipeline (Except String Unit) :=
  if dry_run then pure (.ok ())
  else attempt (perform (.delete dest backup_id) (destination.delete backup_id))

/-- The loop over the ids of the plan: what was deleted, and whether a delete failed. -/
def delete_planned (dest : DestinationConfig) (destination : Destination) (dry_run : Bool) :
    List String → Pipeline (List String × Bool)
  | [] => pure ([], false)
  | backup_id :: backup_ids => do
    let outcome ← delete_one dest destination dry_run backup_id
    let rest ← delete_planned dest destination dry_run backup_ids
    match outcome with
    | .ok () => pure (backup_id :: rest.1, rest.2)
    | .error _ => pure (rest.1, true)

section

variable (site : Site) (config : Config)

def purge_listed (dest : DestinationConfig) (stored : List StoredBackup) (now : Datetime)
    (dry_run : Bool) (in_progress_id : Option String) :
    Pipeline (DestinationPurgeResult × Bool) := do
  let plan ← perform (.plan dest) (liftExcept
    (select_purge stored dest.keep config.retention.incomplete_grace_hours now in_progress_id))
  let outcome ← delete_planned dest (site.build_destination dest config.transfer) dry_run
    plan.delete
  pure (⟨dest.name, outcome.1, plan.keep, ""⟩, outcome.2)

/-- `_purge_one_destination` -/
def purge_one_destination (dest : DestinationConfig) (now : Datetime) (dry_run : Bool)
    (in_progress_id : Option String) : Pipeline (DestinationPurgeResult × Bool) := do
  let listing ← attempt
    (perform (.list dest) (site.build_destination dest config.transfer).list_backups)
  match listing with
  | .error message => pure (⟨dest.name, [], [], message⟩, true)
  | .ok stored => purge_listed site config dest stored now dry_run in_progress_id

def purge_loop (now : Datetime) (dry_run : Bool) :
    List DestinationConfig → Pipeline (List DestinationPurgeResult × Bool)
  | [] => pure ([], false)
  | dest :: dests => do
    let first ← purge_one_destination site config dest now dry_run none
    let rest ← purge_loop now dry_run dests
    pure (first.1 :: rest.1, first.2 || rest.2)

def now_or (now : Option Datetime) : Pipeline Datetime :=
  match now with
  | some now => pure now
  | none => lift now_utc

/-- `mbkeeper purge` -/
def purge (destination_names : Option (List String)) (dry_run : Bool) (now : Option Datetime) :
    Pipeline PurgeSummary := do
  let now ← now_or now
  perform .lock (acquire_lock site.cwd config.lock.file)
  let outcome ← purge_loop site config now dry_run (config.destinations.filter (fun dest =>
    destination_names.all (dest.name ∈ ·)))
  pure ⟨if outcome.2 then .PURGE_FAILED else .SUCCESS, outcome.1⟩

/-- `destinations_by_name[name]`; of equal names the last one counts. -/
def destination_named (name : String) : Except Exn DestinationConfig :=
  match config.destinations.reverse.find? (fun dest => dest.name = name) with
  | some dest => .ok dest
  | none => .error (.key (reprString name))

/-- `_purge_stored_destinations` -/
def purge_stored_destinations (backup_id : String) (now : Datetime) :
    List DestinationOutcome → Pipeline Bool
  | [] => pure false
  | outcome :: outcomes => do
    let dest ← lift (liftExcept (destination_named config outcome.name))
    let first ← purge_one_destination site config dest now false (some backup_id)
    let rest ← purge_stored_destinations backup_id now outcomes
    pure (first.2 || rest)

/-- `_store_to_destinations` -/
def store_to_destinations (target_dir : Path) (backup_id : String) :
    List DestinationConfig → Pipeline (List DestinationOutcome)
  | [] => pure []
  | dest :: dests => do
    let stored ← attempt (perform (.store dest)
      ((site.build_destination dest config.transfer).store target_dir backup_id))
    match stored with
    | .error message =>
      if config.transfer.on_destination_failure = "abort" then pure [⟨dest.name, false, message⟩]
      else do
        let rest ← store_to_destinations target_dir backup_id dests
        pure (⟨dest.name, false, message⟩ :: rest)
    | .ok () => do
      let rest ← store_to_destinations target_dir backup_id dests
      pure (⟨dest.name, true, ""⟩ :: rest)

/-- `_check_replication_if_configured` -/
def check_replication_if_configured : Io ReplicationState :=
  if config.replication.mode = "off" ∧ config.replication.max_lag_seconds = 0 then
    pure ⟨false, none, ""⟩
  else check_replication config.backup config.replication

/-- One entry of the loop of `_cleanup_stale_work_dir`. -/
def cleanup_entry (work_dir : Path) (keep_id : String) (x : Name) : Io Unit := do
  let dir ← is_dir (work_dir.child x)
  if dir ∧ x.val ≠ keep_id then rmtree (work_dir.child x) true else pure ()

def cleanup_entries (work_dir : Path) (keep_id : String) : List Name → Io Unit
  | [] => pure ()
  | x :: xs => do
    cleanup_entry work_dir keep_id x
    cleanup_entries work_dir keep_id xs

/-- `_cleanup_stale_work_dir` -/
def cleanup_stale_work_dir (work_dir : Path) (keep_id : String) : Io Unit := do
  let there ← is_dir work_dir
  if there then do
    let names ← iterdir work_dir
    cleanup_entries work_dir keep_id names
  else pure ()

/-- The summary as `post_run` gets it. -/
def RunSummary.payload (summary : RunSummary) : String :=
  let code := jsonInt summary.exit_code.toNat
  let outcome (o : DestinationOutcome) : String :=
    s!"\x7b\"name\": {jsonString o.name}, \"stored\": {jsonBool o.stored}, " ++
      s!"\"error\": {jsonString o.error}\x7d"
  s!"\x7b\"backup_id\": {jsonString summary.backup_id}, \"exit_code\": {code}, " ++
    "\"destinations\": [" ++ ", ".intercalate (summary.destination_outcomes.map outcome) ++
    s!"], \"error\": {jsonString summary.error}\x7d"

/-- `_finish` -/
def finish (summary : RunSummary) : Pipeline RunSummary := do
  perform (.hook .post_run (some summary.payload)) (run_hook config.hooks.post_run false)
  pure summary

def run_prepare_if (target_dir : Path) : Pipeline Unit :=
  if config.backup.prepare then
    (⟨config.backup, config.replication⟩ : MariabackupRunner).run_prepare target_dir
  else pure ()

/-- The phases of the backup; the text of the `BackupError` when one failed. -/
def phases (target_dir : Path) : Pipeline (Option String) :=
  let runner : MariabackupRunner := ⟨config.backup, config.replication⟩
  tryCatch (do
    runner.run_backup target_dir
    run_prepare_if config target_dir
    pure none) fun
    | .backup message => pure (some message)
    | e => throw e

/-- The manifest of the generation in `target_dir`. -/
def record_meta (target_dir : Path) (backup_id server_version : String)
    (started_at finished_at : Datetime) : Io Unit := do
  let hostname ← gethostname
  let version ← (⟨config.backup, config.replication⟩ : MariabackupRunner).get_version
  let size_bytes ← directory_size_bytes target_dir
  write_meta target_dir
    { schema_version := MANIFEST_SCHEMA_VERSION
      backup_id := backup_id
      type := "full"
      status := "complete"
      started_at := isoformat started_at.wall
      finished_at := isoformat finished_at.wall
      hostname := hostname
      mariadb_version := server_version
      mariabackup_version := version
      prepared := config.backup.prepare
      size_bytes := size_bytes
      tool_version := s!"mariabackup-keeper {VERSION}" }

def exitCode (failed : List DestinationOutcome) (purge_had_error : Bool) : ExitCode :=
  if failed ≠ [] then .PARTIAL_DESTINATION_FAILURE
  else if purge_had_error then .PURGE_FAILED
  else .SUCCESS

/-- The end of a run that placed its generation somewhere. -/
def settle (target_dir : Path) (backup_id : String) (now : Datetime)
    (outcomes : List DestinationOutcome) : Pipeline RunSummary := do
  perform .remove_target (rmtree target_dir true)
  perform (.hook .pre_purge none) (run_hook config.hooks.pre_purge false)
  let purge_had_error ← purge_stored_destinations site config backup_id now
    (outcomes.filter (·.stored))
  finish config ⟨backup_id, exitCode (outcomes.filter (!·.stored)) purge_had_error, outcomes, ""⟩

/-- What a run does with a backup that has succeeded. -/
def place (target_dir : Path) (backup_id server_version : String) (now started_at : Datetime) :
    Pipeline RunSummary := do
  let finished_at ← lift now_utc
  perform .write_meta
    (record_meta config target_dir backup_id server_version started_at finished_at)
  perform (.hook .post_backup none) (run_hook config.hooks.post_backup false)
  let outcomes ← store_to_destinations site config target_dir backup_id config.destinations
  if outcomes.filter (!·.stored) ≠ [] ∧ outcomes.filter (·.stored) = [] then
    finish config ⟨backup_id, .ALL_DESTINATIONS_FAILED, outcomes, ""⟩
  else settle site config target_dir backup_id now outcomes

def work_dir : Path := Path.configured site.cwd config.backup.work_dir

def target_dir (backup_id : String) : Path := (work_dir site config).join backup_id

/-- Up to the directory the backup goes to: the version of the server. -/
def prepare_run (backup_id : String) : Pipeline String := do
  let replication_state ← perform .replication (check_replication_if_configured config)
  perform (.hook .pre_backup none) (run_hook config.hooks.pre_backup true)
  perform .cleanup (cleanup_stale_work_dir (work_dir site config) backup_id)
  perform .make_target (mkdir (target_dir site config backup_id))
  pure replication_state.server_version

/-- `mbkeeper run` -/
def run (now : Option Datetime) : Pipeline RunSummary := do
  let now ← now_or now
  perform .lock (acquire_lock site.cwd config.lock.file)
  let backup_id ← perform .backup_id
    (liftExcept (generate_backup_id config.backup.name_prefix now))
  let server_version ← prepare_run site config backup_id
  let started_at ← lift now_utc
  let failure ← phases config (target_dir site config backup_id)
  match failure with
  | some message => finish config ⟨backup_id, .BACKUP_FAILED, [], message⟩
  | none =>
    place site config (target_dir site config backup_id) backup_id server_version now started_at

end

end MbKeeper
