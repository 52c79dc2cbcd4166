import MbKeeper.Pipeline

/-!
# The lock and the backup processes

`acquire_lock` keeps two invocations on one node apart. `MariabackupRunner`
starts the backup binary, which writes below its target directory; a phase
succeeded when it did not time out, returned zero and printed the marker.
-/
namespace MbKeeper

/-- `path.parent` -/
def PurePath.parent (p : PurePath) : PurePath := ⟨p.root, p.parts.dropLast⟩

/-- `fcntl.flock(fd, LOCK_EX | LOCK_NB)` -/
def flock (lock_path : PurePath) : Io Unit :=
  tryCatch (ask fun _ _ => ()) fun
    | .os _ => throw (.lock s!"Another mbkeeper run holds the lock: {lock_path.str}")
    | e => throw e

def acquire_lock (cwd : Loc) (lock_path : PurePath) : Io Unit := do
  mkdir (Path.configured cwd lock_path.parent)
  write_text (Path.configured cwd lock_path) "" false
  flock lock_path

def LOG_FILENAME : Name := ⟨"mariabackup.log", by decide⟩

def SUCCESS_MARKER : String := "completed OK!"

/-- `SUCCESS_MARKER in stderr` -/
def marked (stderr : String) : Bool := SUCCESS_MARKER.toList <:+: stderr.toList

def Phase.str : Phase → String
  | .backup => "backup"
  | .prepare => "prepare"

/-- `subprocess.Popen(argv, …)` -/
def popen (argv : List String) : Io Unit :=
  if argv.any hasNul then throw (.value "embedded null byte") else ask fun _ _ => ()

structure Ended where
  timedOut : Bool
  returncode : ℤ
  stderr : String

/-- `proc.communicate(timeout=…)` and, when it runs out, the end of the process. Until it
ended the process wrote below its target directory. -/
def communicate (target_dir : Path) (timeout_seconds : ℕ) : Io Ended := primitive fun r w =>
  let w' := match target_dir.find w.fs with
    | some l => w.setTree none (Fs.receive w.fs l r.writes r.stamp)
    | none => w
  match r.fault with
  | some e => (.error e, w')
  | none => (.ok ⟨r.timedOut ∧ timeout_seconds ≠ 0, r.status, r.stderr⟩, w')

structure MariabackupRunner where
  config : BackupConfig
  replication : ReplicationConfig

namespace MariabackupRunner

variable (runner : MariabackupRunner)

def defaults_args : List Toml :=
  (if runner.config.defaults_file.truthy then
    [.str s!"--defaults-file={runner.config.defaults_file.pyStr}"] else []) ++
  (if runner.config.defaults_extra_file.truthy then
    [.str s!"--defaults-extra-file={runner.config.defaults_extra_file.pyStr}"] else [])

def backup_argv (target_dir : Path) : List Toml :=
  [runner.config.mariabackup_path] ++ runner.defaults_args ++
    [.str "--backup", .str s!"--target-dir={target_dir.str}"] ++
    (if runner.replication.mode ≠ "off" ∧ runner.replication.safe_slave_backup = true then
      [.str "--safe-slave-backup"] else []) ++
    runner.config.extra_args.map .str

def prepare_argv (target_dir : Path) : List Toml :=
  [runner.config.mariabackup_path] ++
    (if runner.config.defaults_file.truthy then
      [.str s!"--defaults-file={runner.config.defaults_file.pyStr}"] else []) ++
    [.str "--prepare", .str s!"--target-dir={target_dir.str}"]

/-- The start of a phase; a binary that cannot be launched fails the backup. -/
def launch (argv : List Toml) (phase : Phase) : Io Unit := do
  let args ← liftExcept (argvStrings argv)
  tryCatch (popen args) fun
    | .os m => throw (.backup s!"failed to launch mariabackup for {phase.str}: {m}")
    | e => throw e

/-- The verdict on a phase that has ended. -/
def verdict (log_path : Path) (phase : Phase) (proc : Ended) : Io Unit :=
  if proc.timedOut then
    let timeout := String.ofList (natText runner.config.timeout_seconds)
    throw (.backup (s!"mariabackup {phase.str} timed out after {timeout}s " ++
      s!"and was killed; see {log_path.str}"))
  else if proc.returncode ≠ 0 ∨ !marked proc.stderr then
    let code := String.ofList (intText proc.returncode)
    throw (.backup
      s!"mariabackup {phase.str} failed (returncode={code}); see {log_path.str}")
  else pure ()

/-- `_execute` -/
def execute (argv : List Toml) (target_dir : Path) (phase : Phase) : Pipeline Unit := do
  lift (launch argv phase)
  let proc ← lift (communicate target_dir runner.config.timeout_seconds)
  note (.ended phase proc.timedOut proc.returncode proc.stderr)
  lift (write_text (target_dir.child LOG_FILENAME)
    s!"--- mariabackup {phase.str} ---\n{proc.stderr}\n" true)
  lift (runner.verdict (target_dir.child LOG_FILENAME) phase proc)

def run_backup (target_dir : Path) : Pipeline Unit :=
  noted (.phase .backup) (runner.execute (runner.backup_argv target_dir) target_dir .backup)

def run_prepare (target_dir : Path) : Pipeline Unit :=
  noted (.phase .prepare) (runner.execute (runner.prepare_argv target_dir) target_dir .prepare)

def get_version : Io String := do
  let proc ← tryCatch (do
    let proc ← subprocess_run [runner.config.mariabackup_path, .str "--version"]
    pure (Except.ok proc)) fun
    | .os m | .subprocess m => pure (Except.error s!"unknown ({m})")
    | e => throw e
  match proc with
  | .error version => pure version
  | .ok proc => pure (if stripText proc.stdout ≠ "" then stripText proc.stdout
      else stripText proc.stderr)

end MariabackupRunner

/-- The lock file and the directories on the way to it. -/
def lockSpots (cwd : Loc) (lock_path : PurePath) : Set Spot :=
  chainSpots (Path.configured cwd lock_path.parent) ∪
    below none (Path.configured cwd lock_path).loc

theorem acquire_lock_moves (cwd : Loc) (lock_path : PurePath) :
    Moves (Confined (lockSpots cwd lock_path)) (acquire_lock cwd lock_path) := by
  refine Moves.bind ((mkdir_moves _).mono (fun _ _ h => h.mono Set.subset_union_left))
    (fun _ => Moves.bind ((write_text_moves _ _ _).mono
      (fun _ _ h => h.mono Set.subset_union_right)) (fun _ => Moves.tryCatch (ask_moves _ _) ?_))
  intro e
  split <;> exact Moves.throw _

theorem communicate_moves (target_dir : Path) (timeout_seconds : ℕ) :
    Moves (Confined (below none target_dir.loc)) (communicate target_dir timeout_seconds) := by
  apply primitive_moves
  intro r w
  cases hfind : target_dir.find w.fs with
  | none =>
    dsimp only
    cases r.fault <;> exact refl_of (Confined _) w
  | some l =>
    obtain rfl := Path.find_eq_loc hfind
    have hw : Confined (below none target_dir.loc) w
        (w.setTree none (Fs.receive w.fs target_dir.loc r.writes r.stamp)) :=
      Confined.setTree (fun q hq => kind_receive _ _ _ _ (fun h => hq ⟨rfl, h⟩))
    dsimp only
    cases r.fault <;> exact hw

namespace MariabackupRunner

variable (runner : MariabackupRunner)

theorem launch_moves (S : Set Spot) (argv : List Toml) (phase : Phase) :
    Moves (Confined S) (launch argv phase) := by
  refine Moves.bind ((liftExcept_moves _).mono (fun _ _ h => h.confined S)) (fun args => ?_)
  refine Moves.tryCatch (Moves.ite (Moves.throw _) (ask_moves _ _)) (fun e => ?_)
  split <;> exact Moves.throw _

theorem verdict_moves (S : Set Spot) (log_path : Path) (phase : Phase) (proc : Ended) :
    Moves (Confined S) (runner.verdict log_path phase proc) :=
  Moves.ite (Moves.throw _) (Moves.ite (Moves.throw _) (Moves.pure _))

/-- The path of a child of `p` leads to below where `p` leads. -/
theorem prefix_child_loc (p : Path) (x : Name) : p.loc <+: (p.child x).loc := by
  have hresolve (l : Loc) (ps : List (PathStep Name)) :
      FileTree.resolve l (ps ++ [.down x]) = FileTree.resolve l ps ++ [x] := by
    induction ps generalizing l with
    | nil => rfl
    | cons s ps ih => cases s <;> exact ih _
  rw [Path.loc, Path.loc, Path.child, hresolve]
  exact List.prefix_append _ _

theorem execute_moves (argv : List Toml) (target_dir : Path) (phase : Phase) :
    Moves (OnWorld (Confined (below none target_dir.loc)))
      (runner.execute argv target_dir phase) :=
  Moves.bind (launch_moves _ _ _).lift (fun _ => Moves.bind (communicate_moves _ _).lift
    (fun _ => Moves.bind (Moves.note _) (fun _ => Moves.bind ((write_text_moves _ _ _).mono
      (fun _ _ h => h.mono (below_subset (prefix_child_loc _ _)))).lift
        (fun _ => (verdict_moves runner _ _ _ _).lift))))

theorem get_version_moves : Moves Same runner.get_version := by
  refine Moves.bind (Moves.tryCatch (Moves.bind (subprocess_run_moves _) (fun _ => Moves.pure _))
    (fun e => ?_)) (fun proc => ?_)
  · split
    · exact Moves.pure _
    · exact Moves.pure _
    · exact Moves.throw _
  · split <;> exact Moves.pure _

end MariabackupRunner

end MbKeeper
