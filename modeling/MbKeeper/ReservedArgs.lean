import MbKeeper.ConfigFields
import MbKeeper.LongOptions
import MbKeeper.Runner

/-!
# The options that the runner owns

The runner sets `--backup` and `--target-dir` itself, and `extra_args` come
behind them. Validation refuses the four reserved options there, letter by
letter. The backup binary reads more spellings than that, so the runner's own
options are the only ones exactly where no extra argument writes a reserved
option in another way. What the binary knows is a parameter.
-/
namespace MbKeeper

open LongOptions (Writes FullName spelled write)

/-- The names in `RESERVED_MARIABACKUP_ARGS`. -/
def RESERVED_OPTIONS : List String := ["backup", "prepare", "target-dir", "password"]

/-- What the runner relies on: the binary knows the options it writes, and takes no value of
those it writes without one. -/
structure KnowsOptions (opts : LongOptions) : Prop where
  reserved : ∀ name ∈ RESERVED_OPTIONS, name ∈ opts.names
  defaults_file : "defaults-file" ∈ opts.names
  defaults_extra_file : "defaults-extra-file" ∈ opts.names
  safe_slave_backup : "safe-slave-backup" ∈ opts.names
  backup_alone : opts.requires "backup" = false
  safe_slave_backup_alone : opts.requires "safe-slave-backup" = false

/-- One backup into one target, nothing prepared and no password. -/
structure OneBackup (opts : LongOptions) (args : List String) : Prop where
  backup : (opts.occurrences args).count "backup" = 1
  target_dir : (opts.occurrences args).count "target-dir" = 1
  prepare : (opts.occurrences args).count "prepare" = 0
  password : (opts.occurrences args).count "password" = 0

/-- The argument writes a reserved option, but not in its own letters. -/
def Disguised (opts : LongOptions) (arg : String) : Prop :=
  ∃ written name, spelled arg = some written ∧ opts.select written = some name ∧
    name ∈ RESERVED_OPTIONS ∧ written ≠ name

namespace MariabackupRunner

variable (runner : MariabackupRunner) (target_dir : Path)

/-- The arguments of a backup, after the name of the program. -/
def backup_args : List String := (runner.backup_argv target_dir).tail.map Toml.pyStr

/-- The options among them that are not configured as extra arguments. -/
def own_options : List (String × Option String) :=
  (if runner.config.defaults_file.truthy then
    [("defaults-file", some runner.config.defaults_file.pyStr)] else []) ++
  (if runner.config.defaults_extra_file.truthy then
    [("defaults-extra-file", some runner.config.defaults_extra_file.pyStr)] else []) ++
  [("backup", none), ("target-dir", some target_dir.str)] ++
  (if runner.replication.mode ≠ "off" ∧ runner.replication.safe_slave_backup = true then
    [("safe-slave-backup", none)] else [])

theorem backup_args_eq : runner.backup_args target_dir =
    (runner.own_options target_dir).map write ++ runner.config.extra_args := by
  have hextra : (runner.config.extra_args.map Toml.str).map Toml.pyStr =
      runner.config.extra_args := by
    rw [List.map_map]
    exact List.map_id _
  have hstr (s : String) : Toml.pyStr (.str s) = s := rfl
  unfold backup_args backup_argv own_options defaults_args
  split_ifs <;> simp [hextra, hstr, write, toString]

/-- The names of the runner's own options are known, and the binary takes no further argument
for any of them. -/
theorem own_options_plain {opts : LongOptions} (hopts : KnowsOptions opts) :
    ∀ option ∈ runner.own_options target_dir,
      FullName opts option.1 ∧ (option.2 = none → opts.requires option.1 = false) := by
  have hbackup : FullName opts "backup" :=
    ⟨by decide, by decide, by decide, hopts.reserved _ (by decide)⟩
  have htarget : FullName opts "target-dir" :=
    ⟨by decide, by decide, by decide, hopts.reserved _ (by decide)⟩
  have hfile : FullName opts "defaults-file" :=
    ⟨by decide, by decide, by decide, hopts.defaults_file⟩
  have hextra : FullName opts "defaults-extra-file" :=
    ⟨by decide, by decide, by decide, hopts.defaults_extra_file⟩
  have hsafe : FullName opts "safe-slave-backup" :=
    ⟨by decide, by decide, by decide, hopts.safe_slave_backup⟩
  intro option hmem
  simp only [own_options, List.mem_append] at hmem
  rcases hmem with ((hmem | hmem) | hmem) | hmem
  · split_ifs at hmem
    · obtain rfl := List.mem_singleton.mp hmem
      exact ⟨hfile, by simp⟩
    · simp at hmem
  · split_ifs at hmem
    · obtain rfl := List.mem_singleton.mp hmem
      exact ⟨hextra, by simp⟩
    · simp at hmem
  · rcases List.mem_cons.mp hmem with rfl | hmem
    · exact ⟨hbackup, fun _ => hopts.backup_alone⟩
    · obtain rfl := List.mem_singleton.mp hmem
      exact ⟨htarget, by simp⟩
  · split_ifs at hmem
    · obtain rfl := List.mem_singleton.mp hmem
      exact ⟨hsafe, fun _ => hopts.safe_slave_backup_alone⟩
    · simp at hmem

theorem occurrences_backup_args {opts : LongOptions} (hopts : KnowsOptions opts) :
    opts.occurrences (runner.backup_args target_dir) =
      (runner.own_options target_dir).map Prod.fst ++
        opts.occurrences runner.config.extra_args := by
  have hplain := runner.own_options_plain target_dir hopts
  rw [backup_args_eq]
  exact LongOptions.occurrences_write_append (fun option h => (hplain option h).1)
    (fun option h => (hplain option h).2) _

/-- The runner itself sets the reserved options as it should. -/
theorem count_own_options :
    ((runner.own_options target_dir).map Prod.fst).count "backup" = 1 ∧
      ((runner.own_options target_dir).map Prod.fst).count "target-dir" = 1 ∧
      ((runner.own_options target_dir).map Prod.fst).count "prepare" = 0 ∧
      ((runner.own_options target_dir).map Prod.fst).count "password" = 0 := by
  unfold own_options
  split_ifs <;> simp

/-- One backup is all there is exactly when no extra argument sets a reserved option. -/
theorem oneBackup_iff {opts : LongOptions} (hopts : KnowsOptions opts) :
    OneBackup opts (runner.backup_args target_dir) ↔
      ∀ name ∈ RESERVED_OPTIONS, name ∉ opts.occurrences runner.config.extra_args := by
  obtain ⟨hbackup, htarget, hprepare, hpassword⟩ := runner.count_own_options target_dir
  have hcount (name : String) :
      (opts.occurrences (runner.backup_args target_dir)).count name =
        ((runner.own_options target_dir).map Prod.fst).count name +
          (opts.occurrences runner.config.extra_args).count name := by
    rw [runner.occurrences_backup_args target_dir hopts, List.count_append]
  constructor
  · intro h name hname
    have hb := h.backup
    have ht := h.target_dir
    have hp := h.prepare
    have hw := h.password
    rw [hcount] at hb ht hp hw
    rw [← List.count_eq_zero]
    simp only [RESERVED_OPTIONS, List.mem_cons, List.not_mem_nil, or_false] at hname
    rcases hname with rfl | rfl | rfl | rfl <;> omega
  · intro h
    have hzero (name : String) (hname : name ∈ RESERVED_OPTIONS) :
        (opts.occurrences runner.config.extra_args).count name = 0 :=
      List.count_eq_zero.mpr (h name hname)
    have hb := hzero "backup" (by decide)
    have ht := hzero "target-dir" (by decide)
    have hp := hzero "prepare" (by decide)
    have hw := hzero "password" (by decide)
    constructor
    · rw [hcount]; omega
    · rw [hcount]; omega
    · rw [hcount]; omega
    · rw [hcount]; omega

end MariabackupRunner

theorem parse_backup_extra_args {raw : Table} {c : BackupConfig}
    (h : parse_backup (getKey raw "backup") = (some c, [])) :
    ∃ table, parse_extra_args table "[backup]" = (c.extra_args, []) := by
  unfold parse_backup at h
  dsimp only at h
  split at h
  · cases (Prod.mk.inj h).1
  · next table hk =>
    obtain ⟨hc, herrors⟩ := Prod.mk.inj h
    obtain ⟨work_dir, -, rfl⟩ := Option.map_eq_some_iff.mp hc
    simp only [List.append_eq_nil_iff] at herrors
    exact ⟨table, Prod.ext rfl herrors.1.1.2⟩
  · cases (Prod.mk.inj h).1

/-- No extra argument writes a reserved option in its own letters. -/
theorem extra_args_not_writes {table : Table} {context : String} {args : List String}
    (h : parse_extra_args table context = (args, [])) {arg name : String} (harg : arg ∈ args)
    (hname : name ∈ RESERVED_OPTIONS) : ¬ Writes name arg := by
  intro hwrites
  have hreserved : "--" ++ name ∈ RESERVED_MARIABACKUP_ARGS := by
    simp only [RESERVED_OPTIONS, List.mem_cons, List.not_mem_nil, or_false] at hname
    rcases hname with rfl | rfl | rfl | rfl <;> decide
  unfold parse_extra_args at h
  obtain ⟨hargs, herrors⟩ := Prod.mk.inj h
  rw [List.append_eq_nil_iff, List.map_eq_nil_iff, List.filter_eq_nil_iff] at herrors
  rw [hargs] at herrors
  refine herrors.2 _ hreserved (List.any_eq_true.mpr ⟨arg, harg, decide_eq_true ?_⟩)
  rcases hwrites.text with htext | ⟨value, htext⟩
  · exact .inl htext
  · refine .inr (List.isPrefixOf_iff_prefix.mpr ⟨value.toList, ?_⟩)
    rw [htext]
    simp

/-- Exactly the disguised spellings get past the check. -/
theorem reserved_options_iff {opts : LongOptions} (hopts : KnowsOptions opts) {raw : Table}
    {config : Config} (h : parse_config raw = .ok config) (target_dir : Path) :
    OneBackup opts (MariabackupRunner.backup_args ⟨config.backup, config.replication⟩ target_dir) ↔
      ∀ arg ∈ opts.read config.backup.extra_args, ¬ Disguised opts arg := by
  obtain ⟨table, htable⟩ := parse_backup_extra_args (parse_config_parts h).backup
  rw [MariabackupRunner.oneBackup_iff _ target_dir hopts]
  constructor
  · rintro hnone arg harg ⟨written, name, hwritten, hselect, hname, -⟩
    have hsets : opts.sets arg = some name := by
      rw [LongOptions.sets, hwritten, Option.bind_some, hselect]
    exact hnone name hname (LongOptions.mem_occurrences.mpr ⟨arg, harg, hsets⟩)
  · intro hnone name hname hmem
    obtain ⟨arg, harg, hsets⟩ := LongOptions.mem_occurrences.mp hmem
    obtain ⟨written, hwritten, hselect⟩ := Option.bind_eq_some_iff.mp hsets
    have hne : written ≠ name := by
      rintro rfl
      exact extra_args_not_writes htable (LongOptions.mem_of_mem_read harg) hname
        (LongOptions.writes_of_spelled hwritten)
    exact hnone arg harg ⟨written, name, hwritten, hselect, hname, hne⟩

/-- A few options of the binary. -/
def someOptions : LongOptions where
  names := ["backup", "prepare", "target-dir", "password", "defaults-file", "defaults-extra-file",
    "safe-slave-backup", "parallel", "port", "databases"]
  requires name := name ∈ ["target-dir", "defaults-file", "defaults-extra-file", "parallel",
    "port", "databases"]

theorem someOptions_known : KnowsOptions someOptions where
  reserved := by decide
  defaults_file := by decide
  defaults_extra_file := by decide
  safe_slave_backup := by decide
  backup_alone := by decide
  safe_slave_backup_alone := by decide

def extraArgsTable (extra_args : List String) : Table :=
  [("schema_version", .int 1),
    ("backup", .table [("work_dir", .str "/w"), ("extra_args", .array (extra_args.map .str))]),
    ("destinations", .array [.table [("name", .str "disk"), ("type", .str "local"),
      ("path", .str "/b"), ("keep", .int 1)]])]

def extraArgsConfig (extra_args : List String) : Config where
  schema_version := .int 1
  backup := ⟨PurePath.parse "/w", "full", .str "mariabackup", .str "", .str "", extra_args, true, 0⟩
  destinations := [⟨"disk", .local, 1, "/b", .str "", .int 22, .str "", .str "", [], .int 0⟩]
  replication := ReplicationConfig.default
  transfer := TransferConfig.default
  retention := RetentionConfig.default
  logging := LoggingConfig.default
  lock := LockConfig.default
  hooks := HooksConfig.default

/-- A number of threads, given as an argument of its own. -/
theorem reserved_options_parallel :
    parse_config (extraArgsTable ["--parallel", "4"]) = .ok (extraArgsConfig ["--parallel", "4"]) ∧
      OneBackup someOptions (MariabackupRunner.backup_args
        ⟨(extraArgsConfig ["--parallel", "4"]).backup,
          (extraArgsConfig ["--parallel", "4"]).replication⟩
        (Path.configured [] (PurePath.parse "/w/p-1"))) := by
  have hparse : parse_config (extraArgsTable ["--parallel", "4"]) =
      .ok (extraArgsConfig ["--parallel", "4"]) := rfl
  refine ⟨hparse, (reserved_options_iff someOptions_known hparse _).mpr ?_⟩
  have hread : someOptions.read (extraArgsConfig ["--parallel", "4"]).backup.extra_args =
      ["--parallel"] := by decide +kernel
  have hsets : someOptions.sets "--parallel" = some "parallel" := by decide +kernel
  intro arg harg
  rw [hread, List.mem_singleton] at harg
  subst harg
  rintro ⟨written, name, hwritten, hselect, hname, -⟩
  rw [LongOptions.sets, hwritten, Option.bind_some, hselect] at hsets
  obtain rfl := Option.some.inj hsets
  exact absurd hname (by decide)

/-- An underscore, and a name cut short: both are accepted, and both reach the binary. -/
theorem disguised_options_accepted :
    parse_config (extraArgsTable ["--target_dir=/x", "--pass=secret"]) =
        .ok (extraArgsConfig ["--target_dir=/x", "--pass=secret"]) ∧
      someOptions.occurrences (MariabackupRunner.backup_args
        ⟨(extraArgsConfig ["--target_dir=/x", "--pass=secret"]).backup,
          (extraArgsConfig ["--target_dir=/x", "--pass=secret"]).replication⟩
        (Path.configured [] (PurePath.parse "/w/p-1"))) =
          ["backup", "target-dir", "target-dir", "password"] ∧
      ¬ OneBackup someOptions (MariabackupRunner.backup_args
        ⟨(extraArgsConfig ["--target_dir=/x", "--pass=secret"]).backup,
          (extraArgsConfig ["--target_dir=/x", "--pass=secret"]).replication⟩
        (Path.configured [] (PurePath.parse "/w/p-1"))) := by
  have hoccurrences : someOptions.occurrences (MariabackupRunner.backup_args
      ⟨(extraArgsConfig ["--target_dir=/x", "--pass=secret"]).backup,
        (extraArgsConfig ["--target_dir=/x", "--pass=secret"]).replication⟩
      (Path.configured [] (PurePath.parse "/w/p-1"))) =
        ["backup", "target-dir", "target-dir", "password"] := by decide +kernel
  refine ⟨rfl, hoccurrences, ?_⟩
  intro h
  have htarget := h.target_dir
  rw [hoccurrences] at htarget
  exact absurd htarget (by decide)

end MbKeeper
