import MbKeeper.Environment
import Mathlib.Data.Rat.Defs

/-!
# The configuration

`parse_config` turns a parsed TOML document into a `Config` and reports all
problems at once. Every parser returns its value together with the messages it
adds; a document is accepted when no message is left. Some keys are passed on
without a check of their type, so their fields keep the TOML value. A message
that quotes a value may raise instead: Python refuses to write out an integer of
too many digits.
-/
namespace MbKeeper

/-- What `tomllib` returns. A float carries its value, where it is finite, and its `repr`. -/
inductive Toml where
  | str (s : String)
  | int (z : ℤ)
  | float (value : Option ℚ) (repr : String)
  | bool (b : Bool)
  | datetime (repr : String)
  | array (items : List Toml)
  | table (entries : List (String × Toml))

/-- A dictionary: its keys are distinct. -/
abbrev Table := List (String × Toml)

/-- `table.get(key)` -/
def getKey (table : Table) (key : String) : Option Toml := List.lookup key table

/-- `repr` of a text of printable characters. -/
def reprString (s : String) : String :=
  let quote := if '\'' ∈ s.toList ∧ '"' ∉ s.toList then '"' else '\''
  String.ofList ([quote] ++ s.toList.flatMap (fun c =>
    if c = '\\' ∨ c = quote then ['\\', c]
    else if c = '\n' then ['\\', 'n']
    else if c = '\r' then ['\\', 'r']
    else if c = '\t' then ['\\', 't'] else [c]) ++ [quote])

namespace Toml

mutual

def repr : Toml → String
  | .str s => reprString s
  | .int z => String.ofList (intText z)
  | .float _ r => r
  | .bool b => if b then "True" else "False"
  | .datetime r => r
  | .array items => "[" ++ ", ".intercalate (reprs items) ++ "]"
  | .table entries => "\x7b" ++ ", ".intercalate (reprEntries entries) ++ "\x7d"

def reprs : List Toml → List String
  | [] => []
  | x :: xs => repr x :: reprs xs

def reprEntries : List (String × Toml) → List String
  | [] => []
  | (k, x) :: xs => (reprString k ++ ": " ++ repr x) :: reprEntries xs

end

mutual

/-- No integer in the value has more digits than Python converts to text. -/
def printable : Toml → Bool
  | .int z => (natText z.natAbs).length ≤ maxStrDigits
  | .array items => printables items
  | .table entries => printableEntries entries
  | _ => true

def printables : List Toml → Bool
  | [] => true
  | x :: xs => printable x && printables xs

def printableEntries : List (String × Toml) → Bool
  | [] => true
  | (_, x) :: xs => printable x && printableEntries xs

end

/-- `repr` as it runs. -/
def quote (x : Toml) : Except Exn String :=
  if x.printable then .ok x.repr
  else .error (.value ("Exceeds the limit (4300 digits) for integer string conversion; " ++
    "use sys.set_int_max_str_digits() to increase the limit"))

/-- `str` of a value: a string is itself. -/
def pyStr : Toml → String
  | .str s => s
  | x => repr x

/-- Python's truth value. -/
def truthy : Toml → Bool
  | .str s => s ≠ ""
  | .int z => z ≠ 0
  | .float v _ => v ≠ some 0
  | .bool b => b
  | .datetime _ => true
  | .array items => !items.isEmpty
  | .table entries => !entries.isEmpty

/-- `value == 1`, which holds of `True` and of `1.0` as well. -/
def eqOne : Toml → Bool
  | .int z => z = 1
  | .float v _ => v = some 1
  | .bool b => b
  | _ => false

def isStr : Toml → Bool
  | .str _ => true
  | _ => false

/-- A list of strings, as strings. -/
def strings? : Toml → Option (List String)
  | .array items => if items.all isStr then some (items.map pyStr) else none
  | _ => none

/-- `tuple(value)`: a string is a sequence of characters and a table one of keys. -/
def toTuple : Toml → Except Exn (List Toml)
  | .array items => .ok items
  | .str s => .ok (s.toList.map (fun c => .str (String.ofList [c])))
  | .table entries => .ok (entries.map (fun e => .str e.1))
  | .int _ => .error (.type "'int' object is not iterable")
  | .float _ _ => .error (.type "'float' object is not iterable")
  | .bool _ => .error (.type "'bool' object is not iterable")
  | .datetime _ => .error (.type "'datetime.datetime' object is not iterable")

end Toml

inductive DestinationType where
  | local
  | ssh
  deriving DecidableEq, Repr

structure BackupConfig where
  work_dir : PurePath
  name_prefix : String
  mariabackup_path : Toml
  defaults_file : Toml
  defaults_extra_file : Toml
  extra_args : List String
  prepare : Bool
  timeout_seconds : ℕ

structure ReplicationConfig where
  mode : String
  max_lag_seconds : ℕ
  safe_slave_backup : Bool
  client_path : Toml

structure TransferConfig where
  on_destination_failure : String
  retries : ℕ
  rsync_path : Toml

structure RetentionConfig where
  incomplete_grace_hours : ℕ

structure DestinationConfig where
  name : String
  type : DestinationType
  keep : ℕ
  path : String
  host : Toml
  port : Toml
  user : Toml
  ssh_key : Toml
  ssh_options : List Toml
  bwlimit_kbps : Toml

structure LoggingConfig where
  level : String
  format : String
  file : Toml

structure LockConfig where
  file : PurePath

structure HooksConfig where
  pre_backup : String
  post_backup : String
  pre_purge : String
  post_run : String

structure Config where
  schema_version : Toml
  backup : BackupConfig
  destinations : List DestinationConfig
  replication : ReplicationConfig
  transfer : TransferConfig
  retention : RetentionConfig
  logging : LoggingConfig
  lock : LockConfig
  hooks : HooksConfig

def VALID_REPLICATION_MODES : List String := ["off", "require_replica"]

def VALID_ON_DESTINATION_FAILURE : List String := ["continue", "abort"]

def VALID_LOG_LEVELS : List String := ["debug", "info", "warning", "error"]

def VALID_LOG_FORMATS : List String := ["text", "json"]

def VALID_DESTINATION_TYPES : List String := ["local", "ssh"]

def RESERVED_MARIABACKUP_ARGS : List String :=
  ["--backup", "--prepare", "--target-dir", "--password"]

def ReplicationConfig.default : ReplicationConfig := ⟨"off", 0, true, .str "mariadb"⟩

def TransferConfig.default : TransferConfig := ⟨"continue", 2, .str "rsync"⟩

def RetentionConfig.default : RetentionConfig := ⟨24⟩

def LoggingConfig.default : LoggingConfig := ⟨"info", "text", .str ""⟩

def LockConfig.default : LockConfig := ⟨PurePath.parse "/run/mbkeeper/mbkeeper.lock"⟩

def HooksConfig.default : HooksConfig := ⟨"", "", "", ""⟩

/-- What `_Errors` collects. The first three are about a key of the table named by
`context`, the fourth about a key of the document. -/
inductive Problem where
  | unknown (key context : String)
  | missing (key context : String)
  | field (key context complaint : String)
  | document (key text : String)
  | other (text : String)
  deriving DecidableEq

def Problem.text : Problem → String
  | .unknown key context => s!"unknown key '{key}' in {context}"
  | .missing key context => s!"missing required key '{key}' in {context}"
  | .field key context complaint => s!"'{key}' in {context} {complaint}"
  | .document _ text | .other text => text

def raise_if_any (errors : List Problem) : Except Exn Unit :=
  match errors with
  | [] => .ok ()
  | _ => .error (.config ("Invalid configuration:\n" ++
      "\n".intercalate (errors.map (fun m => "  - " ++ m.text))))

/-- A value and the messages added while it was parsed. -/
abbrev Checked (α : Type) := α × List Problem

/-- `f"{table.get(key)!r}"` -/
def quoteKey (table : Table) (key : String) : Except Exn String :=
  match getKey table key with
  | none => .ok "None"
  | some value => value.quote

def reject_unknown_keys (table : Table) (allowed : List String) (context : String) :
    List Problem :=
  (table.filter (fun e => e.1 ∉ allowed)).map (fun e => .unknown e.1 context)

def require_str (table : Table) (key context : String) : Checked (Option String) :=
  match getKey table key with
  | none => (none, [.missing key context])
  | some (.str s) =>
    if s ≠ "" then (some s, []) else (none, [.field key context "must be a non-empty string"])
  | some _ => (none, [.field key context "must be a non-empty string"])

/-- A non-negative integer that is not a boolean; anything else gives the default. -/
def natField (table : Table) (key context : String) (default : ℕ) : Checked ℕ :=
  match getKey table key with
  | none => (default, [])
  | some (.int z) =>
    if 0 ≤ z then (z.toNat, [])
    else (default, [.field key context "must be a non-negative integer"])
  | some _ => (default, [.field key context "must be a non-negative integer"])

def boolField (table : Table) (key context : String) (default : Bool) : Checked Bool :=
  match getKey table key with
  | none => (default, [])
  | some (.bool b) => (b, [])
  | some _ => (default, [.field key context "must be a boolean"])

/-- A non-empty string; anything else gives the default. -/
def textField (table : Table) (key context default : String) : Checked String :=
  match getKey table key with
  | none => (default, [])
  | some (.str s) =>
    if s ≠ "" then (s, []) else (default, [.field key context "must be a non-empty string"])
  | some _ => (default, [.field key context "must be a non-empty string"])

def reprTuple (valid : List String) : String :=
  "(" ++ ", ".intercalate (valid.map reprString) ++ ")"

def choiceField (table : Table) (key context : String) (valid : List String) (default : String) :
    Except Exn (Checked String) :=
  let value := (getKey table key).getD (.str default)
  let failed : Except Exn (Checked String) := do
    let got ← value.quote
    pure (default, [.field key context s!"must be one of {reprTuple valid}, got {got}"])
  match value with
  | .str s => if s ∈ valid then .ok (s, []) else failed
  | _ => failed

/-- A section that may be missing, and that must be a table. -/
def optionalSection {α : Type} (table : Option Toml) (name : String) (default : α)
    (parse : Table → Except Exn (Checked α)) : Except Exn (Checked α) :=
  match table with
  | none => .ok (default, [])
  | some (.table t) => parse t
  | some _ => .ok (default, [.document name s!"[{name}] must be a table"])

def startsWith (s pre : String) : Bool := pre.toList.isPrefixOf s.toList

def parse_extra_args (table : Table) (context : String) : Checked (List String) :=
  let value := (getKey table "extra_args").getD (.array [])
  let (extra_args, errors) : Checked (List String) := match value.strings? with
    | some args => (args, [])
    | none => ([], [.field "extra_args" context "must be a list of strings"])
  (extra_args, errors ++ (RESERVED_MARIABACKUP_ARGS.filter (fun reserved =>
      extra_args.any (fun a => a = reserved ∨ startsWith a (reserved ++ "=")))).map
    (fun reserved => .field "extra_args" context s!"must not set reserved argument '{reserved}'"))

/-- An empty prefix is reported and kept, as the run of the checks goes on. -/
def parse_name_prefix (table : Table) (context : String) : Checked String :=
  match (getKey table "name_prefix").getD (.str "full") with
  | .str s =>
    (s, if s ≠ "" then [] else [.field "name_prefix" context "must be a non-empty string"])
  | _ => ("full", [.field "name_prefix" context "must be a non-empty string"])

def BACKUP_KEYS : List String :=
  ["work_dir", "name_prefix", "mariabackup_path", "defaults_file", "defaults_extra_file",
    "extra_args", "prepare", "timeout_seconds"]

def parse_backup (table : Option Toml) : Checked (Option BackupConfig) :=
  let context := "[backup]"
  match table with
  | none => (none, [.document "backup" s!"missing required section {context}"])
  | some (.table table) =>
    let unknown := reject_unknown_keys table BACKUP_KEYS context
    let work_dir_str := require_str table "work_dir" context
    let name_prefix := parse_name_prefix table context
    let extra_args := parse_extra_args table context
    let timeout_seconds := natField table "timeout_seconds" context 0
    let prepare := boolField table "prepare" context true
    (work_dir_str.1.map (fun work_dir =>
      { work_dir := PurePath.parse work_dir
        name_prefix := name_prefix.1
        mariabackup_path := (getKey table "mariabackup_path").getD (.str "mariabackup")
        defaults_file := (getKey table "defaults_file").getD (.str "")
        defaults_extra_file := (getKey table "defaults_extra_file").getD (.str "")
        extra_args := extra_args.1
        prepare := prepare.1
        timeout_seconds := timeout_seconds.1 }),
      unknown ++ work_dir_str.2 ++ name_prefix.2 ++ extra_args.2 ++ timeout_seconds.2 ++ prepare.2)
  | some _ => (none, [.document "backup" s!"{context} must be a table"])

def REPLICATION_KEYS : List String :=
  ["mode", "max_lag_seconds", "safe_slave_backup", "client_path"]

def parse_replication (table : Option Toml) : Except Exn (Checked ReplicationConfig) :=
  let context := "[replication]"
  optionalSection table "replication" .default fun table => do
    let unknown := reject_unknown_keys table REPLICATION_KEYS context
    let mode ← choiceField table "mode" context VALID_REPLICATION_MODES "off"
    let max_lag_seconds := natField table "max_lag_seconds" context 0
    let safe_slave_backup := boolField table "safe_slave_backup" context true
    pure (⟨mode.1, max_lag_seconds.1, safe_slave_backup.1,
        (getKey table "client_path").getD (.str "mariadb")⟩,
      unknown ++ mode.2 ++ max_lag_seconds.2 ++ safe_slave_backup.2)

def TRANSFER_KEYS : List String := ["on_destination_failure", "retries", "rsync_path"]

def parse_transfer (table : Option Toml) : Except Exn (Checked TransferConfig) :=
  let context := "[transfer]"
  optionalSection table "transfer" .default fun table => do
    let unknown := reject_unknown_keys table TRANSFER_KEYS context
    let on_failure ← choiceField table "on_destination_failure" context
      VALID_ON_DESTINATION_FAILURE "continue"
    let retries := natField table "retries" context 2
    pure (⟨on_failure.1, retries.1, (getKey table "rsync_path").getD (.str "rsync")⟩,
      unknown ++ on_failure.2 ++ retries.2)

def RETENTION_KEYS : List String := ["incomplete_grace_hours"]

def parse_retention (table : Option Toml) : Except Exn (Checked RetentionConfig) :=
  let context := "[retention]"
  optionalSection table "retention" .default fun table => do
    let unknown := reject_unknown_keys table RETENTION_KEYS context
    let grace := natField table "incomplete_grace_hours" context 24
    pure (⟨grace.1⟩, unknown ++ grace.2)

def LOGGING_KEYS : List String := ["level", "format", "file"]

def parse_logging (table : Option Toml) : Except Exn (Checked LoggingConfig) :=
  let context := "[logging]"
  optionalSection table "logging" .default fun table => do
    let unknown := reject_unknown_keys table LOGGING_KEYS context
    let level ← choiceField table "level" context VALID_LOG_LEVELS "info"
    let fmt ← choiceField table "format" context VALID_LOG_FORMATS "text"
    pure (⟨level.1, fmt.1, (getKey table "file").getD (.str "")⟩, unknown ++ level.2 ++ fmt.2)

def LOCK_KEYS : List String := ["file"]

def parse_lock (table : Option Toml) : Except Exn (Checked LockConfig) :=
  let context := "[lock]"
  optionalSection table "lock" .default fun table => do
    let unknown := reject_unknown_keys table LOCK_KEYS context
    let file := textField table "file" context "/run/mbkeeper/mbkeeper.lock"
    pure (⟨PurePath.parse file.1⟩, unknown ++ file.2)

def HOOKS_KEYS : List String := ["pre_backup", "post_backup", "pre_purge", "post_run"]

def parse_command (table : Table) (key context : String) : Checked String :=
  match (getKey table key).getD (.str "") with
  | .str s => (s, [])
  | _ => ("", [.field key context "must be a string"])

/-- The source goes through a set here, so the order of these messages is not fixed. -/
def parse_hooks (table : Option Toml) : Except Exn (Checked HooksConfig) :=
  let context := "[hooks]"
  optionalSection table "hooks" .default fun table => do
    let unknown := reject_unknown_keys table HOOKS_KEYS context
    let pre_backup := parse_command table "pre_backup" context
    let post_backup := parse_command table "post_backup" context
    let pre_purge := parse_command table "pre_purge" context
    let post_run := parse_command table "post_run" context
    pure (⟨pre_backup.1, post_backup.1, pre_purge.1, post_run.1⟩,
      unknown ++ pre_backup.2 ++ post_backup.2 ++ pre_purge.2 ++ post_run.2)

def parse_type (table : Table) : Option DestinationType :=
  match getKey table "type" with
  | some (.str "local") => some .local
  | some (.str "ssh") => some .ssh
  | _ => none

def parse_keep (table : Table) (context : String) : Checked (Option ℕ) :=
  match getKey table "keep" with
  | some (.int z) =>
    if 1 ≤ z then (some z.toNat, []) else (none, [.field "keep" context "must be an integer >= 1"])
  | _ => (none, [.field "keep" context "must be an integer >= 1"])

def required_field (key context : String) (value : Toml) : List Problem :=
  if value.truthy then [] else [.field key context "is required for type=ssh"]

def parse_port (context : String) : Toml → Checked Toml
  | .int z =>
    if 0 < z ∧ z < 65536 then (.int z, [])
    else (.int 22, [.field "port" context "must be an integer in 1..65535"])
  | _ => (.int 22, [.field "port" context "must be an integer in 1..65535"])

def parse_ssh_options (context : String) (ssh_options : Toml) : Checked Toml :=
  match ssh_options.strings? with
  | some _ => (ssh_options, [])
  | none => (.array [], [.field "ssh_options" context "must be a list of strings"])

def parse_bwlimit_kbps (context : String) : Toml → Checked Toml
  | .int z =>
    if 0 ≤ z then (.int z, [])
    else (.int 0, [.field "bwlimit_kbps" context "must be a non-negative integer"])
  | _ => (.int 0, [.field "bwlimit_kbps" context "must be a non-negative integer"])

/-- The checks made for `type = "ssh"` only: port, options and bandwidth, and the messages. -/
def parse_ssh_fields (context : String) (host user ssh_key port ssh_options
    bwlimit_kbps : Toml) : Checked (Toml × Toml × Toml) :=
  let port := parse_port context port
  let ssh_options := parse_ssh_options context ssh_options
  let bwlimit_kbps := parse_bwlimit_kbps context bwlimit_kbps
  ((port.1, ssh_options.1, bwlimit_kbps.1),
    required_field "host" context host ++ required_field "user" context user ++
      required_field "ssh_key" context ssh_key ++ port.2 ++ ssh_options.2 ++ bwlimit_kbps.2)

def DESTINATION_KEYS : List String := ["name", "type", "path", "keep"]

def SSH_KEYS : List String := ["host", "port", "user", "ssh_key", "ssh_options", "bwlimit_kbps"]

def DestinationType.allowed : DestinationType → List String
  | .local => DESTINATION_KEYS
  | .ssh => DESTINATION_KEYS ++ SSH_KEYS

/-- `f"destinations[{index}]"` -/
def destContext (index : ℕ) : String := "destinations[" ++ String.ofList (natText index) ++ "]"

def reject_duplicate (name : Option String) (seen_names : List String) : List Problem :=
  match name with
  | some n => if n ∈ seen_names then [.other s!"duplicate destination name '{n}'"] else []
  | none => []

/-- One round of the loop over the entries: the destination, if its required keys are
there, the names seen, and the messages. -/
def parse_destination (index : ℕ) (table : Toml) (seen_names : List String) :
    Except Exn (Option DestinationConfig × List String × List Problem) :=
  let context := destContext index
  match table with
  | .table table =>
    match parse_type table with
    | none => do
      let got ← quoteKey table "type"
      pure (none, seen_names, [.field "type" context
        s!"must be one of {reprTuple VALID_DESTINATION_TYPES}, got {got}"])
    | some dest_type => do
      let unknown := reject_unknown_keys table dest_type.allowed context
      let name := require_str table "name" context
      let duplicate := reject_duplicate name.1 seen_names
      let path := require_str table "path" context
      let keep := parse_keep table context
      let host := (getKey table "host").getD (.str "")
      let user := (getKey table "user").getD (.str "")
      let ssh_key := (getKey table "ssh_key").getD (.str "")
      let port := (getKey table "port").getD (.int 22)
      let ssh_options := (getKey table "ssh_options").getD (.array [])
      let bwlimit_kbps := (getKey table "bwlimit_kbps").getD (.int 0)
      let fields : Checked (Toml × Toml × Toml) := match dest_type with
        | .ssh => parse_ssh_fields context host user ssh_key port ssh_options bwlimit_kbps
        | .local => ((port, ssh_options, bwlimit_kbps), [])
      let errors := unknown ++ name.2 ++ duplicate ++ path.2 ++ keep.2 ++ fields.2
      let seen := seen_names ++ name.1.toList
      match name.1, path.1, keep.1 with
      | some name, some path, some keep => do
        let options ← fields.1.2.1.toTuple
        pure (some ⟨name, dest_type, keep, path, host, fields.1.1, user, ssh_key, options,
          fields.1.2.2⟩, seen, errors)
      | _, _, _ => pure (none, seen, errors)
  | _ => .ok (none, seen_names, [.other s!"{context} must be a table"])

def parse_destination_list : ℕ → List Toml → List String →
    Except Exn (Checked (List DestinationConfig))
  | _, [], _ => .ok ([], [])
  | index, table :: raw_list, seen_names => do
    let (dest, seen, errors) ← parse_destination index table seen_names
    let (dests, errors') ← parse_destination_list (index + 1) raw_list seen
    pure (dest.toList ++ dests, errors ++ errors')

def parse_destinations (raw_list : Option Toml) : Except Exn (Checked (List DestinationConfig)) :=
  match raw_list with
  | none | some (.array []) =>
    .ok ([], [.document "destinations" "at least one [[destinations]] entry is required"])
  | some (.array tables) => parse_destination_list 0 tables []
  | some _ =>
    .ok ([], [.document "destinations" "'destinations' must be an array of tables"])

/-- The guard against one directory serving as work_dir and as destination compares texts. -/
def work_dir_collisions (backup : Option BackupConfig) (destinations : List DestinationConfig) :
    List Problem :=
  match backup with
  | none => []
  | some backup =>
    (destinations.filter (fun dest => dest.type = .local ∧ backup.work_dir.str = dest.path)).map
      (fun dest => .other s!"destination '{dest.name}': path must not equal backup.work_dir")

def check_schema_version (raw : Table) : Except Exn (List Problem) :=
  if ((getKey raw "schema_version").map Toml.eqOne).getD false then .ok []
  else do
    let got ← quoteKey raw "schema_version"
    pure [.document "schema_version" s!"schema_version must be 1, got {got}"]

def TOP_KEYS : List String :=
  ["schema_version", "backup", "replication", "transfer", "retention", "destinations", "logging",
    "lock", "hooks"]

/-- `parse_config` up to `errors.raise_if_any()`: the configuration, where there is one to
build, and all messages. -/
def parse_document (raw : Table) : Except Exn (Checked (Option Config)) := do
  let unknown := reject_unknown_keys raw TOP_KEYS "top-level"
  let schema_version := getKey raw "schema_version"
  let version ← check_schema_version raw
  let backup := parse_backup (getKey raw "backup")
  let replication ← parse_replication (getKey raw "replication")
  let transfer ← parse_transfer (getKey raw "transfer")
  let retention ← parse_retention (getKey raw "retention")
  let destinations ← parse_destinations (getKey raw "destinations")
  let logging_cfg ← parse_logging (getKey raw "logging")
  let lock ← parse_lock (getKey raw "lock")
  let hooks ← parse_hooks (getKey raw "hooks")
  let errors := unknown ++ version ++ backup.2 ++ replication.2 ++ transfer.2 ++ retention.2 ++
    destinations.2 ++ logging_cfg.2 ++ lock.2 ++ hooks.2 ++
    work_dir_collisions backup.1 destinations.1
  let config := match schema_version, backup.1 with
    | some schema_version, some backup => some ⟨schema_version, backup, destinations.1,
      replication.1, transfer.1, retention.1, logging_cfg.1, lock.1, hooks.1⟩
    | _, _ => none
  pure (config, errors)

def parse_config (raw : Table) : Except Exn Config := do
  let (config, errors) ← parse_document raw
  raise_if_any errors
  match config with
  | some config => .ok config
  | none => .error .assertion

/-- What the file system answers about the path of the configuration; a read that fails
gives the text of its `OSError`. -/
structure ConfigFile where
  path : String
  is_file : Bool
  read_bytes : Except String ByteArray

/-- `loads` is `tomllib.loads`, with the text of its `TOMLDecodeError`. -/
def load_config (loads : String → Except String Table) (file : ConfigFile) : Except Exn Config :=
  if file.is_file then
    match file.read_bytes with
    | .error exc => .error (.config s!"Cannot read config file {file.path}: {exc}")
    | .ok raw_bytes =>
      match String.fromUTF8? raw_bytes with
      | none => .error (.unicode "'utf-8' codec can't decode the file")
      | some text =>
        match loads text with
        | .error exc => .error (.config s!"Cannot parse TOML in {file.path}: {exc}")
        | .ok raw => parse_config raw
  else .error (.config s!"Config file not found: {file.path}")

theorem require_str_ok {table : Table} {key context : String}
    (h : (require_str table key context).2 = []) :
    ∃ s, (require_str table key context).1 = some s ∧ s ≠ "" := by
  unfold require_str at h ⊢
  split
  · simp_all
  · next s _ =>
    split_ifs with hs
    · exact ⟨s, rfl, hs⟩
    · simp_all
  · simp_all

theorem parse_keep_ok {table : Table} {context : String} (h : (parse_keep table context).2 = []) :
    ∃ k, (parse_keep table context).1 = some k ∧ 1 ≤ k := by
  unfold parse_keep at h ⊢
  split
  · next z _ =>
    split_ifs with hz
    · exact ⟨z.toNat, rfl, by omega⟩
    · simp_all
  · simp_all

/-- An entry without a message is a destination, and its name is new. -/
theorem parse_destination_ok {index : ℕ} {table : Toml} {seen_names seen : List String}
    {dest : Option DestinationConfig}
    (h : parse_destination index table seen_names = .ok (dest, seen, [])) :
    ∃ d, dest = some d ∧ d.name ∉ seen_names ∧ seen = seen_names ++ [d.name] ∧ 1 ≤ d.keep ∧
      d.path ≠ "" := by
  unfold parse_destination at h
  cases table with
  | table table =>
    dsimp only at h
    cases ht : parse_type table with
    | none =>
      simp only [ht] at h
      obtain ⟨got, -, h⟩ := except_bind_ok h
      cases h
    | some dest_type =>
      simp only [ht] at h
      generalize destContext index = context at h
      split at h
      · next name path keep hname hpath hkeep =>
        obtain ⟨options, -, heq⟩ := except_bind_ok h
        obtain ⟨hdest, hrest⟩ := Prod.mk.inj (Except.ok.inj heq)
        obtain ⟨hseen, herrors⟩ := Prod.mk.inj hrest
        simp only [List.append_eq_nil_iff] at herrors
        obtain ⟨⟨⟨⟨⟨-, -⟩, hdup⟩, hp⟩, hk⟩, -⟩ := herrors
        obtain ⟨p, hp, hpne⟩ := require_str_ok hp
        obtain ⟨k, hk, hk1⟩ := parse_keep_ok hk
        obtain rfl : path = p := Option.some.inj (hpath.symm.trans hp)
        obtain rfl : keep = k := Option.some.inj (hkeep.symm.trans hk)
        refine ⟨_, hdest.symm, ?_, ?_, hk1, hpne⟩
        · intro hmem
          simp [hname, hmem, reject_duplicate] at hdup
        · rw [← hseen, hname]
          rfl
      · next hmissing =>
        obtain ⟨-, hrest⟩ := Prod.mk.inj (Except.ok.inj h)
        have herrors := (Prod.mk.inj hrest).2
        simp only [List.append_eq_nil_iff] at herrors
        obtain ⟨⟨⟨⟨⟨-, hn⟩, -⟩, hp⟩, hk⟩, -⟩ := herrors
        obtain ⟨n, hn, -⟩ := require_str_ok hn
        obtain ⟨p, hp, -⟩ := require_str_ok hp
        obtain ⟨k, hk, -⟩ := parse_keep_ok hk
        exact (hmissing n p k hn hp hk).elim
  | _ => simp at h

theorem parse_destination_list_ok {index : ℕ} {raw_list : List Toml} {seen_names : List String}
    {dests : List DestinationConfig}
    (h : parse_destination_list index raw_list seen_names = .ok (dests, [])) :
    dests.length = raw_list.length ∧ (dests.map (·.name)).Nodup ∧
      ∀ d ∈ dests, d.name ∉ seen_names ∧ 1 ≤ d.keep ∧ d.path ≠ "" := by
  induction raw_list generalizing index seen_names dests with
  | nil =>
    obtain rfl : [] = dests := congrArg Prod.fst (Except.ok.inj h)
    simp
  | cons table raw_list ih =>
    rw [parse_destination_list] at h
    obtain ⟨⟨dest, seen, errors⟩, hd, h⟩ := except_bind_ok h
    obtain ⟨⟨rest, errors'⟩, hl, h⟩ := except_bind_ok h
    obtain ⟨hdests, herrors⟩ := Prod.mk.inj (Except.ok.inj h)
    obtain ⟨rfl, rfl⟩ := List.append_eq_nil_iff.mp herrors
    obtain ⟨d, rfl, hnew, rfl, hkeep, hpath⟩ := parse_destination_ok hd
    obtain ⟨hlen, hnodup, hall⟩ := ih hl
    subst hdests
    refine ⟨by simp [hlen], ?_, ?_⟩
    · simp only [Option.toList_some, List.singleton_append, List.map_cons, List.nodup_cons]
      refine ⟨fun hmem => ?_, hnodup⟩
      obtain ⟨e, he, hne⟩ := List.mem_map.mp hmem
      exact (hall e he).1 (by simp [hne])
    · intro e he
      rcases List.mem_append.mp he with he | he
      · obtain rfl : e = d := by simpa using he
        exact ⟨hnew, hkeep, hpath⟩
      · exact ⟨fun hs => (hall e he).1 (List.mem_append_left _ hs), (hall e he).2⟩

/-- The configurations that `parse_config` accepts. -/
structure Config.Accepted (config : Config) : Prop where
  some_destination : config.destinations ≠ []
  names : (config.destinations.map (·.name)).Nodup
  keep : ∀ d ∈ config.destinations, 1 ≤ d.keep
  work_dir : ∀ d ∈ config.destinations, d.type = .local → config.backup.work_dir.str ≠ d.path

theorem parse_destinations_ok {raw_list : Option Toml} {dests : List DestinationConfig}
    (h : parse_destinations raw_list = .ok (dests, [])) :
    dests ≠ [] ∧ (dests.map (·.name)).Nodup ∧ ∀ d ∈ dests, 1 ≤ d.keep := by
  unfold parse_destinations at h
  split at h
  · simp at h
  · simp at h
  · next tables hne =>
    obtain ⟨hlen, hnodup, hall⟩ := parse_destination_list_ok h
    refine ⟨?_, hnodup, fun d hd => (hall d hd).2.1⟩
    rintro rfl
    exact hne (List.length_eq_zero_iff.mp hlen.symm)
  · simp at h

/-- What `parse_config` went through to accept a document. -/
theorem parse_config_ok {raw : Table} {config : Config} (h : parse_config raw = .ok config) :
    parse_document raw = .ok (some config, []) := by
  rw [parse_config] at h
  obtain ⟨⟨config', errors⟩, hd, h⟩ := except_bind_ok h
  dsimp only at h
  obtain ⟨_, herrors, h⟩ := except_bind_ok h
  cases errors with
  | cons m errors => cases herrors
  | nil =>
    cases config' with
    | none => cases h
    | some config' =>
      obtain rfl := Except.ok.inj h
      exact hd

/-- The parts of an accepted document, each of which was parsed without a message. -/
structure Parts (raw : Table) (config : Config) : Prop where
  unknown : reject_unknown_keys raw TOP_KEYS "top-level" = []
  version : check_schema_version raw = .ok []
  schema_version : getKey raw "schema_version" = some config.schema_version
  backup : parse_backup (getKey raw "backup") = (some config.backup, [])
  replication : parse_replication (getKey raw "replication") = .ok (config.replication, [])
  transfer : parse_transfer (getKey raw "transfer") = .ok (config.transfer, [])
  retention : parse_retention (getKey raw "retention") = .ok (config.retention, [])
  destinations : parse_destinations (getKey raw "destinations") = .ok (config.destinations, [])
  logging : parse_logging (getKey raw "logging") = .ok (config.logging, [])
  lock : parse_lock (getKey raw "lock") = .ok (config.lock, [])
  hooks : parse_hooks (getKey raw "hooks") = .ok (config.hooks, [])
  collisions : work_dir_collisions (some config.backup) config.destinations = []

theorem parse_config_parts {raw : Table} {config : Config} (h : parse_config raw = .ok config) :
    Parts raw config := by
  have h := parse_config_ok h
  rw [parse_document] at h
  obtain ⟨version, hversion, h⟩ := except_bind_ok h
  obtain ⟨replication, hreplication, h⟩ := except_bind_ok h
  obtain ⟨transfer, htransfer, h⟩ := except_bind_ok h
  obtain ⟨retention, hretention, h⟩ := except_bind_ok h
  obtain ⟨destinations, hdestinations, h⟩ := except_bind_ok h
  obtain ⟨logging_cfg, hlogging, h⟩ := except_bind_ok h
  obtain ⟨lock, hlock, h⟩ := except_bind_ok h
  obtain ⟨hooks, hhooks, h⟩ := except_bind_ok h
  obtain ⟨hconfig, herrors⟩ := Prod.mk.inj (Except.ok.inj h)
  simp only [List.append_eq_nil_iff] at herrors
  obtain ⟨⟨⟨⟨⟨⟨⟨⟨⟨⟨h₁, h₂⟩, h₃⟩, h₄⟩, h₅⟩, h₆⟩, h₇⟩, h₈⟩, h₉⟩, h₁₀⟩, h₁₁⟩ := herrors
  split at hconfig
  · next schema_version backup hschema hbackup =>
    obtain rfl := Option.some.inj hconfig
    exact
      { unknown := h₁
        version := by rw [hversion, h₂]
        schema_version := hschema
        backup := Prod.ext hbackup h₃
        replication := by rw [hreplication, ← h₄]
        transfer := by rw [htransfer, ← h₅]
        retention := by rw [hretention, ← h₆]
        destinations := by rw [hdestinations, ← h₇]
        logging := by rw [hlogging, ← h₈]
        lock := by rw [hlock, ← h₉]
        hooks := by rw [hhooks, ← h₁₀]
        collisions := by rw [← hbackup, h₁₁] }
  · cases hconfig

theorem parse_config_accepted {raw : Table} {config : Config}
    (h : parse_config raw = .ok config) : config.Accepted := by
  have parts := parse_config_parts h
  obtain ⟨hne, hnodup, hkeep⟩ := parse_destinations_ok parts.destinations
  refine ⟨hne, hnodup, hkeep, fun d hmem hlocal heq => ?_⟩
  have hcollide := parts.collisions
  simp only [work_dir_collisions, List.map_eq_nil_iff, List.filter_eq_nil_iff] at hcollide
  exact hcollide d hmem (by simp [hlocal, heq])

theorem parse_name_prefix_ok {table : Table} {context s : String}
    (h : parse_name_prefix table context = (s, [])) : s ≠ "" := by
  unfold parse_name_prefix at h
  split at h
  · obtain ⟨rfl, herrors⟩ := Prod.mk.inj h
    split_ifs at herrors with hne
    exact hne
  · exact absurd (Prod.mk.inj h).2 (List.cons_ne_nil _ _)

/-- The prefix of an accepted configuration is not empty. -/
theorem parse_config_name_prefix {raw : Table} {config : Config}
    (h : parse_config raw = .ok config) : config.backup.name_prefix ≠ "" := by
  have hbackup := (parse_config_parts h).backup
  unfold parse_backup at hbackup
  split at hbackup
  · exact absurd (Prod.mk.inj hbackup).1 (by simp)
  · next table =>
    obtain ⟨hsome, herrors⟩ := Prod.mk.inj hbackup
    obtain ⟨work_dir, -, hbuilt⟩ := Option.map_eq_some_iff.mp hsome
    simp only [List.append_eq_nil_iff] at herrors
    rw [← hbuilt]
    exact parse_name_prefix_ok (Prod.ext rfl herrors.1.1.1.2)
  · exact absurd (Prod.mk.inj hbackup).1 (by simp)

end MbKeeper
