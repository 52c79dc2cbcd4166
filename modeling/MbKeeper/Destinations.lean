import MbKeeper.Orchestrator
import MbKeeper.Ssh

/-!
# The registry of destinations

`build_destination` is the one place that goes from the type of a configured
destination to its backend. Hosts of different names are different machines.
-/
namespace MbKeeper

/-- `LocalDestination.from_config` -/
def LocalDestination.from_config (cwd : Loc) (config : DestinationConfig) : LocalDestination :=
  ⟨config.name, Path.configured cwd (PurePath.parse config.path), config.keep⟩

/-- `SSHDestination.from_config` -/
def SSHDestination.from_config (nodes : String → RemoteNode) (config : DestinationConfig)
    (transfer : TransferConfig) : SSHDestination where
  name := config.name
  host := config.host.pyStr
  port := config.port
  user := config.user.pyStr
  remote_path := config.path
  ssh_key := config.ssh_key
  ssh_options := config.ssh_options
  bwlimit_kbps := config.bwlimit_kbps
  rsync_path := transfer.rsync_path
  retries := transfer.retries
  keep := config.keep
  node := nodes config.host.pyStr

def build_destination (cwd : Loc) (nodes : String → RemoteNode) (config : DestinationConfig)
    (transfer : TransferConfig) : Destination :=
  match config.type with
  | .local => (LocalDestination.from_config cwd config).toDestination
  | .ssh => (SSHDestination.from_config nodes config transfer).toDestination

/-- The program in the directory `cwd`, with these remote nodes. -/
def site (cwd : Loc) (nodes : String → RemoteNode) : Site := ⟨cwd, build_destination cwd nodes⟩

/-- A configured path leads to one place, whatever the tree. -/
theorem Path.configured_at {cwd : Loc} {p : PurePath} (h : ∀ s ∈ p.parts, hasNul s = false) :
    (Path.configured cwd p).At (Path.configured cwd p).loc where
  steps := ⟨[], rfl, by simp [Path.configured, Path.loc, FileTree.resolve]⟩
  nul := by simpa [Path.configured] using h

/-- One local destination, and nothing set that has a default. -/
def smallTable (work_dir name_prefix path : String) (keep : ℤ) : Table :=
  [("schema_version", .int 1),
    ("backup", .table [("work_dir", .str work_dir), ("name_prefix", .str name_prefix)]),
    ("destinations", .array [.table [("name", .str "disk"), ("type", .str "local"),
      ("path", .str path), ("keep", .int keep)]])]

def smallDestination (path : String) (keep : ℕ) : DestinationConfig :=
  ⟨"disk", .local, keep, path, .str "", .int 22, .str "", .str "", [], .int 0⟩

/-- What `smallTable` is parsed to. -/
def smallConfig (work_dir name_prefix path : String) (keep : ℕ) : Config where
  schema_version := .int 1
  backup :=
    ⟨PurePath.parse work_dir, name_prefix, .str "mariabackup", .str "", .str "", [], true, 0⟩
  destinations := [smallDestination path keep]
  replication := ReplicationConfig.default
  transfer := TransferConfig.default
  retention := RetentionConfig.default
  logging := LoggingConfig.default
  lock := LockConfig.default
  hooks := HooksConfig.default

/-- Decided by evaluation; the proof refers to nothing but the name itself. -/
theorem legal_of_decide (s : String) (h : decide (Legal s) = true) : Legal s := of_decide_eq_true h

theorem true_eq_true : true = true := rfl

def entry (s : String) (h : Legal s := by exact legal_of_decide _ true_eq_true) : Name := ⟨s, h⟩

/-- The directories `/b` and `/w`. -/
def smallTree : Fs :=
  ((FileTree.empty.create [] .dir 0).create [entry "b"] .dir 0).create [entry "w"] .dir 0

/-- A generation with its manifest. -/
def FileTree.addGeneration (t : Fs) (l : Loc) : Fs :=
  (t.create l .dir 0).create (l ++ [META_FILENAME]) (.file "") 0

/-- This node has the tree `t`, and no call fails. -/
def smallWorld (t : Fs) : World :=
  ⟨fun h => if h = none then t else smallTree, fun _ => Reply.good 1700000000000000, []⟩

@[simp] theorem fs_smallWorld (t : Fs) : (smallWorld t).fs = t := rfl

theorem smallWorld_calm (t : Fs) : Calm (smallWorld t) := fun _ => rfl

def smallNodes : String → RemoteNode := fun _ => ⟨[], Shell.plain⟩

def smallLocal : LocalDestination := LocalDestination.from_config [] (smallDestination "/b" 1)

/-- The directory `/b` of the host `vault`. -/
def smallRemote : SSHDestination where
  name := "vault"
  host := "vault"
  port := .int 22
  user := "keeper"
  remote_path := "/b"
  ssh_key := .str "/key"
  ssh_options := []
  bwlimit_kbps := .int 0
  rsync_path := .str "rsync"
  retries := 0
  keep := 1
  node := ⟨[], Shell.plain⟩

/-- This node has the tree `t`, every host has `remote`, and no call fails. -/
def remoteWorld (t remote : Fs) : World :=
  ⟨fun h => if h = none then t else remote, fun _ => Reply.good 1700000000000000, []⟩

/-- What a store of `/w/x` under the id leaves. -/
def storeUnder (D : Destination) (backup_id : String) (w : World) : World :=
  (exec (D.store (Path.configured [] (PurePath.parse "/w/x")) backup_id) w).2

def deleteUnder (D : Destination) (backup_id : String) (w : World) : World :=
  (exec (D.delete backup_id) w).2

/-- A store, its deletion, and a store under another id. -/
def threeDeeds (D : Destination) (w : World) : World :=
  storeUnder D "y" (deleteUnder D "x" (storeUnder D "x" w))

end MbKeeper
