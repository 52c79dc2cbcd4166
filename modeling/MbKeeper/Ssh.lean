import MbKeeper.Local
import MbKeeper.Processes

/-!
# The ssh destination

Every operation is one command of a remote POSIX shell or one transfer by
rsync. A command may fail before, within or after its effect on the remote
tree: the reply says how far it got, and a lost reply looks like a failure. A
command whose quoted paths hold a character that the shell interprets inside
double quotes may do anything.
-/
namespace MbKeeper

/-- The shell of a node, as far as the list script depends on it: `echo` takes text without a
backslash literally, and `stat -c %Y` prints the time of an operand; a name that begins with
a dash is an option. -/
structure Shell where
  echo : String → String
  stat : Name → Instant → Option ℤ
  echo_plain : ∀ s, '\\' ∉ s.toList → echo s = s ++ "\n"
  stat_operand : ∀ x t, x.val.toList.head? ≠ some '-' → stat x t = some (second t)

/-- A shell whose `echo` takes a backslash as it is. -/
def Shell.plain : Shell where
  echo s := s ++ "\n"
  stat x t := if x.val.toList.head? = some '-' then none else some (second t)
  echo_plain _ _ := rfl
  stat_operand _ _ h := if_neg h

/-- A remote node: the directory a login starts in, and its shell. -/
structure RemoteNode where
  login : Loc
  shell : Shell

/-- A path in a command: its text, and where it leads. -/
structure RemotePath where
  text : String
  path : Path

namespace RemotePath

/-- A path in a remote command, from the login directory where it is relative. The commands quote
it, so that a tilde in front is a character as any other; `rsync` expands it. -/
def configured (node : RemoteNode) (text : String) : RemotePath :=
  ⟨text, Path.configured node.login (PurePath.parse text)⟩

/-- The path followed by a slash and `s`. -/
def sub (p : RemotePath) (s : String) : RemotePath :=
  ⟨p.text ++ "/" ++ s, { p.path with
    steps := p.path.steps ++ stepsOf (PurePath.partsOf s.toList)
    nul := p.path.nul || hasNul s }⟩

end RemotePath

/-- The characters that keep a meaning inside double quotes. -/
def isLive (c : Char) : Bool := c = '"' ∨ c = '$' ∨ c = '\\' ∨ c.toNat = 96

def Literal (s : String) : Prop := ∀ c ∈ s.toList, isLive c = false

instance (s : String) : Decidable (Literal s) := inferInstanceAs (Decidable (∀ c ∈ s.toList, _))

inductive RemoteCommand where
  | test_f (path : RemotePath)
  | mkdir_p (path : RemotePath)
  | mv (src dst : RemotePath)
  | rm_rf (final part : RemotePath)
  | list (path : RemotePath)
  | probe (path file : RemotePath)

def LIST_SCRIPT (path metaName suffix : String) : String :=
  s!"set -e; cd \"{path}\" 2>/dev/null || exit 0; " ++
  "for entry in */; do " ++
  "name=\"$\x7bentry%/\x7d\"; " ++
  "mtime=$(stat -c %Y \"$name\" 2>/dev/null || echo 0); " ++
  s!"if [ -f \"$name/{metaName}\" ]; then echo \"COMPLETE $name $mtime\"; " ++
  s!"elif [ \"$\x7bname%{suffix}\x7d\" != \"$name\" ]; then " ++
  s!"echo \"PARTIAL $\x7bname%{suffix}\x7d $mtime\"; " ++
  "fi; " ++
  "done"

namespace RemoteCommand

def text : RemoteCommand → String
  | test_f path => s!"test -f \"{path.text}\""
  | mkdir_p path => s!"mkdir -p \"{path.text}\""
  | mv src dst => s!"mv \"{src.text}\" \"{dst.text}\""
  | rm_rf final part => s!"rm -rf \"{final.text}\" \"{part.text}\""
  | list path => LIST_SCRIPT path.text META_FILENAME.val PARTIAL_SUFFIX
  | probe path file =>
    s!"mkdir -p \"{path.text}\" && touch \"{file.text}\" && rm -f \"{file.text}\""

def paths : RemoteCommand → List RemotePath
  | test_f path | mkdir_p path | list path => [path]
  | mv a b | rm_rf a b | probe a b => [a, b]

/-- The shell reads every path as it is written. -/
def Literal (cmd : RemoteCommand) : Prop := ∀ p ∈ cmd.paths, MbKeeper.Literal p.text

instance (cmd : RemoteCommand) : Decidable cmd.Literal :=
  inferInstanceAs (Decidable (∀ p ∈ cmd.paths, _))

/-- Only the paths of a command can bring a NUL into its text. -/
theorem hasNul_text (cmd : RemoteCommand) :
    hasNul cmd.text = cmd.paths.any (fun p => hasNul p.text) := by
  have hstr (s : String) : toString s = s := rfl
  cases cmd <;> unfold text
  case list =>
    unfold LIST_SCRIPT PARTIAL_SUFFIX
    simp only [hstr, hasNul_append, hasNul_name, paths, List.any_cons, List.any_nil]
    repeat rw [hasNul_ofList (by decide +kernel)]
    simp only [Bool.false_or, Bool.or_false]
  all_goals
    simp only [hstr, hasNul_append, paths, List.any_cons, List.any_nil]
    repeat rw [hasNul_ofList (by decide +kernel)]
    simp

end RemoteCommand

/-- How a command that ran to its end left the remote tree. -/
structure Finished where
  world : World
  status : ℤ
  stdout : String

/-- Where `mv` puts `a` when it is given `b`: into `b` when that is a directory. -/
def mvTarget (t : Fs) (a b : Loc) : Loc :=
  if t.isDir b then b ++ a.drop (a.length - 1) else b

/-- A directory moved on the host `h`; it is a commit when it took the name it was given. -/
def World.remoteMove (w : World) (h : String) (a b : Loc) (s : Instant) : World :=
  let t := w.tree (some h)
  let w' := w.setTree (some h) (t.move a (mvTarget t a b) s)
  if t.isDir b then w' else w'.commit ⟨some h, b, fun l => t.kind (a ++ l)⟩

/-- `rm` refuses an operand whose last component is dotted, and the root. -/
def rmRefuses (p : RemotePath) (l : Loc) : Bool :=
  let parts := (p.text.toList.splitOn '/').filter (· ≠ [])
  l = [] ∨ parts.getLast? = some ['.'] ∨ parts.getLast? = some ['.', '.']

def rmTarget (t : Fs) (p : RemotePath) : Option Loc :=
  (p.path.find t).filter (fun l => !rmRefuses p l)

def rmOperand (t : Fs) (p : RemotePath) (s : Instant) : Fs :=
  match rmTarget t p with
  | some l => t.removeTree l s
  | none => t

def rmFails (t : Fs) (p : RemotePath) : Bool :=
  (p.path.find t).any (fun l => rmRefuses p l)

/-- The line the list script writes of the directory `x`. -/
def listLine (shell : Shell) (t : Fs) (l : Loc) (x : Name) : String :=
  let mtime := String.ofList (match shell.stat x (LocalDestination.mtimeAt t (l ++ [x])) with
    | some z => intText z
    | none => ['0'])
  if t.isFile (l ++ [x] ++ [META_FILENAME]) then shell.echo s!"COMPLETE {x.val} {mtime}"
  else match stripSuffix PARTIAL_SUFFIX x.val with
    | some backup_id => shell.echo s!"PARTIAL {backup_id} {mtime}"
    | none => ""

/-- The directories that the glob of the list script yields. -/
def globbed (t : Fs) (l : Loc) : List Name :=
  ((LocalDestination.dirsIn t l).filter (fun x => x.val.toList.head? ≠ some '.')).insertionSort
    (fun x y => x.val ≤ y.val)

def listOutput (shell : Shell) (t : Fs) (l : Loc) : String :=
  String.join ((globbed t l).map (listLine shell t l))

namespace RemoteCommand

/-- The command run to its end on the host `h`. -/
def full (node : RemoteNode) (h : String) (w : World) (s : Instant) : RemoteCommand → Finished
  | test_f p => ⟨w, if p.path.isFileIn (w.tree (some h)) then 0 else 1, ""⟩
  | mkdir_p p =>
    if blocked (w.tree (some h)) p.path then ⟨w, 1, ""⟩
    else ⟨w.setTree (some h) ((w.tree (some h)).mkdirs p.path.chain s), 0, ""⟩
  | mv src dst =>
    match src.path.find (w.tree (some h)), dst.path.find (w.tree (some h)) with
    | some a, some b =>
      if renamable (w.tree (some h)) a (mvTarget (w.tree (some h)) a b) then
        ⟨w.remoteMove h a b s, 0, ""⟩
      else ⟨w, 1, ""⟩
    | _, _ => ⟨w, 1, ""⟩
  | rm_rf final part =>
    let t := w.tree (some h)
    let t' := rmOperand t final s
    ⟨w.setTree (some h) (rmOperand t' part s),
      if rmFails t final ∨ rmFails t' part then 1 else 0, ""⟩
  | list p => ⟨w, 0, match p.path.find (w.tree (some h)) with
    | some l => if (w.tree (some h)).isDir l then listOutput node.shell (w.tree (some h)) l else ""
    | none => ""⟩
  | probe p file =>
    if blocked (w.tree (some h)) p.path ∨ file.path.isDirIn (w.tree (some h)) then ⟨w, 1, ""⟩
    else
      let t := (w.tree (some h)).mkdirs p.path.chain s
      ⟨w.setTree (some h) (match file.path.find t with
        | some l => t.removeTree l s
        | none => t), 0, ""⟩

/-- `touch` of a file -/
def touched (t : Fs) (file : RemotePath) (s : Instant) : Fs :=
  match file.path.find t with
  | some l => if t.present l then t.touch l s else t.create l (.file "") s
  | none => t

/-- What a command that was cut short, after the reply `r`, had done. -/
def part (h : String) (w : World) (r : Reply) : RemoteCommand → World
  | mkdir_p p =>
    if blocked (w.tree (some h)) p.path then w
    else w.setTree (some h) ((w.tree (some h)).mkdirs (p.path.chain.take r.count) r.stamp)
  | probe p file =>
    if blocked (w.tree (some h)) p.path then w
    else
      let t := (w.tree (some h)).mkdirs (p.path.chain.take r.count) r.stamp
      -- past the last directory, the file is there and its removal did not come
      w.setTree (some h) (if p.path.chain.length < r.count then touched t file r.stamp else t)
  | rm_rf final part =>
    let t := w.tree (some h)
    let targets := (rmTarget t final).toList ++ (rmTarget t part).toList
    w.setTree (some h) (t.unlinkAll (r.paths.filter (fun q => targets.any (· <+: q))) r.stamp)
  | test_f _ | mv _ _ | list _ => w

/-- What became of the remote tree: the command took effect, or it was cut short. -/
def cut (node : RemoteNode) (h : String) (w : World) (r : Reply) (cmd : RemoteCommand) : World :=
  if r.applied then (cmd.full node h w r.stamp).world else cmd.part h w r

end RemoteCommand

/-- `ssh user@host <command>` -/
def remote_call (node : RemoteNode) (h : String) (cmd : RemoteCommand) : Io CompletedProcess :=
  primitive fun r w =>
    if cmd.Literal then
      match r.fault with
      | some e => (.error e, cmd.cut node h w r)
      | none =>
        if r.status = 0 then
          let done := cmd.full node h w r.stamp
          (.ok ⟨done.status, done.stdout, ""⟩, done.world)
        else (.ok ⟨r.status, r.stdout, r.stderr⟩, cmd.cut node h w r)
    else
      let w' := w.setTree (some h) (r.wild (w.tree (some h)))
      match r.fault with
      | some e => (.error e, w')
      | none => (.ok ⟨r.status, r.stdout, r.stderr⟩, w')

/-- An excluded name excludes what it names in every directory. -/
def excludes (exclude : Name → Bool) (l : Loc) : Bool := l.any exclude

section

-- the proof behind `∈` below, by name
local instance lawfulLoc : LawfulBEq Loc := inferInstance

/-- A transfer of a directory that stopped: some of what the source lacks is gone, and some of
what it has was copied. -/
def rsyncPart (t source : Fs) (a b : Loc) (skip : Loc → Bool) (paths : List Loc) (s : Instant) :
    Fs :=
  (t.unlinkAll (paths.filter (fun q => b <+: q ∧ ¬ source.present (a ++ q.drop b.length) ∧
    ¬ t.holdsSkipped b skip q)) s).sync source a b skip
      (fun l => source.present (a ++ l) ∧ l.inits.all (fun p => b ++ p ∈ paths))

end

/-- `rsync -a --partial --delete --exclude=… src/ host:dst` -/
def rsync_directory_call (h : String) (src : Path) (dst : RemotePath) (exclude : Name → Bool) :
    Io CompletedProcess := primitive fun r w =>
  let t := w.tree (some h)
  match src.find w.fs, dst.path.find t with
  | some a, some b =>
    if w.fs.isDir a ∧ (t.isDir b ∨ t.kind b = none ∧ t.isDir b.dropLast) then
      let whole := w.setTree (some h) (t.sync w.fs a b (excludes exclude) (fun _ => true))
      let stopped := if r.applied then whole
        else w.setTree (some h) (rsyncPart t w.fs a b (excludes exclude) r.paths r.stamp)
      match r.fault with
      | some e => (.error e, stopped)
      | none =>
        if r.status = 0 then (.ok ⟨0, r.stdout, r.stderr⟩, whole)
        else (.ok ⟨r.status, r.stdout, r.stderr⟩, stopped)
    else (match r.fault with
      | some e => .error e
      | none => .ok ⟨if r.status = 0 then 23 else r.status, r.stdout, r.stderr⟩, w)
  | _, _ => (match r.fault with
    | some e => .error e
    | none => .ok ⟨if r.status = 0 then 23 else r.status, r.stdout, r.stderr⟩, w)

/-- `rsync -a src host:dst` of a file, which goes into `dst` when that is a directory. -/
def rsync_file_call (h : String) (src : Path) (dst : RemotePath) : Io CompletedProcess :=
  primitive fun r w =>
    let t := w.tree (some h)
    let refused : Except Exn CompletedProcess := match r.fault with
      | some e => .error e
      | none => .ok ⟨if r.status = 0 then 23 else r.status, r.stdout, r.stderr⟩
    match src.find w.fs, dst.path.find t with
    | some a, some b =>
      match w.fs.kind a with
      | some (.file d) =>
        if t.isDir (mvTarget t a b).dropLast then
          let sent := w.setTree (some h) (t.write (mvTarget t a b) d r.stamp)
          match r.fault with
          | some e => (.error e, if r.applied then sent else w)
          | none =>
            if r.status = 0 then (.ok ⟨0, r.stdout, r.stderr⟩, sent)
            else (.ok ⟨r.status, r.stdout, r.stderr⟩, if r.applied then sent else w)
        else (refused, w)
      | _ => (refused, w)
    | _, _ => (refused, w)

/-- `datetime.fromtimestamp` of the seconds of a line. Seconds beyond the platform's own calendar
raise `OverflowError` or `OSError` instead, which nothing here tells from the `ValueError`. -/
def stampOf (seconds : ℤ) : Except Exn Datetime :=
  if Representable (seconds * 1000000) then .ok (Datetime.utc (seconds * 1000000))
  else .error (.value "year is out of range")

/-- One line of the listing; a line that does not have three parts is skipped. -/
def parse_list_line (line : List Char) : Except Exn (Option StoredBackup) :=
  match line.splitOn ' ' with
  | [status, backup_id, mtime] => do
    let seconds ← pyIntText (String.ofList mtime)
    let stored_at ← stampOf seconds
    pure (some ⟨String.ofList backup_id, status = "COMPLETE".toList, stored_at⟩)
  | _ => .ok none

def parse_list_lines : List (List Char) → Except Exn (List StoredBackup)
  | [] => .ok []
  | line :: lines => do
    let first ← parse_list_line line
    let rest ← parse_list_lines lines
    pure (first.toList ++ rest)

def parse_list_output (stdout : String) : Except Exn (List StoredBackup) :=
  parse_list_lines (splitlines stdout.toList)

structure SSHDestination where
  name : String
  host : String
  port : Toml
  user : String
  remote_path : String
  ssh_key : Toml
  ssh_options : List Toml
  bwlimit_kbps : Toml
  rsync_path : Toml
  retries : ℕ
  keep : ℕ
  node : RemoteNode

def build_ssh_argv (ssh_key port : Toml) (ssh_options : List Toml) : List Toml :=
  [.str "ssh", .str "-i", ssh_key, .str "-p", .str port.pyStr, .str "-o", .str "BatchMode=yes"] ++
    ssh_options

/-- `" ".join(argv)` -/
def joinArgv (argv : List Toml) : Except Exn String := do
  let args ← argvStrings argv
  pure (" ".intercalate args)

def build_rsync_argv (rsync_path : Toml) (ssh_argv : List Toml) (src : Path) (dst : String)
    (bwlimit_kbps : Toml) (exclude : List String) : Except Exn (List Toml) := do
  let rsh ← joinArgv ssh_argv
  pure ([rsync_path, .str "-a", .str "--partial", .str "--delete"] ++
    (if bwlimit_kbps.truthy then [.str s!"--bwlimit={bwlimit_kbps.pyStr}"] else []) ++
    exclude.map (fun pattern => .str s!"--exclude={pattern}") ++
    [.str "-e", .str rsh, .str (src.str ++ "/"), .str dst])

def build_rsync_file_argv (rsync_path : Toml) (ssh_argv : List Toml) (src : Path) (dst : String) :
    Except Exn (List Toml) := do
  let rsh ← joinArgv ssh_argv
  pure [rsync_path, .str "-a", .str "-e", .str rsh, .str src.str, .str dst]

/-- What `subprocess.run` checks before it starts a process. -/
def started (argv : Except Exn (List Toml)) : Io Unit := do
  let argv ← liftExcept argv
  let args ← liftExcept (argvStrings argv)
  if args.any hasNul then throw (.value "embedded null byte") else pure ()

theorem started_of_strings {argv : List Toml} {args : List String}
    (hargs : argvStrings argv = .ok args) (hnul : args.any hasNul = false) :
    started (.ok argv) = pure () := by
  simp only [started, liftExcept, pure_bind, hargs, hnul]
  rfl

namespace SSHDestination

variable (d : SSHDestination)

def path : RemotePath := RemotePath.configured d.node d.remote_path

def final_path (backup_id : String) : RemotePath := d.path.sub backup_id

def partial_path (backup_id : String) : RemotePath := d.path.sub (backup_id ++ PARTIAL_SUFFIX)

def ssh_argv : List Toml := build_ssh_argv d.ssh_key d.port d.ssh_options

def user_host : String := d.user ++ "@" ++ d.host

/-- One ssh command; what keeps it from running is a `DestinationError`. -/
def remote_process (cmd : RemoteCommand) : Io CompletedProcess :=
  tryCatch (do
    started (.ok (d.ssh_argv ++ [.str d.user_host, .str cmd.text]))
    remote_call d.node d.host cmd) fun
    | .os m | .subprocess m =>
      throw (.destination s!"destination '{d.name}': ssh command failed: {m}")
    | e => throw e

def remote_run (cmd : RemoteCommand) : Io CompletedProcess := do
  let proc ← d.remote_process cmd
  if proc.returncode ≠ 0 then
    let code := String.ofList (intText proc.returncode)
    let detail := stripText proc.stderr
    throw (.destination
      s!"destination '{d.name}': remote command failed (returncode={code}): {detail}")
  else pure proc

def remote_file_exists (path : RemotePath) : Io Bool := do
  let proc ← d.remote_process (.test_f path)
  pure (proc.returncode = 0)

/-- What one attempt of a transfer came to: success, or the text of its failure. -/
def attemptTransfer (argv : Except Exn (List Toml)) (call : Io CompletedProcess) :
    Io (Except String Unit) :=
  tryCatch (do
    started argv
    let proc ← call
    pure (if proc.returncode = 0 then .ok ()
      else .error (if stripText proc.stderr ≠ "" then stripText proc.stderr
        else "rsync exited " ++ String.ofList (intText proc.returncode)))) fun
    | .os m | .subprocess m => pure (.error m)
    | e => throw e

def run_with_retries (argv : Except Exn (List Toml)) (call : Io CompletedProcess) :
    ℕ → String → Io Unit
  | 0, last_error =>
    throw (.destination s!"destination '{d.name}': rsync failed after retries: {last_error}")
  | n + 1, _ => do
    let outcome ← attemptTransfer argv call
    match outcome with
    | .ok () => pure ()
    | .error last_error => run_with_retries argv call n last_error

def rsync_directory (src : Path) (dst : RemotePath) : Io Unit :=
  d.run_with_retries
    (build_rsync_argv d.rsync_path d.ssh_argv src (d.user_host ++ ":" ++ dst.text) d.bwlimit_kbps
      [META_FILENAME.val])
    (rsync_directory_call d.host src dst (· = META_FILENAME)) (d.retries + 1) "unknown error"

def rsync_meta_file (src : Path) (dst : RemotePath) : Io Unit :=
  d.run_with_retries
    (build_rsync_file_argv d.rsync_path d.ssh_argv src (d.user_host ++ ":" ++ dst.text))
    (rsync_file_call d.host src dst) (d.retries + 1) "unknown error"

def send_meta (local_dir : Path) (backup_id : String) : Io Unit := do
  let has_meta ← is_file (local_dir.child META_FILENAME)
  if has_meta then
    d.rsync_meta_file (local_dir.child META_FILENAME)
      ((d.partial_path backup_id).sub META_FILENAME.val)
  else pure ()

/-- The part of `store` after the check that the generation is not there yet. -/
def transfer (local_dir : Path) (backup_id : String) : Io Unit := do
  let _ ← d.remote_run (.mkdir_p d.path)
  d.rsync_directory local_dir (d.partial_path backup_id)
  d.send_meta local_dir backup_id
  let _ ← d.remote_run (.mv (d.partial_path backup_id) (d.final_path backup_id))

def store (local_dir : Path) (backup_id : String) : Io Unit := do
  let complete ← d.remote_file_exists ((d.final_path backup_id).sub META_FILENAME.val)
  if complete then pure () else d.transfer local_dir backup_id

def list_backups : Io (List StoredBackup) := do
  let proc ← d.remote_run (.list d.path)
  liftExcept (parse_list_output proc.stdout)

def delete (backup_id : String) : Io Unit := do
  let _ ← d.remote_run (.rm_rf (d.final_path backup_id) (d.partial_path backup_id))

def check : Io Unit := do
  let _ ← d.remote_run (.probe d.path (d.path.sub CHECK_PROBE_FILENAME.val))

def toDestination : Destination :=
  ⟨d.name, d.keep, d.store, d.list_backups, d.delete, d.check⟩

end SSHDestination

end MbKeeper
