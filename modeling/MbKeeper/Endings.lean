import MbKeeper.Cli
import MbKeeper.Raising

/-!
# What the operations raise

An exception is told by the code its process would end with. Each operation, on
the files, of a process or of a destination, raises exceptions of one code at
most besides what the system raises through it: `Ends` says which. It assumes
that no call of the system raises an exception of the program's own.
-/
namespace MbKeeper

variable {α : Type} {w w' : World}

/-- The exception is one of the system's, or ends the process with one of the codes. -/
def Exn.Among (codes : List ExitCode) (e : Exn) : Prop :=
  e.exit_code = .INTERNAL_ERROR ∨ e.exit_code ∈ codes

/-- No call of the system raises an exception of the program's own. -/
def ForeignFaults (w : World) : Prop :=
  ∀ n e, (w.tape n).fault = some e → e.exit_code = .INTERNAL_ERROR

theorem ForeignFaults.next (h : ForeignFaults w) : ForeignFaults w.next := fun n => h (n + 1)

theorem ForeignFaults.of_tape (h : ForeignFaults w) (ht : w'.tape = w.tape) : ForeignFaults w' := by
  intro n e he
  rw [ht] at he
  exact h n e he

/-- What a part of the program raises, under faults that are the system's. -/
def Ends (codes : List ExitCode) (m : Io α) : Prop := Raises ForeignFaults (Exn.Among codes) m

variable {codes codes' : List ExitCode} {m : Io α}

theorem Exn.Among.mono {e : Exn} (h : e.Among codes) (hc : codes ⊆ codes') : e.Among codes' :=
  h.imp_right (fun he => hc he)

/-- What a handler of the code `c` lets through. -/
theorem Exn.Among.unhandled {e : Exn} {c : ExitCode} (h : e.Among [c]) (hne : e.exit_code ≠ c) :
    e.Among codes := .inl (h.resolve_right (fun hmem => hne (List.mem_singleton.mp hmem)))

theorem Ends.mono (h : Ends codes m) (hc : codes ⊆ codes') : Ends codes' m :=
  Raises.mono h (fun _ he => he.mono hc)

/-- A handler that raises nothing new. -/
theorem Ends.handled {handler : Exn → Io α} (hm : Ends codes m)
    (hh : ∀ e, e.Among codes → Ends codes (handler e)) : Ends codes (tryCatch m handler) :=
  Raises.tryCatch hm hh

/-- The end of a call: it takes one reply, and it raises its fault or an error of the system that
it finds itself. -/
structure Replied (r : Reply) (w : World) (x : Except Exn α × World) : Prop where
  tape : x.2.tape = w.tape
  raised : ∀ e, x.1 = .error e → r.fault = some e ∨ e.exit_code = .INTERNAL_ERROR

namespace Replied

variable {r : Reply} {e : Exn}

theorem returned (a : α) (h : w'.tape = w.tape) : Replied r w (.ok a, w') :=
  ⟨h, fun _ he => nomatch he⟩

theorem fault (hf : r.fault = some e) (h : w'.tape = w.tape) :
    Replied r w ((.error e, w') : Except Exn α × World) :=
  ⟨h, fun _ he => .inl (Except.error.inj he ▸ hf)⟩

theorem own (he : e.exit_code = .INTERNAL_ERROR) (h : w'.tape = w.tape) :
    Replied r w ((.error e, w') : Except Exn α × World) :=
  ⟨h, fun _ heq => .inr (Except.error.inj heq ▸ he)⟩

theorem ite {c : Prop} [Decidable c] {x y : Except Exn α × World} (hx : Replied r w x)
    (hy : Replied r w y) : Replied r w (if c then x else y) := by
  split
  · exact hx
  · exact hy

/-- A call that either fails or does its work. -/
theorem outcome {a : α} {failed : Exn → World} {done : World}
    (hfailed : ∀ e, (failed e).tape = w.tape) (hdone : done.tape = w.tape) :
    Replied r w (match r.fault with
      | some e => (.error e, failed e)
      | none => (.ok a, done)) := by
  split
  · next e hf => exact fault hf (hfailed e)
  · exact returned a hdone

end Replied

theorem primitive_ends {f : Reply → World → Except Exn α × World}
    (h : ∀ r w, Replied r w (f r w)) : Ends codes (primitive f) := by
  intro w hw
  rw [exec_primitive]
  have hend := h (w.tape 0) w.next
  refine ⟨hw.next.of_tape hend.tape, fun e he => .inl ?_⟩
  rcases hend.raised e he with hfault | hown
  · exact hw 0 e hfault
  · exact hown

theorem ask_ends (q : Reply → World → α) : Ends codes (ask q) := by
  apply primitive_ends
  intro r w
  exact Replied.outcome (fun _ => rfl) rfl

@[simp] theorem lost_exit_code (p : Path) : (lost p).exit_code = .INTERNAL_ERROR := by
  unfold lost enoent osError
  split_ifs <;> rfl

theorem mkdir_ends (p : Path) : Ends codes (mkdir p) := by
  apply primitive_ends
  intro r w
  exact .ite (.own (lost_exit_code p) rfl) (.ite (.own rfl rfl) (.outcome (fun _ => rfl) rfl))

theorem write_text_ends (p : Path) (text : String) (append : Bool) :
    Ends codes (write_text p text append) := by
  apply primitive_ends
  intro r w
  cases p.find w.fs with
  | none => exact .own (lost_exit_code p) rfl
  | some l =>
    exact .ite (.own rfl rfl) (.outcome (fun _ => by cases r.applied <;> rfl) rfl)

theorem rmtree_ends (p : Path) (ignore_errors : Bool) : Ends codes (rmtree p ignore_errors) := by
  apply primitive_ends
  intro r w
  have hgiven {e : Exn} (he : r.fault = some e ∨ e.exit_code = .INTERNAL_ERROR) (v : World)
      (hv : v.tape = w.tape) : Replied r w (rmtreeFailed ignore_errors e, v) := by
    unfold rmtreeFailed
    split_ifs
    · exact .returned _ hv
    · exact ⟨hv, fun _ heq => Except.error.inj heq ▸ he⟩
  have hfound {e : Exn} (he : e.exit_code = .INTERNAL_ERROR) :
      r.fault = some (r.fault.getD e) ∨ (r.fault.getD e).exit_code = .INTERNAL_ERROR := by
    cases r.fault with
    | none => exact .inr he
    | some e' => exact .inl rfl
  cases p.find w.fs with
  | none => exact hgiven (hfound (lost_exit_code p)) w rfl
  | some l =>
    refine .ite ?_ (hgiven (hfound (e := enotdir p) rfl) w rfl)
    cases hf : r.fault with
    | some e => exact hgiven (.inl hf) _ rfl
    | none => exact .ite (.returned _ rfl) (hgiven (e := enoent p) (.inr rfl) _ rfl)

theorem copytree_ends (src dst : Path) (ignore : Name → Bool) :
    Ends codes (copytree src dst ignore) := by
  apply primitive_ends
  intro r w
  cases src.find w.fs with
  | none => exact .own (lost_exit_code src) rfl
  | some a =>
    cases dst.find w.fs with
    | none => exact .own (lost_exit_code dst) rfl
    | some b =>
      exact .ite (.own rfl rfl) (.ite (.own rfl rfl) (.ite (.own rfl rfl)
        (.outcome (fun _ => by split_ifs <;> rfl) rfl)))

theorem copy2_ends (src dst : Path) : Ends codes (copy2 src dst) := by
  apply primitive_ends
  intro r w
  cases src.find w.fs with
  | none => exact .own (lost_exit_code src) rfl
  | some a =>
    cases dst.find w.fs with
    | none => exact .own (lost_exit_code dst) rfl
    | some b =>
      dsimp only
      split
      · exact .ite (.own rfl rfl) (.outcome (fun _ => by cases r.applied <;> rfl) rfl)
      · exact .own rfl rfl

theorem rename_ends (src dst : Path) : Ends codes (rename src dst) := by
  apply primitive_ends
  intro r w
  cases src.find w.fs with
  | none => exact .own (lost_exit_code src) rfl
  | some a =>
    cases dst.find w.fs with
    | none => exact .own (lost_exit_code dst) rfl
    | some b =>
      refine .ite ?_ ?_
      · split
        · next hf => exact .fault hf (by split_ifs <;> rfl)
        · next e _ hf => exact .fault hf rfl
        · exact .returned _ rfl
      · cases hf : r.fault with
        | none => exact .own rfl rfl
        | some e => exact .fault hf rfl

theorem unlink_file_ends (p : Path) : Ends codes (unlink_file p) := by
  apply primitive_ends
  intro r w
  cases p.find w.fs with
  | none => exact .own (lost_exit_code p) rfl
  | some l =>
    exact .ite (.outcome (fun _ => rfl) rfl) (.own rfl rfl)

theorem communicate_ends (target_dir : Path) (timeout_seconds : ℕ) :
    Ends codes (communicate target_dir timeout_seconds) := by
  apply primitive_ends
  intro r w
  cases target_dir.find w.fs with
  | none => exact .outcome (fun _ => rfl) rfl
  | some l => exact .outcome (fun _ => rfl) rfl

theorem now_utc_ends : Ends codes now_utc := by
  apply primitive_ends
  intro r w
  exact .returned _ rfl

theorem liftExcept_ends {x : Except Exn α} (h : Fails (Exn.Among codes) x) :
    Ends codes (liftExcept x) := by
  cases x with
  | ok a => exact Raises.pure a
  | error e => exact Raises.throw (h e rfl)

theorem argvStrings_fails (argv : List Toml) : Fails (Exn.Among codes) (argvStrings argv) :=
  Fails.ite (Fails.ok _) (Fails.error (.inl rfl))

theorem subprocess_run_ends (argv : List Toml) : Ends codes (subprocess_run argv) := by
  unfold subprocess_run
  split
  · next h => exact Raises.throw (argvStrings_fails argv _ h)
  · exact Raises.throw (.inl rfl)
  · exact Raises.ite (Raises.throw (.inl rfl)) (ask_ends _)

theorem hookFailed_ends (message : String) : Ends codes (hookFailed message false) :=
  Raises.pure ()

theorem hookFailed_aborts (message : String) (fail_fast : Bool) :
    Ends [.PRECONDITION_FAILED] (hookFailed message fail_fast) :=
  Raises.ite (Raises.throw (.inr (List.mem_singleton.mpr rfl))) (Raises.pure _)

/-- A hook ends as its failures do. -/
theorem run_hook_ends (command : String) (fail_fast : Bool)
    (hfailed : ∀ message, Ends codes (hookFailed message fail_fast)) :
    Ends codes (run_hook command fail_fast) := by
  refine Raises.ite (Raises.pure _) ?_
  split
  · exact hfailed _
  · refine Raises.bind (Ends.handled (Raises.bind
      (subprocess_run_ends _) (fun _ => Raises.pure _)) (fun e he => ?_)) (fun proc => ?_)
    · split
      · exact Raises.bind (hfailed _) (fun _ => Raises.pure _)
      · exact Raises.bind (hfailed _) (fun _ => Raises.pure _)
      · exact Raises.throw he
    · split
      · exact Raises.pure _
      · exact Raises.ite (hfailed _) (Raises.pure _)

theorem pyIntText_fails (s : String) : Fails (Exn.Among codes) (pyIntText s) := by
  unfold pyIntText
  split
  · exact Fails.ok _
  · exact Fails.error (.inl rfl)

theorem run_client_ends (backup : BackupConfig) (replication : ReplicationConfig) (sql : String) :
    Ends [.PRECONDITION_FAILED] (run_client backup replication sql) := by
  have hrefused (m : String) : Exn.Among [.PRECONDITION_FAILED] (.precondition m) :=
    .inr (List.mem_singleton.mpr rfl)
  refine Raises.bind (Ends.handled (subprocess_run_ends _) (fun e he => ?_)) (fun proc => ?_)
  · split
    · exact Raises.throw (hrefused _)
    · exact Raises.throw (hrefused _)
    · exact Raises.throw he
  · exact Raises.ite (Raises.throw (hrefused _)) (Raises.pure _)

theorem check_replication_ends (backup : BackupConfig) (replication : ReplicationConfig) :
    Ends [.PRECONDITION_FAILED] (check_replication backup replication) := by
  have hrefused (m : String) : Exn.Among [.PRECONDITION_FAILED] (.precondition m) :=
    .inr (List.mem_singleton.mpr rfl)
  have hlag (is_replica : Bool) (lag : Option ℤ) :
      Ends [.PRECONDITION_FAILED] (checkLag replication is_replica lag) := by
    refine Raises.ite ?_ (Raises.pure _)
    cases lag with
    | none => exact Raises.throw (hrefused _)
    | some lag => exact Raises.ite (Raises.throw (hrefused _)) (Raises.pure _)
  have hversion : Ends [.PRECONDITION_FAILED] (query_server_version backup replication) := by
    refine Ends.handled (Raises.bind (run_client_ends _ _ _) (fun _ => Raises.pure _))
      (fun e he => ?_)
    split
    · exact Raises.pure _
    · exact Raises.throw he
  have hfields (fields : List (String × String)) :
      Fails (Exn.Among [.PRECONDITION_FAILED]) (lagOf fields) :=
    Fails.ite (Fails.bind (pyIntText_fails _) (fun _ => Fails.ok _)) (Fails.ok _)
  exact Raises.bind (run_client_ends _ _ _) (fun output => Raises.ite
    (Raises.throw (hrefused _)) (Raises.bind (liftExcept_ends (Fails.ite (hfields _) (Fails.ok _)))
      (fun lag => Raises.bind (hlag _ _) (fun _ => Raises.bind hversion
        (fun _ => Raises.pure _)))))

theorem acquire_lock_ends (cwd : Loc) (lock_path : PurePath) :
    Ends [.LOCKED] (acquire_lock cwd lock_path) := by
  refine Raises.bind (mkdir_ends _) (fun _ => Raises.bind (write_text_ends _ _ _) (fun _ =>
    Ends.handled (ask_ends _) (fun e he => ?_)))
  split
  · exact Raises.throw (.inr (List.mem_singleton.mpr rfl))
  · exact Raises.throw he

theorem get_version_ends (runner : MariabackupRunner) : Ends codes runner.get_version := by
  refine Raises.bind (Ends.handled (Raises.bind
    (subprocess_run_ends _) (fun _ => Raises.pure _)) (fun e he => ?_)) (fun proc => ?_)
  · split
    · exact Raises.pure _
    · exact Raises.pure _
    · exact Raises.throw he
  · split
    · exact Raises.pure _
    · exact Raises.pure _

theorem guarded_ends (context : String) {m : Io α} (h : Ends [.ALL_DESTINATIONS_FAILED] m) :
    Ends [.ALL_DESTINATIONS_FAILED] (guarded context m) := by
  refine Ends.handled h (fun e he => ?_)
  unfold asDestinationError
  split
  · exact Raises.throw (.inr (List.mem_singleton.mpr rfl))
  · exact Raises.throw he

theorem fromtimestamp_ends (t : Instant) : Ends codes (fromtimestamp t) :=
  Raises.ite (Raises.pure _) (Raises.throw (.inl rfl))

/-- What an operation of a destination ends with. -/
structure DestinationEnds (D : Destination) : Prop where
  store : ∀ src backup_id, Ends [.ALL_DESTINATIONS_FAILED] (D.store src backup_id)
  list_backups : Ends [.ALL_DESTINATIONS_FAILED] D.list_backups
  delete : ∀ backup_id, Ends [.ALL_DESTINATIONS_FAILED] (D.delete backup_id)
  check : Ends [.ALL_DESTINATIONS_FAILED] D.check

namespace LocalDestination

variable (d : LocalDestination)

theorem list_backups_ends : Ends [.ALL_DESTINATIONS_FAILED] d.list_backups := by
  have hbackup (x : Name) : Ends [.ALL_DESTINATIONS_FAILED] (d.stored_backup x) := by
    unfold stored_backup
    split
    · exact Raises.bind (ask_ends _) (fun _ => Raises.bind (fromtimestamp_ends _)
        (fun _ => Raises.pure _))
    · exact Raises.bind (ask_ends _) (fun _ => Raises.bind (ask_ends _) (fun _ =>
        Raises.bind (fromtimestamp_ends _) (fun _ => Raises.pure _)))
  have hentries (names : List Name) : Ends [.ALL_DESTINATIONS_FAILED] (d.list_entries names) := by
    induction names with
    | nil => exact Raises.pure _
    | cons x names ih =>
      refine Raises.bind (Raises.bind (ask_ends _) (fun _ => Raises.ite ?_ (Raises.pure _)))
        (fun _ => Raises.bind ih (fun _ => Raises.pure _))
      exact Raises.bind (hbackup x) (fun _ => Raises.pure _)
  refine Raises.bind (ask_ends _) (fun _ => Raises.ite ?_ (Raises.throw
    (.inr (List.mem_singleton.mpr rfl))))
  exact Raises.bind (ask_ends _) (fun names => hentries names)

theorem delete_ends (backup_id : String) :
    Ends [.ALL_DESTINATIONS_FAILED] (d.delete backup_id) := by
  have hname (name : String) : Ends [.ALL_DESTINATIONS_FAILED] (d.delete_name name) :=
    Raises.bind (ask_ends _) (fun _ => Raises.ite (guarded_ends _ (rmtree_ends _ _))
      (Raises.pure _))
  exact Raises.bind (hname _) (fun _ => hname _)

theorem store_ends (src : Path) (backup_id : String) :
    Ends [.ALL_DESTINATIONS_FAILED] (d.store src backup_id) := by
  have hstale : Ends [.ALL_DESTINATIONS_FAILED] (d.clear_stale backup_id) :=
    Raises.bind (ask_ends _) (fun _ => Raises.ite (rmtree_ends _ _) (Raises.pure _))
  have hmeta : Ends [.ALL_DESTINATIONS_FAILED] (d.copy_meta src backup_id) :=
    Raises.bind (ask_ends _) (fun _ => Raises.ite (copy2_ends _ _) (Raises.pure _))
  refine Raises.bind (ask_ends _) (fun _ => Raises.ite (Raises.pure _) (guarded_ends _ ?_))
  exact Raises.bind (mkdir_ends _) (fun _ => Raises.bind hstale (fun _ =>
    Raises.bind (copytree_ends _ _ _) (fun _ => Raises.bind hmeta (fun _ => rename_ends _ _))))

theorem ends : DestinationEnds d.toDestination where
  store := d.store_ends
  list_backups := d.list_backups_ends
  delete := d.delete_ends
  check := guarded_ends _ (Raises.bind (mkdir_ends _) (fun _ =>
    Raises.bind (write_text_ends _ _ _) (fun _ => unlink_file_ends _)))

end LocalDestination

namespace Replied

variable {r : Reply} {x : Except Exn CompletedProcess × World}

/-- A process that could not do its work. -/
theorem refused (code : ℤ) : Replied r w ((match r.fault with
    | some e => .error e
    | none => .ok ⟨code, r.stdout, r.stderr⟩ : Except Exn CompletedProcess), w) := by
  split
  · next e hf => exact fault hf rfl
  · exact returned _ rfl

/-- A process that fails, or runs to an end of its own. -/
theorem process {failed : Exn → World} {y : Except Exn CompletedProcess × World}
    (hfailed : ∀ e, (failed e).tape = w.tape) (hy : Replied r w y) :
    Replied r w (match r.fault with
      | some e => (.error e, failed e)
      | none => y) := by
  split
  · next e hf => exact fault hf (hfailed e)
  · exact hy

end Replied

namespace RemoteCommand

theorem full_tape (cmd : RemoteCommand) (node : RemoteNode) (host : String) (w : World)
    (s : Instant) : (cmd.full node host w s).world.tape = w.tape := by
  cases cmd with
  | mkdir_p p =>
    rw [full]
    split_ifs <;> rfl
  | mv src dst =>
    rw [full]
    split
    · split_ifs
      · dsimp only [World.remoteMove]
        split_ifs <;> rfl
      · rfl
    · rfl
  | probe p file =>
    rw [full]
    split_ifs <;> rfl
  | test_f p | rm_rf final part | list p => rfl

theorem cut_tape (cmd : RemoteCommand) (node : RemoteNode) (host : String) (w : World)
    (r : Reply) : (cmd.cut node host w r).tape = w.tape := by
  rw [cut]
  split_ifs
  · exact full_tape cmd node host w r.stamp
  · cases cmd with
    | mkdir_p p | probe p file =>
      rw [part]
      split_ifs <;> rfl
    | rm_rf final part | test_f _ | mv _ _ | list _ => rfl

end RemoteCommand

theorem remote_call_ends (node : RemoteNode) (host : String) (cmd : RemoteCommand) :
    Ends codes (remote_call node host cmd) := by
  apply primitive_ends
  intro r w
  refine .ite (.process (fun _ => cmd.cut_tape node host w r) (.ite ?_ ?_)) ?_
  · exact .returned _ (cmd.full_tape node host w r.stamp)
  · exact .returned _ (cmd.cut_tape node host w r)
  · exact .outcome (fun _ => rfl) rfl

theorem rsync_directory_call_ends (host : String) (src : Path) (dst : RemotePath)
    (exclude : Name → Bool) : Ends codes (rsync_directory_call host src dst exclude) := by
  apply primitive_ends
  intro r w
  dsimp only
  split
  · refine .ite (.process (fun _ => ?_) (.ite (.returned _ rfl) (.returned _ ?_))) (.refused _)
    · cases r.applied <;> rfl
    · cases r.applied <;> rfl
  · exact .refused _

theorem rsync_file_call_ends (host : String) (src : Path) (dst : RemotePath) :
    Ends codes (rsync_file_call host src dst) := by
  apply primitive_ends
  intro r w
  dsimp only
  split
  · split
    · refine .ite (.process (fun _ => ?_) (.ite (.returned _ rfl) (.returned _ ?_))) (.refused _)
      · cases r.applied <;> rfl
      · cases r.applied <;> rfl
    · exact .refused _
  · exact .refused _

theorem started_ends {argv : Except Exn (List Toml)} (h : Fails (Exn.Among codes) argv) :
    Ends codes (started argv) :=
  Raises.bind (liftExcept_ends h) (fun _ => Raises.bind (liftExcept_ends (argvStrings_fails _))
    (fun _ => Raises.ite (Raises.throw (.inl rfl)) (Raises.pure _)))

theorem parse_list_output_fails (stdout : String) :
    Fails (Exn.Among codes) (parse_list_output stdout) := by
  have hline (line : List Char) : Fails (Exn.Among codes) (parse_list_line line) := by
    unfold parse_list_line
    split
    · exact Fails.bind (pyIntText_fails _) (fun _ => Fails.bind
        (Fails.ite (Fails.ok _) (Fails.error (.inl rfl))) (fun _ => Fails.ok _))
    · exact Fails.ok _
  unfold parse_list_output
  induction splitlines stdout.toList with
  | nil => exact Fails.ok _
  | cons line lines ih =>
    exact Fails.bind (hline line) (fun _ => Fails.bind ih (fun _ => Fails.ok _))

namespace SSHDestination

variable (d : SSHDestination)

theorem destination_among (m : String) :
    Exn.Among [.ALL_DESTINATIONS_FAILED] (.destination m) := .inr (List.mem_singleton.mpr rfl)

theorem remote_process_ends (cmd : RemoteCommand) :
    Ends [.ALL_DESTINATIONS_FAILED] (d.remote_process cmd) := by
  refine Ends.handled (Raises.bind (started_ends (Fails.ok _))
    (fun _ => remote_call_ends _ _ _)) (fun e he => ?_)
  split
  · exact Raises.throw (destination_among _)
  · exact Raises.throw (destination_among _)
  · exact Raises.throw he

theorem remote_run_ends (cmd : RemoteCommand) :
    Ends [.ALL_DESTINATIONS_FAILED] (d.remote_run cmd) :=
  Raises.bind (d.remote_process_ends cmd) (fun _ => Raises.ite
    (Raises.throw (destination_among _)) (Raises.pure _))

theorem run_with_retries_ends {argv : Except Exn (List Toml)} {call : Io CompletedProcess}
    (hargv : Fails (Exn.Among [.ALL_DESTINATIONS_FAILED]) argv)
    (hcall : Ends [.ALL_DESTINATIONS_FAILED] call) (n : ℕ) (last_error : String) :
    Ends [.ALL_DESTINATIONS_FAILED] (d.run_with_retries argv call n last_error) := by
  induction n generalizing last_error with
  | zero => exact Raises.throw (destination_among _)
  | succ n ih =>
    refine Raises.bind (Ends.handled (Raises.bind (started_ends hargv) (fun _ =>
      Raises.bind hcall (fun _ => Raises.pure _))) (fun e he => ?_)) (fun outcome => ?_)
    · split
      · exact Raises.pure _
      · exact Raises.pure _
      · exact Raises.throw he
    · split
      · exact Raises.pure _
      · exact ih _

/-- Every operation of either backend ends well, in a `DestinationError` or in an error of the
system. -/
theorem ends : DestinationEnds d.toDestination := by
  have hjoin (argv : List Toml) :
      Fails (Exn.Among [.ALL_DESTINATIONS_FAILED]) (joinArgv argv) :=
    Fails.bind (argvStrings_fails _) (fun _ => Fails.ok _)
  have hmeta (src : Path) (backup_id : String) :
      Ends [.ALL_DESTINATIONS_FAILED] (d.send_meta src backup_id) :=
    Raises.bind (ask_ends _) (fun _ => Raises.ite (d.run_with_retries_ends
      (Fails.bind (hjoin _) (fun _ => Fails.ok _)) (rsync_file_call_ends _ _ _) _ _)
      (Raises.pure _))
  have hdirectory (src : Path) (dst : RemotePath) :
      Ends [.ALL_DESTINATIONS_FAILED] (d.rsync_directory src dst) :=
    d.run_with_retries_ends (Fails.bind (hjoin _) (fun _ => Fails.ok _))
      (rsync_directory_call_ends _ _ _ _) _ _
  have hexists (path : RemotePath) :
      Ends [.ALL_DESTINATIONS_FAILED] (d.remote_file_exists path) :=
    Raises.bind (d.remote_process_ends _) (fun _ => Raises.pure _)
  refine ⟨fun src backup_id => ?_, ?_, fun backup_id => ?_, ?_⟩
  · exact Raises.bind (hexists _) (fun _ => Raises.ite (Raises.pure _) (Raises.bind
      (d.remote_run_ends _) (fun _ => Raises.bind (hdirectory _ _) (fun _ => Raises.bind
        (hmeta _ _) (fun _ => Raises.bind (d.remote_run_ends _) (fun _ => Raises.pure _))))))
  · exact Raises.bind (d.remote_run_ends _) (fun _ =>
      liftExcept_ends (parse_list_output_fails _))
  · exact Raises.bind (d.remote_run_ends _) (fun _ => Raises.pure _)
  · exact Raises.bind (d.remote_run_ends _) (fun _ => Raises.pure _)

end SSHDestination

end MbKeeper
