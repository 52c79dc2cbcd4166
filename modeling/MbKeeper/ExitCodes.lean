import MbKeeper.Endings
import MbKeeper.Footprint

/-!
# What the exit codes rule out

No part of a run that comes after its gate, the lock, the replication check and
the `pre_backup` hook, raises an exception of the program's own. So the code that
a process ends with tells how far its command got, and from that what it cannot
have touched.
-/
namespace MbKeeper

/-- The codes that the process of a command ends with. -/
def Command.codes : Command → List ExitCode
  | .run => [.SUCCESS, .INTERNAL_ERROR, .LOCKED, .PRECONDITION_FAILED, .BACKUP_FAILED,
      .ALL_DESTINATIONS_FAILED, .PARTIAL_DESTINATION_FAILURE, .PURGE_FAILED]
  | .purge _ _ => [.SUCCESS, .INTERNAL_ERROR, .LOCKED, .PURGE_FAILED]
  | .list _ | .check => [.SUCCESS, .INTERNAL_ERROR, .PRECONDITION_FAILED]

/-- Where a command that ends with a code may have changed anything. -/
def codeSpots (cwd : Loc) (config : Config) : Command → ExitCode → Set Spot
  | .run, .LOCKED | .run, .PRECONDITION_FAILED | .purge _ _, .LOCKED =>
    lockSpots cwd config.lock.file
  | .run, .BACKUP_FAILED => lockSpots cwd config.lock.file ∪ workSpots cwd config
  | command, _ => footprint cwd config command

variable {α β : Type} {codes : List ExitCode} {m : Io α} {w w' : World}

/-- What a part of a pipeline raises. -/
def Concludes (codes : List ExitCode) (m : Pipeline α) : Prop :=
  Raises (fun s : Pipe => ForeignFaults s.world) (Exn.Among codes) m

theorem Ends.lift (h : Ends codes m) : Concludes codes (lift m) := fun s hs => h s.world hs

theorem Ends.perform (h : Ends codes m) (c : Call) : Concludes codes (perform c m) := by
  intro s hs
  obtain ⟨hkept, hraised⟩ := h s.world hs
  rw [exec_perform]
  rcases hm : exec m s.world with ⟨e | a, u⟩
  · rw [hm] at hkept hraised
    exact ⟨hkept, hraised⟩
  · rw [hm] at hkept
    exact ⟨hkept, fun _ he => nomatch he⟩

theorem note_concludes (e : Event) : Concludes codes (note e) :=
  fun _ hs => ⟨hs, fun _ he => nomatch he⟩

theorem noted_concludes {m : Pipeline α} (h : Concludes codes m) (c : Call) :
    Concludes codes (noted c m) := by
  intro s hs
  obtain ⟨hkept, hraised⟩ := h (s.note (.call c)) hs
  rw [exec_noted]
  rcases hm : exec m (s.note (.call c)) with ⟨e | a, u⟩
  · rw [hm] at hkept hraised
    exact ⟨hkept, hraised⟩
  · rw [hm] at hkept
    exact ⟨hkept, fun _ he => nomatch he⟩

/-- An attempt lets no `DestinationError` through. -/
theorem attempt_concludes {m : Pipeline α} (h : Concludes [.ALL_DESTINATIONS_FAILED] m) :
    Concludes codes (attempt m) := by
  refine Raises.tryCatch (Raises.bind h (fun _ => Raises.pure _)) (fun e he => ?_)
  split
  · exact Raises.pure _
  · next hother =>
    refine Raises.throw (he.unhandled (fun hcode => ?_))
    cases e with
    | destination message => exact hother message rfl
    | _ => cases hcode

section

variable {cwd : Loc} {nodes : String → RemoteNode} {config : Config}

theorem site_ends (dest : DestinationConfig) :
    DestinationEnds ((site cwd nodes).build_destination dest config.transfer) := by
  cases htype : dest.type with
  | «local» =>
    rw [build_local htype]
    exact LocalDestination.ends _
  | ssh =>
    rw [build_ssh htype]
    exact SSHDestination.ends _

theorem now_or_concludes (now : Option Datetime) : Concludes codes (now_or now) := by
  cases now with
  | none => exact now_utc_ends.lift
  | some now => exact Raises.pure _

theorem select_purge_fails (stored : List StoredBackup) (keep grace_hours : ℕ) (now : Datetime)
    (in_progress_id : Option String) : Fails (Exn.Among codes)
      (select_purge stored keep grace_hours now in_progress_id) := by
  have hround (grace : ℤ) (plan : PurgePlan) (backup : StoredBackup) :
      Fails (Exn.Among codes) (sortOut grace now in_progress_id plan backup) := by
    refine Fails.ite (Fails.ok _) (Fails.bind ?_ (fun _ => Fails.ite (Fails.ok _) (Fails.ok _)))
    unfold Datetime.sub
    split
    · exact Fails.ok _
    · exact Fails.ok _
    · exact Fails.error (.inl rfl)
  refine Fails.bind (Fails.ite (Fails.ok _) (Fails.error (.inl rfl))) (fun grace => ?_)
  generalize PurgePlan.mk _ _ = plan
  induction stored.filter (!·.complete) generalizing plan with
  | nil => exact Fails.ok _
  | cons backup rest ih =>
    rw [List.foldlM_cons]
    exact Fails.bind (hround grace plan backup) (fun next => ih next)

theorem purge_one_concludes (dest : DestinationConfig) (now : Datetime) (dry_run : Bool)
    (in_progress_id : Option String) : Concludes codes
      (purge_one_destination (site cwd nodes) config dest now dry_run in_progress_id) := by
  have hends : DestinationEnds ((site cwd nodes).build_destination dest config.transfer) :=
    site_ends dest
  have hdelete (ids : List String) : Concludes codes (delete_planned dest
      ((site cwd nodes).build_destination dest config.transfer) dry_run ids) := by
    induction ids with
    | nil => exact Raises.pure _
    | cons i ids ih =>
      refine Raises.bind (Raises.ite (Raises.pure _)
        (attempt_concludes ((hends.delete i).perform _))) (fun outcome => Raises.bind ih ?_)
      intro rest
      cases outcome with
      | ok _ => exact Raises.pure _
      | error _ => exact Raises.pure _
  refine Raises.bind (attempt_concludes (hends.list_backups.perform _)) (fun listing => ?_)
  cases listing with
  | error message => exact Raises.pure _
  | ok stored =>
    refine Raises.bind ((liftExcept_ends (select_purge_fails _ _ _ _ _)).perform _) (fun plan => ?_)
    exact Raises.bind (hdelete plan.delete) (fun _ => Raises.pure _)

theorem finish_concludes (summary : RunSummary) : Concludes codes (finish config summary) :=
  Raises.bind ((run_hook_ends _ _ hookFailed_ends).perform _) (fun _ => Raises.pure _)

theorem phases_concludes (target : Path) : Concludes codes (phases config target) := by
  have hbackup (m : String) : Exn.Among [.BACKUP_FAILED] (.backup m) :=
    .inr (List.mem_singleton.mpr rfl)
  have hlaunch (argv : List Toml) (phase : Phase) : Ends [.BACKUP_FAILED]
      (MariabackupRunner.launch argv phase) := by
    refine Raises.bind (liftExcept_ends (argvStrings_fails _)) (fun args => Ends.handled
      (Raises.ite (Raises.throw (.inl rfl)) (ask_ends _)) (fun e he => ?_))
    split
    · exact Raises.throw (hbackup _)
    · exact Raises.throw he
  have hverdict (path : Path) (phase : Phase) (proc : Ended) : Ends [.BACKUP_FAILED]
      ((⟨config.backup, config.replication⟩ : MariabackupRunner).verdict path phase proc) :=
    Raises.ite (Raises.throw (hbackup _)) (Raises.ite (Raises.throw (hbackup _)) (Raises.pure _))
  have hexecute (argv : List Toml) (phase : Phase) : Concludes [.BACKUP_FAILED]
      ((⟨config.backup, config.replication⟩ : MariabackupRunner).execute argv target phase) :=
    Raises.bind (hlaunch _ _).lift (fun _ => Raises.bind (communicate_ends _ _).lift (fun proc =>
      Raises.bind (note_concludes _) (fun _ => Raises.bind (write_text_ends _ _ _).lift
        (fun _ => (hverdict _ _ _).lift))))
  refine Raises.tryCatch (Raises.bind (noted_concludes (hexecute _ _) _) (fun _ => Raises.bind
    (Raises.ite (noted_concludes (hexecute _ _) _) (Raises.pure _)) (fun _ => Raises.pure _)))
    (fun e he => ?_)
  split
  · exact Raises.pure _
  · next hother =>
    refine Raises.throw (he.unhandled (fun hcode => ?_))
    cases e with
    | backup message => exact hother message rfl
    | _ => cases hcode

variable {backup_id : String} {s s' : Pipe}

/-- What comes first in a run: the lock, the id, the replication check and `pre_backup`. -/
def gate (site : Site) (config : Config) (now : Option Datetime) :
    Pipeline (Datetime × String × ReplicationState) := do
  let now ← now_or now
  perform .lock (acquire_lock site.cwd config.lock.file)
  let backup_id ← perform .backup_id
    (liftExcept (generate_backup_id config.backup.name_prefix now))
  let replication_state ← perform .replication (check_replication_if_configured config)
  perform (.hook .pre_backup none) (run_hook config.hooks.pre_backup true)
  pure (now, backup_id, replication_state)

/-- The run from there on. -/
def behind_gate (site : Site) (config : Config) (now : Datetime) (backup_id : String)
    (replication_state : ReplicationState) : Pipeline RunSummary := do
  perform .cleanup (cleanup_stale_work_dir (work_dir site config) backup_id)
  perform .make_target (mkdir (target_dir site config backup_id))
  let started_at ← lift now_utc
  let failure ← phases config (target_dir site config backup_id)
  match failure with
  | some message => finish config ⟨backup_id, .BACKUP_FAILED, [], message⟩
  | none =>
    place site config (target_dir site config backup_id) backup_id
      replication_state.server_version now started_at

theorem run_gate (site : Site) (config : Config) (now : Option Datetime) :
    run site config now = (do
      let passed ← gate site config now
      behind_gate site config passed.1 passed.2.1 passed.2.2) := by
  unfold run gate prepare_run
  simp only [bind_assoc, pure_bind]
  rfl

theorem gate_within (now : Option Datetime) :
    Moves (OnWorld (Within (lockSpots cwd config.lock.file)))
      (gate (site cwd nodes) config now) := by
  have hreplication : Moves Same (check_replication_if_configured config) :=
    Moves.ite (Moves.pure _) (check_replication_moves _ _)
  have hnow : Moves (OnWorld (Within (lockSpots cwd config.lock.file))) (now_or now) :=
    (now_or_same now).mono (fun _ _ h => Within.of_same h)
  refine Moves.bind hnow (fun time => Moves.bind
    ((within_confined (acquire_lock_moves _ _) subset_rfl).perform _) (fun _ => ?_))
  refine Moves.bind ((within_same (backup_id_same _ _)).perform _) (fun backup_id => ?_)
  exact Moves.bind ((within_same hreplication).perform _) (fun state => Moves.bind
    ((hook_within _ _).perform _) (fun _ => Moves.pure _))

/-- The gate gives away the id of its run. -/
theorem gate_id {now : Option Datetime} {time : Datetime} {state : ReplicationState}
    (h : exec (gate (site cwd nodes) config now) s = (.ok (time, backup_id, state), s')) :
    generate_backup_id config.backup.name_prefix time = .ok backup_id := by
  obtain ⟨started, s₁, -, h⟩ := exec_bind_eq_ok h
  obtain ⟨_, s₂, -, h⟩ := exec_bind_eq_ok h
  obtain ⟨id, s₃, hid, h⟩ := exec_bind_eq_ok h
  obtain ⟨_, s₄, -, h⟩ := exec_bind_eq_ok h
  obtain ⟨_, s₅, -, h⟩ := exec_bind_eq_ok h
  obtain ⟨heq, -⟩ := exec_pure_eq_ok h
  obtain ⟨rfl, hpair⟩ := Prod.mk.inj heq
  obtain ⟨rfl, -⟩ := Prod.mk.inj hpair
  exact backup_id_ok (exec_perform_ok hid).1

theorem gate_concludes (now : Option Datetime) :
    Concludes [.LOCKED, .PRECONDITION_FAILED] (gate (site cwd nodes) config now) := by
  have hid (time : Datetime) : Ends [.LOCKED, .PRECONDITION_FAILED]
      (liftExcept (generate_backup_id config.backup.name_prefix time)) := by
    apply liftExcept_ends
    unfold generate_backup_id
    split
    · exact Fails.error (.inl rfl)
    · exact Fails.ite (Fails.ok _) (Fails.error (.inl rfl))
  have hreplication : Ends [.PRECONDITION_FAILED] (check_replication_if_configured config) :=
    Raises.ite (Raises.pure _) (check_replication_ends _ _)
  have hhook : Ends [.PRECONDITION_FAILED] (run_hook config.hooks.pre_backup true) :=
    run_hook_ends _ _ (fun message => hookFailed_aborts message true)
  have hlock := (acquire_lock_ends cwd config.lock.file).mono
    (show [ExitCode.LOCKED] ⊆ [.LOCKED, .PRECONDITION_FAILED] by simp)
  have hsub : [ExitCode.PRECONDITION_FAILED] ⊆ [.LOCKED, .PRECONDITION_FAILED] := by simp
  exact Raises.bind (now_or_concludes now) (fun time => Raises.bind (hlock.perform _)
    (fun _ => Raises.bind ((hid time).perform _) (fun backup_id => Raises.bind
      ((hreplication.mono hsub).perform _) (fun state => Raises.bind
        ((hhook.mono hsub).perform _) (fun _ => Raises.pure _)))))

theorem store_to_destinations_concludes (target : Path) (dests : List DestinationConfig) :
    Concludes codes (store_to_destinations (site cwd nodes) config target backup_id dests) := by
  induction dests with
  | nil => exact Raises.pure _
  | cons dest dests ih =>
    have hends : DestinationEnds ((site cwd nodes).build_destination dest config.transfer) :=
      site_ends dest
    refine Raises.bind (attempt_concludes ((hends.store _ _).perform _)) (fun stored => ?_)
    cases stored with
    | error message => exact Raises.ite (Raises.pure _) (Raises.bind ih (fun _ => Raises.pure _))
    | ok _ => exact Raises.bind ih (fun _ => Raises.pure _)

theorem purge_stored_concludes (now : Datetime) (outcomes : List DestinationOutcome) :
    Concludes codes (purge_stored_destinations (site cwd nodes) config backup_id now outcomes) := by
  induction outcomes with
  | nil => exact Raises.pure _
  | cons outcome outcomes ih =>
    have hnamed : Fails (Exn.Among codes) (destination_named config outcome.name) := by
      unfold destination_named
      split
      · exact Fails.ok _
      · exact Fails.error (.inl rfl)
    exact Raises.bind (liftExcept_ends hnamed).lift (fun dest => Raises.bind
      (purge_one_concludes dest now false _) (fun _ => Raises.bind ih (fun _ => Raises.pure _)))

theorem place_concludes (target : Path) (server_version : String) (now started_at : Datetime) :
    Concludes codes
      (place (site cwd nodes) config target backup_id server_version now started_at) := by
  have hrecord (finished_at : Datetime) : Ends codes
      (record_meta config target backup_id server_version started_at finished_at) :=
    Raises.bind (ask_ends _) (fun _ => Raises.bind (get_version_ends _) (fun _ =>
      Raises.bind (ask_ends _) (fun _ => write_text_ends _ _ _)))
  have hhook (command : String) : Ends codes (run_hook command false) :=
    run_hook_ends _ _ hookFailed_ends
  refine Raises.bind now_utc_ends.lift (fun finished_at => Raises.bind ((hrecord _).perform _)
    (fun _ => Raises.bind ((hhook _).perform _) (fun _ => Raises.bind
      (store_to_destinations_concludes target _) (fun outcomes => Raises.ite
        (finish_concludes _) ?_))))
  exact Raises.bind ((rmtree_ends _ _).perform _) (fun _ => Raises.bind ((hhook _).perform _)
    (fun _ => Raises.bind (purge_stored_concludes now _) (fun _ => finish_concludes _)))

/-- Behind its gate a run raises no exception of the program's own. -/
theorem behind_gate_concludes (now : Datetime) (state : ReplicationState) :
    Concludes [] (behind_gate (site cwd nodes) config now backup_id state) := by
  have hentries (names : List Name) :
      Ends [] (cleanup_entries (work_dir (site cwd nodes) config) backup_id names) := by
    induction names with
    | nil => exact Raises.pure _
    | cons x names ih =>
      exact Raises.bind (Raises.bind (ask_ends _) (fun _ => Raises.ite (rmtree_ends _ _)
        (Raises.pure _))) (fun _ => ih)
  have hcleanup : Ends [] (cleanup_stale_work_dir (work_dir (site cwd nodes) config) backup_id) :=
    Raises.bind (ask_ends _) (fun _ => Raises.ite
      (Raises.bind (ask_ends _) (fun names => hentries names)) (Raises.pure _))
  refine Raises.bind (hcleanup.perform _) (fun _ => Raises.bind ((mkdir_ends _).perform _)
    (fun _ => Raises.bind now_utc_ends.lift (fun started_at => Raises.bind
      (phases_concludes _) (fun failure => ?_))))
  cases failure with
  | some message => exact finish_concludes _
  | none => exact place_concludes _ _ _ _

/-- What has a code of its own was raised by the first of two parts, before the second began. -/
theorem gated_error {R : Pipe → Pipe → Prop} {m : Pipeline α} {f : α → Pipeline β} {e : Exn}
    (hR : Moves R m) (hm : Concludes codes m) (hf : ∀ a, Concludes [] (f a))
    (hs : ForeignFaults s.world) (h : exec (m >>= f) s = (.error e, s')) :
    e.exit_code = .INTERNAL_ERROR ∨ e.exit_code ∈ codes ∧ R s s' := by
  rcases exec_bind_cases h with ⟨e', hfirst, he⟩ | ⟨a, u, hfirst, hrest⟩
  · obtain rfl := Except.error.inj he
    rcases hm.raised hfirst hs with hown | hcode
    · exact .inl hown
    · exact .inr ⟨hcode, hR.of_exec hfirst⟩
  · rcases (hf a).raised hrest (hm.keeps hfirst hs) with hown | hcode
    · exact .inl hown
    · cases hcode

theorem place_code {target : Path} {server_version : String} {now started_at : Datetime}
    {summary : RunSummary} (h : exec (place (site cwd nodes) config target backup_id server_version
      now started_at) s = (.ok summary, s')) :
    summary.exit_code ∈ [ExitCode.SUCCESS, .ALL_DESTINATIONS_FAILED, .PARTIAL_DESTINATION_FAILURE,
      .PURGE_FAILED] := by
  obtain ⟨_, s₁, -, h⟩ := exec_bind_eq_ok h
  obtain ⟨_, s₂, -, h⟩ := exec_bind_eq_ok h
  obtain ⟨_, s₃, -, h⟩ := exec_bind_eq_ok h
  obtain ⟨outcomes, s₄, -, h⟩ := exec_bind_eq_ok h
  split_ifs at h
  · rw [(finish_ok h).1]
    simp
  · obtain ⟨had_error, rfl⟩ := settle_summary h
    unfold exitCode
    split_ifs <;> simp

/-- A run behind its gate that returns: a backup that failed was not placed anywhere. -/
theorem behind_gate_ok {now : Datetime} {state : ReplicationState} {summary : RunSummary}
    (hslash : '/' ∉ backup_id.toList) (hdots : backup_id ≠ "..")
    (h : exec (behind_gate (site cwd nodes) config now backup_id state) s = (.ok summary, s')) :
    (summary.exit_code = .BACKUP_FAILED ∧ Within (workSpots cwd config) s.world s'.world) ∨
      summary.exit_code ∈ [ExitCode.SUCCESS, .ALL_DESTINATIONS_FAILED,
        .PARTIAL_DESTINATION_FAILURE, .PURGE_FAILED] := by
  obtain ⟨_, s₁, hcleanup, h⟩ := exec_bind_eq_ok h
  obtain ⟨_, s₂, hmkdir, h⟩ := exec_bind_eq_ok h
  obtain ⟨started_at, s₃, hnow, h⟩ := exec_bind_eq_ok h
  obtain ⟨failure, s₄, hphases, h⟩ := exec_bind_eq_ok h
  cases failure with
  | none => exact .inr (place_code h)
  | some message =>
    left
    rw [(finish_ok h).1]
    refine ⟨rfl, ?_⟩
    have htarget : below none (target_dir (site cwd nodes) config backup_id).loc ⊆
        workSpots cwd config := target_below nodes hslash hdots
    have h₁ := ((cleanup_within nodes config backup_id).perform _).of_exec hcleanup
    have h₂ := ((make_target_within nodes hslash hdots).perform _).of_exec hmkdir
    have h₃ : OnWorld (Within (workSpots cwd config)) s₂ s₃ :=
      (within_same now_utc_same).lift.of_exec hnow
    have h₄ := (phases_within _ htarget).of_exec hphases
    have h₅ : OnWorld (Within (workSpots cwd config)) s₄ s' := (finish_within _).of_exec h
    exact trans_of _ h₁ (trans_of _ h₂ (trans_of _ h₃ (trans_of _ h₄ h₅)))

/-- The command raised nothing of the program's own, so that only its footprint is known. -/
theorem internal_ends {command : Command} {e : Exn} (he : e.exit_code = .INTERNAL_ERROR)
    (h : Within (footprint cwd config command) w w') :
    e.exit_code ∈ command.codes ∧ Within (codeSpots cwd config command e.exit_code) w w' := by
  rw [he]
  cases command with
  | run => exact ⟨by simp [Command.codes], h⟩
  | purge names dry_run => exact ⟨by simp [Command.codes], h⟩
  | list destination => exact ⟨by simp [Command.codes], h⟩
  | check => exact ⟨by simp [Command.codes], h⟩

theorem run_ends (hpre : '/' ∉ config.backup.name_prefix.toList) (hs : ForeignFaults s.world)
    {res : Except Exn RunSummary} (h : exec (run (site cwd nodes) config none) s = (res, s')) :
    codeOf (res.map (·.exit_code)) ∈ Command.run.codes ∧
      Within (codeSpots cwd config .run (codeOf (res.map (·.exit_code)))) s.world s'.world := by
  have hfoot : Within (footprint cwd config .run) s.world s'.world :=
    (run_within hpre none).of_exec h
  rw [run_gate] at h
  cases res with
  | error e =>
    rcases gated_error (gate_within none) (gate_concludes none)
      (fun passed => behind_gate_concludes passed.1 passed.2.2) hs h with hown | ⟨hcode, hwithin⟩
    · exact internal_ends hown hfoot
    · change e.exit_code ∈ _ ∧ Within (codeSpots cwd config .run e.exit_code) _ _
      rcases List.mem_cons.mp hcode with hcode | hcode
      · rw [hcode]
        exact ⟨by simp [Command.codes], hwithin⟩
      · rw [List.mem_singleton.mp hcode]
        exact ⟨by simp [Command.codes], hwithin⟩
  | ok summary =>
    obtain ⟨⟨time, backup_id, state⟩, u, hgate, hrest⟩ := exec_bind_eq_ok h
    obtain ⟨hslash, hdots⟩ := generated_id_name hpre (gate_id hgate)
    change summary.exit_code ∈ _ ∧ Within (codeSpots cwd config .run summary.exit_code) _ _
    rcases behind_gate_ok hslash hdots hrest with ⟨hcode, hwithin⟩ | hcode
    · rw [hcode]
      have hfirst : Within (lockSpots cwd config.lock.file) s.world u.world :=
        (gate_within none).of_exec hgate
      exact ⟨by simp [Command.codes], trans_of (Within _) (hfirst.mono Set.subset_union_left)
        (hwithin.mono Set.subset_union_right)⟩
    · simp only [List.mem_cons, List.not_mem_nil, or_false] at hcode
      rcases hcode with hcode | hcode | hcode | hcode
      all_goals
        rw [hcode]
        exact ⟨by simp [Command.codes], hfoot⟩

theorem purge_loop_concludes (now : Datetime) (dry_run : Bool) (dests : List DestinationConfig) :
    Concludes codes (purge_loop (site cwd nodes) config now dry_run dests) := by
  induction dests with
  | nil => exact Raises.pure _
  | cons dest dests ih =>
    exact Raises.bind (purge_one_concludes dest now dry_run none) (fun _ => Raises.bind ih
      (fun _ => Raises.pure _))

theorem purge_concludes (names : Option (List String)) (dry_run : Bool) :
    Concludes [.LOCKED] (purge (site cwd nodes) config names dry_run none) :=
  Raises.bind (now_or_concludes none) (fun now => Raises.bind
    ((acquire_lock_ends cwd config.lock.file).perform _) (fun _ => Raises.bind
      (purge_loop_concludes now dry_run _) (fun _ => Raises.pure _)))

theorem purge_ends (names : List String) (dry_run : Bool) (hs : ForeignFaults s.world)
    {res : Except Exn PurgeSummary} (h : exec (purge (site cwd nodes) config
      (if names = [] then none else some names) dry_run none) s = (res, s')) :
    codeOf (res.map (·.exit_code)) ∈ (Command.purge names dry_run).codes ∧
      Within (codeSpots cwd config (.purge names dry_run) (codeOf (res.map (·.exit_code))))
        s.world s'.world := by
  have hfoot : Within (footprint cwd config (.purge names dry_run)) s.world s'.world :=
    (purge_command_within names dry_run).of_exec h
  cases res with
  | ok summary =>
    obtain ⟨now, s₁, -, h⟩ := exec_bind_eq_ok h
    obtain ⟨_, s₂, -, h⟩ := exec_bind_eq_ok h
    obtain ⟨outcome, s₃, -, h⟩ := exec_bind_eq_ok h
    obtain ⟨rfl, -⟩ := exec_pure_eq_ok h
    change (if outcome.2 then ExitCode.PURGE_FAILED else .SUCCESS) ∈ _ ∧
      Within (codeSpots cwd config (.purge names dry_run)
        (if outcome.2 then ExitCode.PURGE_FAILED else .SUCCESS)) _ _
    split_ifs
    · exact ⟨by simp [Command.codes], hfoot⟩
    · exact ⟨by simp [Command.codes], hfoot⟩
  | error e =>
    have hnow : Moves (OnWorld (Within (lockSpots cwd config.lock.file))) (now_or none) :=
      (now_or_same none).mono (fun _ _ h => Within.of_same h)
    have hlock : Moves (OnWorld (Within (lockSpots cwd config.lock.file)))
        (perform .lock (acquire_lock (site cwd nodes).cwd config.lock.file)) :=
      (within_confined (acquire_lock_moves _ _) subset_rfl).perform _
    have hfirst : Concludes [.LOCKED] (do
        let now ← now_or none
        perform .lock (acquire_lock (site cwd nodes).cwd config.lock.file)
        pure now) :=
      Raises.bind (now_or_concludes none) (fun now => Raises.bind
        ((acquire_lock_ends _ _).perform _) (fun _ => Raises.pure now))
    have hgated := gated_error (Moves.bind hnow (fun now => Moves.bind hlock
      (fun _ => Moves.pure now))) hfirst
      (fun now => Raises.bind (purge_loop_concludes now dry_run _) (fun _ => Raises.pure _)) hs
      (by simpa only [purge, bind_assoc, pure_bind] using h)
    rcases hgated with hown | ⟨hcode, hwithin⟩
    · exact internal_ends hown hfoot
    · change e.exit_code ∈ _ ∧ Within (codeSpots cwd config (.purge names dry_run) e.exit_code) _ _
      rw [List.mem_singleton.mp hcode]
      exact ⟨by simp [Command.codes], hwithin⟩

theorem print_all_ends (texts : List String) : Ends codes (print_all texts) := by
  induction texts with
  | nil => exact Raises.pure _
  | cons text texts ih => exact Raises.bind (ask_ends _) (fun _ => ih)

/-- A `DestinationError` is reported, and anything else is the system's. -/
theorem reported_ends {m : Io β} {f : β → α} {g : String → α}
    (h : Ends [.ALL_DESTINATIONS_FAILED] m) : Ends codes (tryCatch (do
      let b ← m
      pure (f b)) fun
      | .destination message => pure (g message)
      | e => throw e) := by
  refine Raises.tryCatch (Raises.bind h (fun _ => Raises.pure _)) (fun e he => ?_)
  split
  · exact Raises.pure _
  · next hother =>
    refine Raises.throw (he.unhandled (fun hcode => ?_))
    cases e with
    | destination message => exact hother message rfl
    | _ => cases hcode

theorem list_concludes (destination : Option String) :
    Ends codes (cmd_list (site cwd nodes) config destination) := by
  have hone (dest : DestinationConfig) :
      Ends codes (list_destination (site cwd nodes) config dest) := by
    refine Raises.bind (ask_ends _) (fun _ => Raises.bind
      (reported_ends (site_ends dest).list_backups) (fun listing => ?_))
    split
    · exact Raises.bind (ask_ends _) (fun _ => Raises.pure _)
    · exact Raises.bind (print_all_ends _) (fun _ => Raises.pure _)
  have hall (dests : List DestinationConfig) :
      Ends codes (list_destinations (site cwd nodes) config dests) := by
    induction dests with
    | nil => exact Raises.pure _
    | cons dest dests ih =>
      exact Raises.bind (hone dest) (fun _ => Raises.bind ih (fun _ => Raises.pure _))
  exact Raises.bind (hall _) (fun _ => Raises.pure _)

theorem check_concludes : Ends codes (check (site cwd nodes) config) := by
  have hall (dests : List DestinationConfig) :
      Ends codes (check_destinations (site cwd nodes) config dests) := by
    induction dests with
    | nil => exact Raises.pure _
    | cons dest dests ih =>
      exact Raises.bind (reported_ends (site_ends dest).check) (fun _ =>
        Raises.bind ih (fun _ => Raises.pure _))
  unfold check
  refine Raises.bind (get_version_ends _) (fun _ => Raises.bind ?_ (fun _ =>
    Raises.bind (hall _) (fun _ => Raises.pure _)))
  refine Raises.tryCatch (Raises.bind (check_replication_ends _ _) (fun _ => Raises.pure _))
    (fun e he => ?_)
  split
  · exact Raises.pure _
  · next hother =>
    refine Raises.throw (he.unhandled (fun hcode => ?_))
    cases e with
    | precondition message => exact hother message rfl
    | _ => cases hcode

theorem dispatch_ends (hpre : '/' ∉ config.backup.name_prefix.toList) (command : Command)
    (hs : ForeignFaults s.world) {res : Except Exn ExitCode}
    (h : exec (dispatch (site cwd nodes) config command) s = (res, s')) :
    codeOf res ∈ command.codes ∧
      Within (codeSpots cwd config command (codeOf res)) s.world s'.world := by
  have hfoot : Within (footprint cwd config command) s.world s'.world :=
    (dispatch_within hpre command).of_exec h
  cases command with
  | run =>
    rcases hrun : exec (run (site cwd nodes) config none) s with ⟨e | summary, u⟩
    · have hends := run_ends hpre hs hrun
      rw [dispatch, exec_bind_error hrun] at h
      obtain ⟨rfl, rfl⟩ := Prod.mk.inj h
      exact hends
    · have hends := run_ends hpre hs hrun
      rw [dispatch, exec_bind_ok hrun] at h
      obtain ⟨rfl, rfl⟩ := Prod.mk.inj h
      exact hends
  | purge names dry_run =>
    rcases exec_bind_cases h with ⟨e, hpurge, rfl⟩ | ⟨summary, u, hpurge, h⟩
    · exact purge_ends names dry_run hs hpurge
    have hends := purge_ends names dry_run hs hpurge
    rcases exec_bind_cases h with ⟨e, hprint, rfl⟩ | ⟨_, v, hprint, h⟩
    · have hprints : Concludes [] (lift (print_purge_summary summary dry_run)) :=
        (print_all_ends _).lift
      have hown := hprints.raised hprint ((purge_concludes _ dry_run).keeps hpurge hs)
      exact internal_ends (hown.resolve_right List.not_mem_nil) hfoot
    · obtain ⟨rfl, rfl⟩ := Prod.mk.inj h
      have hprinted : Within (codeSpots cwd config (.purge names dry_run) summary.exit_code)
          u.world v.world := (within_same (print_all_same _)).lift.of_exec hprint
      exact ⟨hends.1, trans_of (Within _) hends.2 hprinted⟩
  | list destination =>
    cases res with
    | error e =>
      have hlist : Concludes [] (lift (cmd_list (site cwd nodes) config destination)) :=
        (list_concludes destination).lift
      exact internal_ends ((hlist.raised h hs).resolve_right List.not_mem_nil) hfoot
    | ok code =>
      obtain ⟨hresult, -⟩ := Prod.mk.inj h
      obtain ⟨had_error, u, -, hcode⟩ := exec_bind_eq_ok (Prod.ext hresult rfl)
      obtain ⟨rfl, -⟩ := exec_pure_eq_ok hcode
      cases had_error with
      | false => exact ⟨by simp [codeOf, Command.codes], hfoot⟩
      | true => exact ⟨by simp [codeOf, Command.codes], hfoot⟩
  | check =>
    cases res with
    | error e =>
      have hcheck : Concludes [] (dispatch (site cwd nodes) config .check) :=
        Raises.bind check_concludes.lift (fun summary => Raises.bind (print_all_ends _).lift
          (fun _ => Raises.pure _))
      exact internal_ends ((hcheck.raised h hs).resolve_right List.not_mem_nil) hfoot
    | ok code =>
      obtain ⟨summary, u, -, h⟩ := exec_bind_eq_ok h
      obtain ⟨_, v, -, h⟩ := exec_bind_eq_ok h
      obtain ⟨rfl, -⟩ := exec_pure_eq_ok h
      cases summary.ok with
      | false => exact ⟨by simp [codeOf, Command.codes], hfoot⟩
      | true => exact ⟨by simp [codeOf, Command.codes], hfoot⟩

theorem setup_logging_keeps :
    Raises ForeignFaults (fun _ => True) (setup_logging cwd config.logging) := by
  have hcall (p : Path) : Ends [] (open_append p) := by
    apply primitive_ends
    intro r w
    cases p.find w.fs with
    | none => exact .own (lost_exit_code p) rfl
    | some l => exact .ite (.own rfl rfl) (.outcome (fun _ => rfl) (by split_ifs <;> rfl))
  have hopen (p : Path) : Raises ForeignFaults (fun _ => True) (open_append p) :=
    Raises.mono (hcall p) (fun _ _ => trivial)
  unfold setup_logging
  split
  · exact Raises.throw trivial
  · refine Raises.ite ?_ (Raises.pure _)
    unfold open_log_file
    split
    · exact hopen _
    · exact Raises.throw trivial

/-- The code that the process of a command ends with is one of the command's own, and it bounds
what the command may have changed: a run that was locked out, or did not meet a precondition,
has touched the log and the lock file alone, and a backup that failed was placed nowhere. -/
theorem exit_code_bounds_effects (hstraight : config.Straight)
    (command : Command) {w : World} (hw : ForeignFaults w) {n : ℕ} {w' : World}
    (h : invoke cwd nodes config command w = (.ok n, w')) :
    ∃ code ∈ command.codes, n = code.toNat ∧
      Within (logSpots cwd config ∪ codeSpots cwd config command code) w w' := by
  rcases hlog : exec (setup_logging cwd config.logging) w with ⟨e | ⟨⟩, u⟩
  · rw [invoke_unlogged hlog] at h
    cases (Prod.mk.inj h).1
  have hlogged : Within (logSpots cwd config) w u := setup_logging_within.of_exec hlog
  have hu : ForeignFaults u := setup_logging_keeps.keeps hlog hw
  rcases hdispatch : exec (dispatch (site cwd nodes) config command) ⟨u, []⟩ with ⟨res, s'⟩
  obtain ⟨hcode, hwithin⟩ := dispatch_ends hstraight.slash command hu hdispatch
  obtain ⟨hworld, hends⟩ := invoke_ends hlog hdispatch
  rw [h] at hworld hends
  obtain rfl : w' = s'.world := hworld
  exact ⟨codeOf res, hcode, hends n rfl, trans_of (Within _)
    (hlogged.mono Set.subset_union_left) (hwithin.mono Set.subset_union_right)⟩

/-- Another invocation holds the lock. -/
def lockedWorld : World where
  tree := (smallWorld smallTree).tree
  tape n := if n = 3 then { Reply.good 1700000000000000 with fault := some (.os "unavailable") }
    else Reply.good 1700000000000000
  commits := []

theorem exit_code_bounds_effects_locked :
    Within (logSpots [] (smallConfig "/w" "p" "/b" 1) ∪ lockSpots [] LockConfig.default.file)
      lockedWorld (invoke [] smallNodes (smallConfig "/w" "p" "/b" 1) .run lockedWorld).2 := by
  have hfaults : ForeignFaults lockedWorld := by
    intro n e he
    unfold lockedWorld at he
    dsimp only at he
    split_ifs at he
    · obtain rfl := Option.some.inj he
      rfl
    · cases he
  have hlocked : (invoke [] smallNodes (smallConfig "/w" "p" "/b" 1) .run lockedWorld).1 =
      .ok 4 := by
    decide +kernel
  obtain ⟨code, -, hcode, hwithin⟩ :=
    exit_code_bounds_effects (smallConfig_straight (by decide)) .run hfaults (Prod.ext hlocked rfl)
  obtain rfl : code = .LOCKED := by cases code <;> first | rfl | cases hcode
  exact hwithin

end

end MbKeeper
