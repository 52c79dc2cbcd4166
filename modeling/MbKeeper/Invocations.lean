import MbKeeper.RunHistory
import MbKeeper.Cli

/-!
# The generations over a history of invocations

`Invocations` are the worlds reached when the program is called again and again,
with any command, from empty local destinations, and each call ends anywhere.
At every local destination the newest generations are there as they were
committed, and a run that ends with the code of a success has put its own
generation there.
-/
namespace MbKeeper

variable {cwd : Loc} {nodes : String → RemoteNode} {config : Config} {dest : DestinationConfig}
  {P : Loc} {w w' : World}

/-- What lies in `P` is as it was but for the probe of a check. -/
structure Probed (P : Loc) (w w' : World) : Prop where
  kind : ∀ y r, y ≠ CHECK_PROBE_FILENAME → w'.fs.kind (P ++ [y] ++ r) = w.fs.kind (P ++ [y] ++ r)
  probe : w.fs.isDir (P ++ [CHECK_PROBE_FILENAME]) = false →
    w'.fs.isDir (P ++ [CHECK_PROBE_FILENAME]) = false
  committed : committed none P w' = committed none P w
  commits : w.commits ⊆ w'.commits

namespace Probed

instance : Std.Refl (Probed P) := ⟨fun _ => ⟨fun _ _ _ => rfl, id, rfl, List.Subset.refl _⟩⟩

instance : IsTrans World (Probed P) := ⟨fun _ _ _ h h' =>
  ⟨fun y r hy => (h'.kind y r hy).trans (h.kind y r hy), fun hf => h'.probe (h.probe hf),
    h'.committed.trans h.committed, List.Subset.trans h.commits h'.commits⟩⟩

theorem of_elsewhere (h : Elsewhere P w w') : Probed P w w' where
  kind y r _ := h.kind _ ⟨[y] ++ r, by simp⟩
  probe hf := (FileTree.isDir_congr (h.kind _ (List.prefix_append _ _))).trans hf
  committed := h.committed
  commits := h.commits

theorem kept {pre : String} {keep : ℕ} {last : Option ℤ} (h : Probed P w w')
    (hkept : Kept pre keep P last w) : Kept pre keep P last w' :=
  hkept.congr h.kind h.probe h.committed h.commits (fun l hl => ⟨l, hl, le_rfl⟩)

end Probed

/-- Where a check makes its directory and its probe. -/
def probing (P : Loc) : Set Spot := toward none P ∪ below none (P ++ [CHECK_PROBE_FILENAME])

theorem Probed.of_confined (h : Confined (probing P) w w')
    (hprobe : w.fs.isDir (P ++ [CHECK_PROBE_FILENAME]) = false →
      w'.fs.isDir (P ++ [CHECK_PROBE_FILENAME]) = false) : Probed P w w' where
  kind y r hy := by
    apply h.fs_kind
    rintro (⟨-, hq⟩ | ⟨-, hq⟩)
    · have := hq.length_le
      simp only [List.length_append, List.length_singleton] at this
      omega
    · exact hy (prefix_entry_iff.mp hq).symm
  probe := hprobe
  committed := committed_congr h.commits
  commits := by
    rw [h.commits]
    exact List.Subset.refl _

theorem Elsewhere.of_probing {P' : Loc} (hl : ¬ P' <+: P) (hP : ¬ P <+: P')
    (h : Confined (probing P') w w') : Elsewhere P w w' := by
  refine of_confined h (fun q hq => ?_)
  rintro (⟨-, hpre⟩ | ⟨-, hpre⟩)
  · exact hP (hq.trans hpre)
  · exact notMem_below hl hP hq ⟨rfl, (List.prefix_append _ _).trans hpre⟩

namespace LocalDestination

variable {d : LocalDestination}

/-- A check touches its directory and its probe, and makes no directory of the probe. -/
theorem check_probing (hp : d.path.At P) :
    Moves (fun w w' => Confined (probing P) w w' ∧ Probed P w w') d.check := by
  have : Std.Refl (fun w w' => Confined (probing P) w w' ∧ Probed P w w') :=
    ⟨fun w => ⟨refl_of (Confined _) w, refl_of (Probed P) w⟩⟩
  have : IsTrans World (fun w w' => Confined (probing P) w w' ∧ Probed P w w') :=
    ⟨fun _ _ _ h h' => ⟨trans_of (Confined _) h.1 h'.1, trans_of (Probed P) h.2 h'.2⟩⟩
  have hloc : (d.path.child CHECK_PROBE_FILENAME).loc = P ++ [CHECK_PROBE_FILENAME] :=
    (hp.child CHECK_PROBE_FILENAME).loc_eq
  refine guarded_moves _ (Moves.bind (fun w => ?_) (fun _ => Moves.bind (fun w => ?_)
    (fun _ w => ?_)))
  · have hdir := mkdir_moves d.path w
    rw [hp.chainSpots_eq] at hdir
    have hconfined := hdir.mono (Set.subset_union_left (t := below none
      (P ++ [CHECK_PROBE_FILENAME])))
    refine ⟨hconfined, Probed.of_confined hconfined (fun hf => ?_)⟩
    rw [FileTree.isDir_congr (hdir.fs_kind (fun hq => ?_)), hf]
    have := hq.2.length_le
    simp only [List.length_append, List.length_singleton] at this
    omega
  · have hwrite := write_text_moves (d.path.child CHECK_PROBE_FILENAME) "ok" false w
    rw [hloc] at hwrite
    have hconfined := hwrite.mono (Set.subset_union_right (s := toward none P))
    refine ⟨hconfined, Probed.of_confined hconfined (fun hf => ?_)⟩
    rw [← hloc] at hf ⊢
    exact write_text_not_dir _ _ _ hf
  · have hremoves := unlink_file_removes (d.path.child CHECK_PROBE_FILENAME) w
    rw [hloc] at hremoves
    have hconfined := hremoves.toConfined.mono (Set.subset_union_right (s := toward none P))
    exact ⟨hconfined, Probed.of_confined hconfined (fun hf => hremoves.isDir_eq_false hf)⟩

end LocalDestination

section

variable {other : DestinationConfig}

/-- A check of one destination happens elsewhere than at the others. -/
theorem check_elsewhere (hlayout : Layout cwd nodes config) (hd : dest ∈ config.destinations)
    (ho : other ∈ config.destinations) (hl : other.type = .local) (hne : other ≠ dest) :
    Moves (Elsewhere (localRoot cwd other))
      ((site cwd nodes).build_destination dest config.transfer).check := by
  intro w
  cases htype : dest.type with
  | ssh =>
    rw [build_ssh htype]
    have hops := (SSHDestination.from_config nodes dest config.transfer).operations_only
      (work_dir (site cwd nodes) config) ""
    exact Elsewhere.of_only (hops.2.2.2 w)
  | «local» =>
    have hlocal := hlayout.isLocal hd htype
    rw [hlocal.build]
    exact Elsewhere.of_probing (hlayout.each dest hd other ho htype hl (Ne.symm hne))
      (hlayout.each other ho dest hd hl htype hne)
      (LocalDestination.check_probing (hlocal.at cwd) w).1

theorem check_probes (hlayout : Layout cwd nodes config) (hd : dest ∈ config.destinations)
    (ho : other ∈ config.destinations) (hl : other.type = .local) :
    Moves (Probed (localRoot cwd other))
      ((site cwd nodes).build_destination dest config.transfer).check := by
  by_cases hsame : other = dest
  · subst hsame
    have hlocal := hlayout.isLocal ho hl
    rw [hlocal.build]
    exact fun w => (LocalDestination.check_probing (hlocal.at cwd) w).2
  · exact (check_elsewhere hlayout hd ho hl hsame).mono (fun _ _ h => Probed.of_elsewhere h)

/-- What the checks of single destinations keep, the loop over them keeps. -/
theorem check_destinations_moves {R : World → World → Prop} [Std.Refl R] [IsTrans World R]
    {site : Site} {dests : List DestinationConfig}
    (h : ∀ dest ∈ dests, Moves R (site.build_destination dest config.transfer).check) :
    Moves R (check_destinations site config dests) := by
  induction dests with
  | nil => exact Moves.pure _
  | cons dest dests ih =>
    have hrest := ih (fun d hd => h d (List.mem_cons_of_mem _ hd))
    refine Moves.bind (Moves.tryCatch (Moves.bind (h dest List.mem_cons_self) (fun _ =>
      Moves.pure _)) (fun e => ?_)) (fun _ => Moves.bind hrest (fun _ => Moves.pure _))
    split
    · exact Moves.pure _
    · exact Moves.throw _

theorem check_moves (hlayout : Layout cwd nodes config) (ho : other ∈ config.destinations)
    (hl : other.type = .local) :
    Moves (Probed (localRoot cwd other)) (check (site cwd nodes) config) := by
  have hsame {β : Type} {m : Io β} (hm : Moves Same m) : Moves (Probed (localRoot cwd other)) m :=
    hm.mono (fun _ _ hs => Probed.of_elsewhere (Elsewhere.of_same hs))
  have hdestinations : Moves (Probed (localRoot cwd other))
      (check_destinations (site cwd nodes) config config.destinations) :=
    check_destinations_moves (fun dest hd => check_probes hlayout hd ho hl)
  unfold check
  refine Moves.bind (hsame (MariabackupRunner.get_version_moves _)) (fun _ =>
    Moves.bind ?_ (fun _ => Moves.bind hdestinations (fun _ => Moves.pure _)))
  refine Moves.tryCatch (Moves.bind (hsame (check_replication_moves _ _)) (fun _ =>
    Moves.pure _)) (fun e => ?_)
  split
  · exact Moves.pure _
  · exact Moves.throw _

end

theorem print_same (text : String) : Moves Same (print text) := LocalDestination.ask_same _

theorem print_all_same (texts : List String) : Moves Same (print_all texts) := by
  induction texts with
  | nil => exact Moves.pure _
  | cons text texts ih => exact Moves.bind (print_same text) (fun _ => ih)

theorem list_undisturbed (hlayout : Layout cwd nodes config) (destination_filter : Option String) :
    Moves (Undisturbed cwd config) (cmd_list (site cwd nodes) config destination_filter) := by
  have hlisting (dest : DestinationConfig) (hd : dest ∈ config.destinations) :
      Moves (Undisturbed cwd config)
        ((site cwd nodes).build_destination dest config.transfer).list_backups := by
    cases htype : dest.type with
    | ssh =>
      rw [build_ssh htype]
      exact fun w _ _ _ => Elsewhere.of_only (((SSHDestination.from_config nodes dest
        config.transfer).operations_only (work_dir (site cwd nodes) config) "").2.1 w)
    | «local» =>
      have hlocal := hlayout.isLocal hd htype
      rw [hlocal.build]
      exact same_undisturbed (LocalDestination.list_backups_reads (hlocal.at cwd)).moves
  have hone (dest : DestinationConfig) (hd : dest ∈ config.destinations) :
      Moves (Undisturbed cwd config) (list_destination (site cwd nodes) config dest) := by
    refine Moves.bind (same_undisturbed (print_same _)) (fun _ => Moves.bind (Moves.tryCatch
      (Moves.bind (hlisting dest hd) (fun _ => Moves.pure _)) (fun e => ?_)) (fun listing => ?_))
    · split
      · exact Moves.pure _
      · exact Moves.throw _
    · split
      · exact Moves.bind (same_undisturbed (print_same _)) (fun _ => Moves.pure _)
      · exact Moves.bind (same_undisturbed (print_all_same _)) (fun _ => Moves.pure _)
  have hall (dests : List DestinationConfig) (hsub : dests ⊆ config.destinations) :
      Moves (Undisturbed cwd config) (list_destinations (site cwd nodes) config dests) := by
    induction dests with
    | nil => exact Moves.pure _
    | cons dest dests ih =>
      obtain ⟨hd, hsub⟩ := List.cons_subset.mp hsub
      exact Moves.bind (hone dest hd) (fun _ => Moves.bind (ih hsub) (fun _ => Moves.pure _))
  exact Moves.bind (hall _ List.filter_sublist.subset) (fun _ => Moves.pure _)

theorem purge_command_retains (hlayout : Layout cwd nodes config) (last : Option ℤ)
    (destination_names : Option (List String)) (dry_run : Bool) (now : Option Datetime) :
    Moves (OnWorld (Retains cwd config last))
      (purge (site cwd nodes) config destination_names dry_run now) := by
  have hretains {β : Type} {m : Pipeline β} (hm : Moves (OnWorld (Undisturbed cwd config)) m) :
      Moves (OnWorld (Retains cwd config last)) m := hm.mono (fun _ _ hu => Undisturbed.retains hu)
  have hloop (time : Datetime) (dests : List DestinationConfig)
      (hsub : dests ⊆ config.destinations) : Moves (OnWorld (Retains cwd config last))
        (purge_loop (site cwd nodes) config time dry_run dests) := by
    induction dests with
    | nil => exact Moves.pure _
    | cons dest dests ih =>
      obtain ⟨hd, hsub⟩ := List.cons_subset.mp hsub
      exact Moves.bind (purge_retains hlayout hd time dry_run none) (fun _ =>
        Moves.bind (ih hsub) (fun _ => Moves.pure _))
  have hnow : Moves (OnWorld (Undisturbed cwd config)) (now_or now) :=
    (now_or_same now).mono (fun _ _ h _ _ _ => Elsewhere.of_same h)
  exact Moves.bind (hretains hnow) (fun time =>
    Moves.bind (hretains ((lock_undisturbed hlayout).perform _)) (fun _ =>
      Moves.bind (hloop time _ List.filter_sublist.subset) (fun _ => Moves.pure _)))

theorem open_append_moves (p : Path) : Moves (Confined (below none p.loc)) (open_append p) := by
  apply primitive_moves
  intro r w
  cases hfind : p.find w.fs with
  | none => exact refl_of (Confined _) w
  | some l =>
    obtain rfl := Path.find_eq_loc hfind
    have hcreate : Confined (below none p.loc) w
        (w.setTree none (w.fs.create p.loc (.file "") r.stamp)) := by
      refine Confined.setTree (fun q hq => ?_)
      rw [FileTree.kind_create, if_neg (by rintro rfl; exact hq ⟨rfl, List.prefix_refl _⟩)]
      rfl
    dsimp only
    cases r.fault <;> split_ifs
    all_goals first | exact hcreate | exact refl_of (Confined _) w

theorem setup_logging_undisturbed (hlayout : Layout cwd nodes config) :
    Moves (Undisturbed cwd config) (setup_logging cwd config.logging) := by
  unfold setup_logging
  split
  · exact Moves.throw _
  · split_ifs with htruthy
    · cases hfile : config.logging.file with
      | str text =>
        have hne : text ≠ "" := by
          rintro rfl
          rw [hfile] at htruthy
          cases htruthy
        refine undisturbed_of (fun dest hd hl => ?_)
        refine Elsewhere.moves_below (hlayout.log dest hd hl text hfile hne) (fun hnul w => ?_)
          (open_append_moves _)
        have hopen : exec (open_append (Path.configured cwd (PurePath.parse text))) w =
            (.error (lost (Path.configured cwd (PurePath.parse text))), w.next) := by
          rw [open_append, exec_primitive, Path.find_nul hnul]
        exact hopen ▸ same_next w
      | _ => exact Moves.throw _
    · exact Moves.pure _

/-- The handlers around a command change nothing. -/
theorem boundary_moves {R : World → World → Prop} [Std.Refl R] [IsTrans World R]
    {m : Pipeline ExitCode} (h : Moves (OnWorld R) m) : Moves (OnWorld R) (boundary m) := by
  refine Moves.tryCatch h (fun e => ?_)
  split
  · exact Moves.throw _
  · exact Moves.pure _

/-- What the setting up of logging and a command keep, an invocation keeps. -/
theorem main_loaded_moves {R : World → World → Prop} [Std.Refl R] [IsTrans World R] {site : Site}
    {command : Command} (hlog : Moves R (setup_logging site.cwd config.logging))
    (h : Moves (OnWorld R) (dispatch site config command)) :
    Moves (OnWorld R) (main_loaded site config command) :=
  Moves.bind hlog.lift (fun _ => Moves.bind (boundary_moves h) (fun _ => Moves.pure _))

section

variable (cwd : Loc) (nodes : String → RemoteNode) (config : Config)

/-- What the clock says when a run begins, after logging was set up. -/
def run_clock (w : World) : Instant :=
  ((exec (setup_logging cwd config.logging) w).2.tape 0).stamp

/-- The world an invocation leaves behind, and the code its process ends with. -/
def invoke (command : Command) (w : World) : Except Exn ℕ × World :=
  let result := exec (main_loaded (site cwd nodes) config command) ⟨w, []⟩
  (result.1, result.2.world)

/-- The worlds reached from empty local destinations by one invocation after the other, with the
second of the last run. A run comes later than the one before it, and a check may not leave its
probe. What happens in between happens elsewhere. -/
inductive Invocations : World → Option ℤ → Prop where
  | start {w : World} (hempty : ∀ dest ∈ config.destinations, dest.type = .local →
      (∀ q, localRoot cwd dest <+: q → q ≠ localRoot cwd dest → w.fs.kind q = none) ∧
        committed none (localRoot cwd dest) w = []) : Invocations w none
  | run {w : World} {last : Option ℤ} (h : Invocations w last)
      (hyear : FourDigitYear (run_clock cwd config w))
      (hlater : ∀ l, last = some l → l < second (run_clock cwd config w)) :
      Invocations (invoke cwd nodes config .run w).2 (some (second (run_clock cwd config w)))
  | purge {w : World} {last : Option ℤ} (h : Invocations w last) (destinations : List String)
      (dry_run : Bool) :
      Invocations (invoke cwd nodes config (.purge destinations dry_run) w).2 last
  | list {w : World} {last : Option ℤ} (h : Invocations w last) (destination : Option String) :
      Invocations (invoke cwd nodes config (.list destination) w).2 last
  | check {w : World} {last : Option ℤ} (h : Invocations w last) :
      Invocations (invoke cwd nodes config .check w).2 last
  | elsewhere {w w' : World} {last : Option ℤ} (h : Invocations w last)
      (hundisturbed : Undisturbed cwd config w w') : Invocations w' last

end

theorem probed_of_undisturbed {α : Type} {m : Io α} (h : Moves (Undisturbed cwd config) m)
    (hd : dest ∈ config.destinations) (hl : dest.type = .local) :
    Moves (Probed (localRoot cwd dest)) m :=
  h.mono (fun _ _ hu => Probed.of_elsewhere (hu dest hd hl))

theorem invoke_unlogged {command : Command} {e : Exn} {u : World}
    (hlog : exec (setup_logging cwd config.logging) w = (.error e, u)) :
    invoke cwd nodes config command w = (.error e, u) := by
  have hlift : exec (lift (setup_logging (site cwd nodes).cwd config.logging)) ⟨w, []⟩ =
      (.error e, ⟨u, []⟩) := by
    rw [exec_lift, show (site cwd nodes).cwd = cwd from rfl, hlog]
  rw [invoke, main_loaded]
  rw [exec_bind_error hlift]

/-- The code of a command that came to this end. -/
def codeOf : Except Exn ExitCode → ExitCode
  | .ok code => code
  | .error e => e.exit_code

/-- The end of a command becomes the code of its process. -/
theorem invoke_ends {command : Command} {u : World} {res : Except Exn ExitCode} {s' : Pipe}
    (hlog : exec (setup_logging cwd config.logging) w = (.ok (), u))
    (hdispatch : exec (dispatch (site cwd nodes) config command) ⟨u, []⟩ = (res, s')) :
    (invoke cwd nodes config command w).2 = s'.world ∧
      ∀ n, (invoke cwd nodes config command w).1 = .ok n → n = (codeOf res).toNat := by
  have hlift : exec (lift (setup_logging (site cwd nodes).cwd config.logging)) ⟨w, []⟩ =
      (.ok (), ⟨u, []⟩) := by
    rw [exec_lift, show (site cwd nodes).cwd = cwd from rfl, hlog]
  rw [invoke, main_loaded]
  rw [exec_bind_ok hlift, exec_bind, boundary, exec_tryCatch, hdispatch]
  cases res with
  | ok code => exact ⟨rfl, fun n hn => (Except.ok.inj hn).symm⟩
  | error e =>
    refine ⟨by cases e <;> rfl, fun n hn => ?_⟩
    cases e with
    | crash => cases hn
    | _ => exact (Except.ok.inj hn).symm

theorem invoke_run {u : World} {res : Except Exn RunSummary} {s' : Pipe}
    (hlog : exec (setup_logging cwd config.logging) w = (.ok (), u))
    (hrun : exec (run (site cwd nodes) config none) ⟨u, []⟩ = (res, s')) :
    (invoke cwd nodes config .run w).2 = s'.world ∧
      ∀ code, (invoke cwd nodes config .run w).1 = .ok code →
        (∃ summary, res = .ok summary ∧ code = summary.exit_code.toNat) ∨
          ∃ e, res = .error e ∧ code = e.exit_code.toNat := by
  cases res with
  | ok summary =>
    have hdispatch : exec (dispatch (site cwd nodes) config .run) ⟨u, []⟩ =
        (.ok summary.exit_code, s') := exec_bind_ok hrun _
    obtain ⟨hworld, hcode⟩ := invoke_ends hlog hdispatch
    exact ⟨hworld, fun code hok => .inl ⟨summary, rfl, hcode code hok⟩⟩
  | error e =>
    have hdispatch : exec (dispatch (site cwd nodes) config .run) ⟨u, []⟩ = (.error e, s') :=
      exec_bind_error hrun _
    obtain ⟨hworld, hcode⟩ := invoke_ends hlog hdispatch
    exact ⟨hworld, fun code hok => .inr ⟨e, rfl, hcode code hok⟩⟩

/-- A command whose process ends with 0 was a success. -/
theorem invoke_success {command : Command}
    (h : (invoke cwd nodes config command w).1 = .ok ExitCode.SUCCESS.toNat) :
    ∃ u s', exec (setup_logging cwd config.logging) w = (.ok (), u) ∧
      exec (dispatch (site cwd nodes) config command) ⟨u, []⟩ = (.ok .SUCCESS, s') ∧
      (invoke cwd nodes config command w).2 = s'.world := by
  rcases hlog : exec (setup_logging cwd config.logging) w with ⟨e | ⟨⟩, u⟩
  · rw [invoke_unlogged hlog] at h
    cases h
  rcases hdispatch : exec (dispatch (site cwd nodes) config command) ⟨u, []⟩ with ⟨res, s'⟩
  obtain ⟨hworld, hcode⟩ := invoke_ends hlog hdispatch
  refine ⟨u, s', rfl, ?_, hworld⟩
  have hzero := hcode _ h
  cases res with
  | ok code =>
    rw [codeOf] at hzero
    obtain rfl : code = .SUCCESS := by cases code <;> first | rfl | cases hzero
    exact hdispatch
  | error e => cases e <;> cases hzero

/-- What a run among the invocations leaves behind. -/
theorem invoke_run_leaves (haccepted : config.Accepted) (hlayout : Layout cwd nodes config)
    {last : Option ℤ} (hkept : KeptEach cwd config last w)
    (hyear : FourDigitYear (run_clock cwd config w))
    (hlater : ∀ l, last = some l → l < second (run_clock cwd config w)) :
    KeptEach cwd config (some (second (run_clock cwd config w)))
      (invoke cwd nodes config .run w).2 ∧
    ∀ code, (invoke cwd nodes config .run w).1 = .ok code → (∃ e : Exn, code = e.exit_code.toNat) ∨
      ∃ u summary s', exec (run (site cwd nodes) config none) ⟨u, []⟩ = (.ok summary, s') ∧
        code = summary.exit_code.toNat ∧
        Leaves cwd config (run_clock cwd config w) (.ok summary)
          (invoke cwd nodes config .run w).2 := by
  have hlast : ∀ l, last = some l →
      ∃ l', some (second (run_clock cwd config w)) = some l' ∧ l ≤ l' := fun l hl =>
    ⟨_, rfl, (hlater l hl).le⟩
  have hclock : run_clock cwd config w =
      ((exec (setup_logging cwd config.logging) w).2.tape 0).stamp := rfl
  rcases hlog : exec (setup_logging cwd config.logging) w with ⟨e | ⟨⟩, u⟩
  · rw [invoke_unlogged hlog]
    have hu := (setup_logging_undisturbed hlayout).of_exec hlog
    exact ⟨(hkept.undisturbed hu).later hlast, fun code hcode => nomatch hcode⟩
  · have hu := (setup_logging_undisturbed hlayout).of_exec hlog
    rw [hlog] at hclock
    rcases hrun : exec (run (site cwd nodes) config none) ⟨u, []⟩ with ⟨res, s'⟩
    have htime : (start_time none u).instant = some (run_clock cwd config w) := by
      rw [hclock]
      exact Datetime.instant_utc _
    have hleaves := run_leaves haccepted hlayout htime hyear hlater (hkept.undisturbed hu) hrun
    obtain ⟨hworld, hcode⟩ := invoke_run hlog hrun
    rw [hworld]
    refine ⟨hleaves.1, fun code hok => ?_⟩
    rcases hcode code hok with ⟨summary, rfl, hexit⟩ | ⟨e, -, he⟩
    · exact .inr ⟨u, summary, s', hrun, hexit, hleaves⟩
    · exact .inl ⟨e, he⟩

/-- Each invocation keeps what is kept, and so does the history. -/
theorem Invocations.kept (haccepted : config.Accepted) (hlayout : Layout cwd nodes config)
    {last : Option ℤ} (h : Invocations cwd nodes config w last) : KeptEach cwd config last w := by
  have hlog := setup_logging_undisturbed hlayout
  induction h with
  | start hempty =>
    intro dest hd hl
    obtain ⟨hnothing, hnone⟩ := hempty dest hd hl
    exact Kept.start hnothing hnone
  | run _ hyear hlater ih => exact (invoke_run_leaves haccepted hlayout ih hyear hlater).1
  | @purge w last _ destinations dry_run ih =>
    have hpurge : Moves (OnWorld (Retains cwd config last))
        (main_loaded (site cwd nodes) config (.purge destinations dry_run)) := by
      refine main_loaded_moves (hlog.mono (fun _ _ hu => Undisturbed.retains hu)) ?_
      refine Moves.bind (purge_command_retains hlayout last _ dry_run none) (fun summary => ?_)
      have hprint : Moves (Undisturbed cwd config) (print_purge_summary summary dry_run) :=
        same_undisturbed (print_all_same _)
      exact Moves.bind (hprint.mono (fun _ _ hu => Undisturbed.retains hu)).lift
        (fun _ => Moves.pure _)
    exact (hpurge ⟨w, []⟩ ih).1
  | @list w last _ destination ih =>
    have hlist : Moves (OnWorld (Undisturbed cwd config))
        (main_loaded (site cwd nodes) config (.list destination)) :=
      main_loaded_moves hlog (list_undisturbed hlayout destination).lift
    exact ih.undisturbed (hlist ⟨w, []⟩)
  | @check w last _ ih =>
    intro dest hd hl
    have hprint (summary : CheckSummary) : Moves (Probed (localRoot cwd dest))
        (print_check_summary summary) :=
      (print_all_same _).mono (fun _ _ hs => Probed.of_elsewhere (Elsewhere.of_same hs))
    have hcheck : Moves (OnWorld (Probed (localRoot cwd dest)))
        (main_loaded (site cwd nodes) config .check) := by
      refine main_loaded_moves (probed_of_undisturbed hlog hd hl) ?_
      exact Moves.bind (check_moves hlayout hd hl).lift (fun summary =>
        Moves.bind (hprint summary).lift (fun _ => Moves.pure _))
    exact (hcheck ⟨w, []⟩).kept (ih dest hd hl)
  | elsewhere _ hundisturbed ih => exact ih.undisturbed hundisturbed

/-- In every world of a history of invocations, at every local destination the newest
`min keep n` of the `n` generations committed there are as they were committed; they are listed
as complete, and nothing is that was not committed. -/
theorem generations_survive_invocations (haccepted : config.Accepted)
    (hlayout : Layout cwd nodes config) {last : Option ℤ}
    (h : Invocations cwd nodes config w last) (hd : dest ∈ config.destinations)
    (hl : dest.type = .local) :
    (newest dest.keep (committedIds none (localRoot cwd dest) w)).card =
        min dest.keep (committed none (localRoot cwd dest) w).length ∧
      (∀ x ∈ committed none (localRoot cwd dest) w,
        x.val ∈ newest dest.keep (committedIds none (localRoot cwd dest) w) →
          Intact (localRoot cwd dest) w x) ∧
      ∀ stored u, exec (LocalDestination.from_config cwd dest).list_backups w = (.ok stored, u) →
        newest dest.keep (committedIds none (localRoot cwd dest) w) ⊆ completeIds stored ∧
          completeIds stored ⊆ committedIds none (localRoot cwd dest) w := by
  have hkept := h.kept haccepted hlayout dest hd hl
  refine ⟨?_, hkept.intact, fun stored u hlist => ?_⟩
  · rw [card_newest, committedIds, List.toFinset_card_of_nodup, List.length_map]
    exact (List.pairwise_map.mpr hkept.ascending).imp (fun hxy => ne_of_lt hxy)
  · obtain ⟨-, -, -, rfl⟩ :=
      LocalDestination.list_backups_ok ((hlayout.isLocal hd hl).at cwd) hlist
    exact hkept.listed

theorem smallConfig_straight {root : String} (hroot : ".." ∉ (PurePath.parse root).parts) :
    (smallConfig "/w" "p" root 1).Straight := by
  have hslash : '/' ∉ "p".toList := by decide
  have hwork : ".." ∉ (PurePath.parse "/w").parts := by decide
  have hlock : ".." ∉ LockConfig.default.file.parts := by decide
  refine ⟨hslash, hwork, hlock, fun text htext => ?_, fun dest hd _ => ?_⟩
  · rw [← Toml.str.inj htext]
    decide
  · obtain rfl := List.mem_singleton.mp hd
    exact hroot

theorem smallLayout : Layout [] smallNodes (smallConfig "/w" "p" "/b" 1) := by
  have hroot : localRoot [] (smallDestination "/b" 1) = [entry "b"] := by decide
  refine ⟨smallConfig_straight (by decide), ?_, ?_, ?_, ?_, ?_, ?_⟩
  all_goals
    intro dest hd
    obtain rfl := List.mem_singleton.mp hd
  · intro _
    decide
  · intro other ho _ _ hne
    exact absurd (List.mem_singleton.mp ho).symm hne
  · intro _ _
    rw [hroot]
    decide
  · intro _ _
    rw [hroot]
    decide
  · intro _ _
    rw [hroot]
    decide
  · intro _ text htext hne
    exact absurd (Toml.str.inj htext).symm hne

theorem backupWorld_start :
    Invocations [] smallNodes (smallConfig "/w" "p" "/b" 1) backupWorld none := by
  have hall : ∀ q ∈ smallTree.locs, [entry "b"] <+: q → q = [entry "b"] := by decide
  refine .start (fun dest hd _ => ?_)
  obtain rfl := List.mem_singleton.mp hd
  refine ⟨fun q hq hne => ?_, by decide⟩
  by_contra hk
  refine hne (hall q (FileTree.finite _ q (fun hn => hk ?_)) hq)
  exact congrArg (Option.map Node.kind) hn

/-- The world `w` from the moment `t` on, in which every process prints the marker. -/
def World.since (t : Instant) (w : World) : World :=
  { w with tape := fun _ => { Reply.good t with stderr := SUCCESS_MARKER } }

theorem undisturbed_since (t : Instant) : Undisturbed cwd config w (w.since t) :=
  fun _ _ _ => ⟨fun _ _ => rfl, rfl, List.Subset.refl _⟩

/-- One run has been made, and a second has passed. -/
def secondWorld : World :=
  (invoke [] smallNodes (smallConfig "/w" "p" "/b" 1) .run backupWorld).2.since 1700000001000000

theorem secondWorld_reached :
    Invocations [] smallNodes (smallConfig "/w" "p" "/b" 1) secondWorld (some 1700000000) := by
  have hyear : FourDigitYear (run_clock [] (smallConfig "/w" "p" "/b" 1) backupWorld) := by decide
  have hsecond : second (run_clock [] (smallConfig "/w" "p" "/b" 1) backupWorld) = 1700000000 := by
    decide +kernel
  have h := backupWorld_start.run hyear (by simp)
  rw [hsecond] at h
  exact h.elsewhere (undisturbed_since 1700000001000000)

theorem secondWorld_clock :
    run_clock [] (smallConfig "/w" "p" "/b" 1) secondWorld = 1700000001000000 := by
  decide +kernel

theorem secondWorld_year :
    FourDigitYear (run_clock [] (smallConfig "/w" "p" "/b" 1) secondWorld) := by
  rw [secondWorld_clock]
  decide

theorem secondWorld_later : ∀ l, some (1700000000 : ℤ) = some l →
    l < second (run_clock [] (smallConfig "/w" "p" "/b" 1) secondWorld) := by
  intro l hl
  rw [secondWorld_clock, ← Option.some.inj hl]
  decide

/-- Both runs have committed a generation. -/
theorem secondWorld_committed : committed none (localRoot [] (smallDestination "/b" 1))
    (invoke [] smallNodes (smallConfig "/w" "p" "/b" 1) .run secondWorld).2 =
      [entry "p-20231114T221320Z", entry "p-20231114T221321Z"] := by
  decide +kernel

/-- After two runs the generation of the second is there as it was committed. -/
theorem generations_survive_invocations_twice :
    Intact [entry "b"] (invoke [] smallNodes (smallConfig "/w" "p" "/b" 1) .run secondWorld).2
      (entry "p-20231114T221321Z") := by
  have h := secondWorld_reached.run secondWorld_year secondWorld_later
  have hsurvive := (generations_survive_invocations smallConfig_accepted smallLayout h
    List.mem_cons_self rfl).2.1 (entry "p-20231114T221321Z")
  rw [committedIds, secondWorld_committed] at hsurvive
  exact hsurvive (List.mem_cons_of_mem _ List.mem_cons_self) (by decide)

/-- The generation of the last run is among the newest. -/
theorem Kept.last_newest {pre : String} {keep : ℕ} {t : Instant} {now : Datetime} {id : String}
    (h : Kept pre keep P (some (second t)) w) (hkeep : 1 ≤ keep) (ht : now.instant = some t)
    (hyear : FourDigitYear t) (hid : generate_backup_id pre now = .ok id)
    (hmem : id ∈ committedIds none P w) : id ∈ newest keep (committedIds none P w) := by
  have htop : ∀ i ∈ committedIds none P w, i ≤ id := by
    intro i hi
    obtain ⟨y, hy, rfl⟩ := List.mem_map.mp (List.mem_toFinset.mp hi)
    obtain ⟨now', t', l, hid', ht', hyear', hlast, hle⟩ := h.made y hy
    obtain rfl := Option.some.inj hlast
    rcases lt_or_eq_of_le hle with hlt | heq
    · exact (generate_backup_id_lt hid' hid ht' ht hyear' hyear hlt).le
    · -- ids of one second are equal
      obtain ⟨u, hu, -, rfl⟩ := generate_backup_id_eq_ok.mp hid
      obtain ⟨u', hu', -, hval⟩ := generate_backup_id_eq_ok.mp hid'
      obtain rfl : t = u := Option.some.inj (ht.symm.trans hu)
      obtain rfl : t' = u' := Option.some.inj (ht'.symm.trans hu')
      rw [hval, stamp_congr heq]
  have habove := above_eq_zero htop
  exact mem_newest.mpr ⟨hmem, by omega⟩

/-- Every destination of a run that ends with the code of a success, or of a failed purge, is
reported as stored. -/
theorem stored_everywhere (haccepted : config.Accepted) {summary : RunSummary} {s' : Pipe}
    (hrun : exec (run (site cwd nodes) config none) ⟨w, []⟩ = (.ok summary, s'))
    (hcode : summary.exit_code = .SUCCESS ∨ summary.exit_code = .PURGE_FAILED)
    (hd : dest ∈ config.destinations) :
    ∃ o ∈ summary.destination_outcomes, o.name = dest.name ∧ o.stored = true := by
  have hpast : summary.exit_code ≠ .BACKUP_FAILED := by
    rcases hcode with hcode | hcode <;> simp [hcode]
  obtain ⟨hattempted, houtcomes, -, had_error, -, hexit⟩ :=
    run_placed haccepted.some_destination haccepted.names hrun hpast
  have hfailed : summary.destination_outcomes.filter (!·.stored) = [] := by
    by_contra hne
    rw [hexit, exitCode, if_pos hne] at hcode
    split_ifs at hcode <;> simp at hcode
  have hall : ∀ trial ∈ storeTrials s'.trace, trial.error = none := by
    intro trial hmem
    rw [houtcomes, List.filter_eq_nil_iff] at hfailed
    have h := hfailed _ (List.mem_map_of_mem hmem)
    simpa [Trial.outcome] using h
  rw [← hattempted.dests_eq_of_stored hall] at hd
  obtain ⟨trial, hmem, rfl⟩ := List.mem_map.mp hd
  refine ⟨trial.outcome, ?_, rfl, ?_⟩
  · rw [houtcomes]
    exact List.mem_map_of_mem hmem
  · rw [Trial.outcome, hall trial hmem]
    rfl

/-- A run among the invocations whose process ends with 0, or with the code of a failed purge:
at every local destination its generation is there as it was committed and is listed as
complete. -/
theorem successful_run_delivers (haccepted : config.Accepted) (hlayout : Layout cwd nodes config)
    {last : Option ℤ} (h : Invocations cwd nodes config w last)
    (hyear : FourDigitYear (run_clock cwd config w))
    (hlater : ∀ l, last = some l → l < second (run_clock cwd config w)) {code : ℕ}
    (hcode : code = ExitCode.SUCCESS.toNat ∨ code = ExitCode.PURGE_FAILED.toNat)
    (hinvoke : (invoke cwd nodes config .run w).1 = .ok code) (hd : dest ∈ config.destinations)
    (hl : dest.type = .local) :
    ∃ (now : Datetime) (x : Name), now.instant = some (run_clock cwd config w) ∧
      generate_backup_id config.backup.name_prefix now = .ok x.val ∧
      Intact (localRoot cwd dest) (invoke cwd nodes config .run w).2 x ∧
      x.val ∈ completeIds
        (LocalDestination.records (invoke cwd nodes config .run w).2.fs (localRoot cwd dest)) := by
  obtain ⟨hkept, hended⟩ := invoke_run_leaves haccepted hlayout (h.kept haccepted hlayout) hyear
    hlater
  rcases hended code hinvoke with ⟨e, he⟩ | ⟨u, summary, s', hrun, hexit, hleaves⟩
  · -- nothing that is raised has one of these codes
    exfalso
    rw [he] at hcode
    cases e <;> simp [Exn.exit_code, ExitCode.toNat] at hcode
  have hsummary : summary.exit_code = .SUCCESS ∨ summary.exit_code = .PURGE_FAILED := by
    rw [hexit] at hcode
    revert hcode
    cases summary.exit_code <;> simp [ExitCode.toNat]
  obtain ⟨⟨now, hnow, hid⟩, hdelivered⟩ := hleaves.2 summary rfl
  obtain ⟨o, ho, hname, hstored⟩ := stored_everywhere haccepted hrun hsummary hd
  obtain ⟨named, hnamed, hsame, hdelivers⟩ := hdelivered o ho
  obtain rfl : named = dest :=
    List.inj_on_of_nodup_map haccepted.names hnamed hd (hsame.symm.trans hname)
  have hmem := hdelivers hstored hl
  obtain ⟨x, hx, hval⟩ := List.mem_map.mp (List.mem_toFinset.mp hmem)
  have hown := hkept named hd hl
  rw [← hval] at hid hmem
  have hnewest := hown.last_newest (haccepted.keep named hd) hnow hyear hid hmem
  exact ⟨now, x, hnow, hid, hown.intact x hx hnewest, hown.listed.1 hnewest⟩

/-- The second of two runs delivers its own generation. -/
theorem successful_run_delivers_second : ∃ x : Name, x.val = "p-20231114T221321Z" ∧
    Intact [entry "b"]
      (invoke [] smallNodes (smallConfig "/w" "p" "/b" 1) .run secondWorld).2 x := by
  have hcode : (invoke [] smallNodes (smallConfig "/w" "p" "/b" 1) .run secondWorld).1 = .ok 0 := by
    decide +kernel
  obtain ⟨now, x, hnow, hid, hintact, -⟩ := successful_run_delivers smallConfig_accepted smallLayout
    secondWorld_reached secondWorld_year secondWorld_later (.inl rfl) hcode List.mem_cons_self rfl
  obtain ⟨t, ht, -, hval⟩ := generate_backup_id_eq_ok.mp hid
  obtain rfl := Option.some.inj (hnow.symm.trans ht)
  rw [secondWorld_clock] at hval
  exact ⟨x, hval.trans (by decide +kernel), hintact⟩

end MbKeeper
