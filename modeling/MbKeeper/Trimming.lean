import MbKeeper.Delivery

/-!
# After a success

A run, or a purge, whose process ends with 0 has deleted all it had planned. What
a local destination then lists as complete are the newest of all that was ever
committed there, and nothing else. The two commands purge in loops of their own;
both are a `Sweep`, the purge of one destination after the other.
-/
namespace MbKeeper

variable {cwd : Loc} {nodes : String → RemoteNode} {config : Config}
  {dest other : DestinationConfig} {dests : List DestinationConfig} {last : Option ℤ}
  {now : Datetime} {in_progress_id : Option String} {w w' : World} {s s' : Pipe}

/-- What the destination holds as complete are the newest of what was committed there. -/
def Trimmed (cwd : Loc) (dest : DestinationConfig) (w : World) : Prop :=
  completeIds (LocalDestination.records w.fs (localRoot cwd dest)) =
    newest dest.keep (committedIds none (localRoot cwd dest) w)

theorem Trimmed.elsewhere (h : Trimmed cwd dest w) (he : Elsewhere (localRoot cwd dest) w w') :
    Trimmed cwd dest w' := by
  have hkind (q : Loc) (x : Name) : w'.fs.kind (localRoot cwd dest ++ [x] ++ q) =
      w.fs.kind (localRoot cwd dest ++ [x] ++ q) :=
    he.kind _ (by rw [List.append_assoc]; exact List.prefix_append _ _)
  have hcomplete : completeIds (LocalDestination.records w'.fs (localRoot cwd dest)) =
      completeIds (LocalDestination.records w.fs (localRoot cwd dest)) := by
    ext i
    have hname (x : Name) : w'.fs.kind (localRoot cwd dest ++ [x]) =
        w.fs.kind (localRoot cwd dest ++ [x]) := by
      simpa using hkind [] x
    simp only [LocalDestination.mem_completeIds_records, hname,
      FileTree.isFile_congr (hkind [META_FILENAME] _)]
  rw [Trimmed, hcomplete, committedIds, he.committed]
  exact h

/-- A purge without an error leaves the newest. -/
theorem purge_one_trims (hlayout : Layout cwd nodes config) (hd : dest ∈ config.destinations)
    (hl : dest.type = .local) (hkept : KeptEach cwd config last s.world)
    {result : DestinationPurgeResult}
    (hrun : exec (purge_one_destination (site cwd nodes) config dest now false in_progress_id) s =
      (.ok (result, false), s')) : Trimmed cwd dest s'.world := by
  have hlocal := hlayout.isLocal hd hl
  have hown := hkept dest hd hl
  obtain ⟨hremoves, hgone⟩ := hown.purge_removes (hlocal.at cwd) (hlocal.build _) hrun
  have hids : committedIds none (localRoot cwd dest) s'.world =
      committedIds none (localRoot cwd dest) s.world := by
    rw [committedIds, committed_congr hremoves.commits, committedIds]
  refine Finset.Subset.antisymm (fun i hi => ?_) (hown.removes hremoves).listed.1
  -- what is still complete was complete before, and of that only the newest were not deleted
  have hbefore := LocalDestination.completeIds_removes hremoves hi
  obtain ⟨x, rfl, -, hdir, -⟩ := LocalDestination.mem_completeIds_records.mp hi
  by_contra hnot
  rw [hids] at hnot
  rw [hgone result rfl x hbefore hnot] at hdir
  cases hdir

/-- The purge of another destination happens elsewhere. -/
theorem purge_one_elsewhere (hlayout : Layout cwd nodes config) (ho : other ∈ config.destinations)
    (hd : dest ∈ config.destinations) (hl : dest.type = .local) (hne : other ≠ dest)
    (hkept : KeptEach cwd config last s.world)
    {res : Except Exn (DestinationPurgeResult × Bool)}
    (hrun : exec (purge_one_destination (site cwd nodes) config other now false in_progress_id) s =
      (res, s')) : Elsewhere (localRoot cwd dest) s.world s'.world := by
  cases htype : other.type with
  | ssh =>
    have hops := (SSHDestination.from_config nodes other config.transfer).operations_only
      (work_dir (site cwd nodes) config)
    have honly := (purge_one_moves (build_ssh htype config.transfer) now false in_progress_id
      (hops "").2.1 (fun _ i => (hops i).2.2.1)).of_exec hrun
    exact Elsewhere.of_only honly
  | «local» =>
    have hlocal := hlayout.isLocal ho htype
    have hremoves := ((hkept other ho htype).purge_removes (hlocal.at cwd) (hlocal.build _)
      hrun).1
    refine Elsewhere.of_confined hremoves.toConfined (fun q hq => ?_)
    exact condemned_notMem (hlayout.each other ho dest hd htype hl hne)
      (hlayout.each dest hd other ho hl htype hne.symm) hq

/-- The purges of the destinations in their order, none of them with an error. -/
inductive Sweep (site : Site) (config : Config) (now : Datetime) (in_progress_id : Option String) :
    List DestinationConfig → Pipe → Pipe → Prop where
  | nil (s : Pipe) : Sweep site config now in_progress_id [] s s
  | cons {dest : DestinationConfig} {dests : List DestinationConfig} {s u s' : Pipe}
      {result : DestinationPurgeResult}
      (h : exec (purge_one_destination site config dest now false in_progress_id) s =
        (.ok (result, false), u)) (rest : Sweep site config now in_progress_id dests u s') :
      Sweep site config now in_progress_id (dest :: dests) s s'

theorem purge_loop_sweep {site : Site} {results : List DestinationPurgeResult}
    (h : exec (purge_loop site config now false dests) s = (.ok (results, false), s')) :
    Sweep site config now none dests s s' := by
  induction dests generalizing s results with
  | nil =>
    obtain ⟨-, rfl⟩ := exec_pure_eq_ok h
    exact .nil s'
  | cons dest dests ih =>
    obtain ⟨⟨result, first⟩, u, hfirst, h⟩ := exec_bind_eq_ok h
    obtain ⟨⟨rest, others⟩, v, hrest, h⟩ := exec_bind_eq_ok h
    obtain ⟨heq, rfl⟩ := exec_pure_eq_ok h
    obtain ⟨-, hfailed⟩ := Prod.mk.inj heq
    obtain ⟨rfl, rfl⟩ := Bool.or_eq_false_iff.mp hfailed.symm
    exact .cons hfirst (ih hrest)

theorem purge_stored_sweep {site : Site} {backup_id : String} {outcomes : List DestinationOutcome}
    (hnamed : List.Forall₂ (fun o d => destination_named config o.name = .ok d) outcomes dests)
    (h : exec (purge_stored_destinations site config backup_id now outcomes) s =
      (.ok false, s')) : Sweep site config now (some backup_id) dests s s' := by
  induction hnamed generalizing s with
  | nil =>
    obtain ⟨-, rfl⟩ := exec_pure_eq_ok h
    exact .nil s'
  | @cons outcome dest outcomes dests hname hrest ih =>
    obtain ⟨found, u, hu, h⟩ := exec_bind_eq_ok h
    rw [hname] at hu
    obtain ⟨heq, rfl⟩ := Prod.mk.inj hu
    obtain rfl := Except.ok.inj heq
    obtain ⟨⟨result, first⟩, v, hfirst, h⟩ := exec_bind_eq_ok h
    obtain ⟨others, t, hothers, h⟩ := exec_bind_eq_ok h
    obtain ⟨hfailed, rfl⟩ := exec_pure_eq_ok h
    obtain ⟨rfl, rfl⟩ := Bool.or_eq_false_iff.mp hfailed.symm
    exact .cons hfirst (ih hothers)

/-- A sweep of other destinations happens elsewhere. -/
theorem Sweep.elsewhere (hlayout : Layout cwd nodes config) (hd : dest ∈ config.destinations)
    (hl : dest.type = .local) (hsub : dests ⊆ config.destinations) (hnot : dest ∉ dests)
    (h : Sweep (site cwd nodes) config now in_progress_id dests s s')
    (hkept : KeptEach cwd config last s.world) :
    Elsewhere (localRoot cwd dest) s.world s'.world := by
  induction h with
  | nil s => exact refl_of (Elsewhere _) s.world
  | @cons other dests s u s' result hone rest ih =>
    obtain ⟨ho, hsub⟩ := List.cons_subset.mp hsub
    have hne : other ≠ dest := fun he => hnot (he ▸ List.mem_cons_self)
    have hfirst := purge_one_elsewhere hlayout ho hd hl hne hkept hone
    have hretains : OnWorld (Retains cwd config last) s u :=
      (purge_retains hlayout ho now false in_progress_id).of_exec hone
    have hrest := ih hsub (fun hmem => hnot (List.mem_cons_of_mem _ hmem)) (hretains hkept).1
    exact trans_of (Elsewhere _) hfirst hrest

/-- A sweep trims every local destination it comes to. -/
theorem Sweep.trims (hlayout : Layout cwd nodes config) (hsub : dests ⊆ config.destinations)
    (hnodup : dests.Nodup) (h : Sweep (site cwd nodes) config now in_progress_id dests s s')
    (hkept : KeptEach cwd config last s.world) (hd : dest ∈ dests) (hl : dest.type = .local) :
    Trimmed cwd dest s'.world := by
  induction h with
  | nil s => cases hd
  | @cons first dests s u s' result hone rest ih =>
    obtain ⟨hfirst, hothers⟩ := List.cons_subset.mp hsub
    obtain ⟨hnot, hdistinct⟩ := List.nodup_cons.mp hnodup
    have hretains : OnWorld (Retains cwd config last) s u :=
      (purge_retains hlayout hfirst now false in_progress_id).of_exec hone
    have hkept' := (hretains hkept).1
    rcases List.mem_cons.mp hd with rfl | hmem
    · have htrimmed := purge_one_trims hlayout hfirst hl hkept hone
      exact htrimmed.elsewhere (rest.elsewhere hlayout hfirst hl hothers hnot hkept')
    · exact ih hothers hdistinct hkept' hmem

/-- A first half that returns a summary returns that of a backup that failed. -/
theorem back_up_failed {site : Site} {start : Option Datetime} {summary : RunSummary}
    (h : exec (back_up site config start) s = (.ok (.error summary), s')) :
    summary.exit_code = .BACKUP_FAILED := by
  obtain ⟨started, s₁, -, h⟩ := exec_bind_eq_ok h
  obtain ⟨_, s₂, -, h⟩ := exec_bind_eq_ok h
  obtain ⟨id, s₃, -, h⟩ := exec_bind_eq_ok h
  obtain ⟨server_version, s₄, -, h⟩ := exec_bind_eq_ok h
  obtain ⟨started_at, s₅, -, h⟩ := exec_bind_eq_ok h
  obtain ⟨failure, s₆, -, h⟩ := exec_bind_eq_ok h
  cases failure with
  | some message =>
    obtain ⟨failed, s₇, hfinish, h⟩ := exec_bind_eq_ok h
    obtain ⟨heq, -⟩ := exec_pure_eq_ok h
    rw [Except.error.inj heq, (finish_ok hfinish).1]
  | none =>
    obtain ⟨finished_at, s₇, -, h⟩ := exec_bind_eq_ok h
    obtain ⟨_, s₈, -, h⟩ := exec_bind_eq_ok h
    cases (exec_pure_eq_ok h).1

/-- The outcomes of a run that ends with 0 are those of its destinations, each of them stored. -/
theorem stored_all (haccepted : config.Accepted) {site : Site} {target : Path}
    {backup_id : String} {outcomes : List DestinationOutcome}
    (h : exec (store_to_destinations site config target backup_id config.destinations) s =
      (.ok outcomes, s')) (hnone : outcomes.filter (!·.stored) = []) :
    List.Forall₂ (fun o d => destination_named config o.name = .ok d)
      (outcomes.filter (·.stored)) config.destinations := by
  obtain ⟨trials, hattempted, rfl, -⟩ := store_to_destinations_ok h
  have hall : ∀ trial ∈ trials, trial.error = none := by
    intro trial hmem
    have hstored := List.filter_eq_nil_iff.mp hnone _ (List.mem_map_of_mem hmem)
    simpa [Trial.outcome] using hstored
  have hkeeps : (trials.map Trial.outcome).filter (·.stored) = trials.map Trial.outcome := by
    refine List.filter_eq_self.mpr (fun o ho => ?_)
    obtain ⟨trial, hmem, rfl⟩ := List.mem_map.mp ho
    rw [Trial.outcome, hall trial hmem]
    rfl
  have hdests := hattempted.dests_eq_of_stored hall
  rw [hkeeps, ← hdests, List.forall₂_map_left_iff, List.forall₂_map_right_iff]
  refine List.forall₂_same.mpr (fun trial hmem => ?_)
  refine destination_named_of_mem haccepted.names ?_
  rw [← hdests]
  exact List.mem_map_of_mem hmem

section

variable {t : Instant} {x : Name} {summary : RunSummary}

theorem deliver_trims (haccepted : config.Accepted) (hlayout : Layout cwd nodes config)
    (hs : Stores cwd config (target_dir (site cwd nodes) config x.val) last now t x)
    (hstoring : Storing cwd config (target_dir (site cwd nodes) config x.val) last (second t)
      config.destinations s.world)
    (hrun : exec (deliver (site cwd nodes) config x.val now) s = (.ok summary, s'))
    (hcode : summary.exit_code = .SUCCESS) (hd : dest ∈ config.destinations)
    (hl : dest.type = .local) : Trimmed cwd dest s'.world := by
  have hhook (command : String) (point : HookPoint) (payload : Option String) :
      Moves (OnWorld Same) (perform (.hook point payload) (run_hook command false)) :=
    (run_hook_moves command false).perform _
  obtain ⟨_, u₁, hpost, hrun⟩ := exec_bind_eq_ok hrun
  have hsame : Same s.world u₁.world := (hhook _ _ _).of_exec hpost
  have hstoring₁ : Storing cwd config (target_dir (site cwd nodes) config x.val) last (second t)
      config.destinations u₁.world :=
    ⟨hstoring.nodup, hstoring.subset, hstoring.prepared.elsewhere (Elsewhere.of_same hsame),
      fun d hd hl => (hstoring.waiting d hd hl).elsewhere (Elsewhere.of_same hsame),
      hstoring.kept.undisturbed (fun _ _ _ => Elsewhere.of_same hsame)⟩
  obtain ⟨outcomes, u₂, hstores, hrun⟩ := exec_bind_eq_ok hrun
  have hkept₂ := (stores_keep hlayout hs hstoring₁ hstores).1
  split_ifs at hrun
  · rw [(finish_ok hrun).1] at hcode
    cases hcode
  obtain ⟨_, u₃, hremove, hrun⟩ := exec_bind_eq_ok hrun
  obtain ⟨_, u₄, hpre, hrun⟩ := exec_bind_eq_ok hrun
  obtain ⟨had_error, u₅, hpurge, hrun⟩ := exec_bind_eq_ok hrun
  -- the code says that nothing failed
  rw [(finish_ok hrun).1] at hcode
  have hnone : outcomes.filter (!·.stored) = [] := by
    by_contra hfailed
    rw [exitCode, if_pos hfailed] at hcode
    cases hcode
  rw [exitCode, if_neg (not_not.mpr hnone)] at hcode
  have hfine : had_error = false := by
    by_contra hfailed
    rw [if_pos (Bool.eq_true_of_not_eq_false hfailed)] at hcode
    cases hcode
  rw [hfine] at hpurge
  have hsweep := purge_stored_sweep (stored_all haccepted hstores hnone) hpurge
  have hremoved : Undisturbed cwd config u₂.world u₃.world :=
    (undisturbed_of (fun d hd hl => Elsewhere.rmtree (hs.apart d hd hl) true)).of_exec
      (exec_perform_ok hremove).1
  have hpre' : Same u₃.world u₄.world := (hhook _ _ _).of_exec hpre
  have hkept₄ := (hkept₂.undisturbed hremoved).undisturbed
    (fun _ _ _ => Elsewhere.of_same hpre')
  have htrimmed := hsweep.trims hlayout (List.Subset.refl _) haccepted.names.of_map hkept₄ hd hl
  have hfinish : Moves (OnWorld Same) (finish config summary) :=
    Moves.bind (hhook _ _ _) (fun _ => Moves.pure _)
  rw [← (finish_ok hrun).1] at hrun
  exact htrimmed.elsewhere (Elsewhere.of_same (hfinish.of_exec hrun))

theorem run_trims (haccepted : config.Accepted) (hlayout : Layout cwd nodes config)
    {start : Option Datetime} (ht : (start_time start s.world).instant = some t)
    (hyear : FourDigitYear t) (hlater : ∀ l, last = some l → l < second t)
    (hkept : KeptEach cwd config last s.world)
    (hrun : exec (run (site cwd nodes) config start) s = (.ok summary, s'))
    (hcode : summary.exit_code = .SUCCESS) (hd : dest ∈ config.destinations)
    (hl : dest.type = .local) : Trimmed cwd dest s'.world := by
  rw [run_eq] at hrun
  obtain ⟨backup, u, hback, hrun⟩ := exec_bind_eq_ok hrun
  cases backup with
  | error failed =>
    obtain ⟨rfl, -⟩ := exec_pure_eq_ok hrun
    rw [back_up_failed hback] at hcode
    cases hcode
  | ok made =>
    obtain ⟨backup_id, time⟩ := made
    obtain ⟨htime, hid, hsource⟩ := back_up_ok hlayout hback
    rw [← htime] at ht
    obtain ⟨x, rfl, -, -⟩ := target_at hlayout hid hsource.leads.nul
    have hundisturbed : OnWorld (Undisturbed cwd config) s u :=
      (back_up_undisturbed hlayout start).of_exec hback
    have hkept' := hkept.undisturbed hundisturbed
    have hstores : Stores cwd config (target_dir (site cwd nodes) config x.val) last time t x :=
      ⟨fun d hd hl => hlayout.target hid hd hl, ht, hyear, hlater, hid⟩
    have hstoring : Storing cwd config (target_dir (site cwd nodes) config x.val) last (second t)
        config.destinations u.world :=
      ⟨haccepted.names.of_map, List.Subset.refl _, ⟨hsource.leads, hsource.manifest⟩,
        fun d hd hl => hkept' d hd hl, hkept'.later (fun l hl => ⟨_, rfl, (hlater l hl).le⟩)⟩
    exact deliver_trims haccepted hlayout hstores hstoring hrun hcode hd hl

theorem purge_trims (haccepted : config.Accepted) (hlayout : Layout cwd nodes config)
    {names : Option (List String)} {start : Option Datetime} {summary : PurgeSummary}
    (hkept : KeptEach cwd config last s.world)
    (hrun : exec (purge (site cwd nodes) config names false start) s = (.ok summary, s'))
    (hcode : summary.exit_code = .SUCCESS) (hd : dest ∈ config.destinations)
    (hchosen : names.all (dest.name ∈ ·)) (hl : dest.type = .local) :
    Trimmed cwd dest s'.world := by
  obtain ⟨time, u₁, hstart, hrun⟩ := exec_bind_eq_ok hrun
  obtain ⟨_, u₂, hlock, hrun⟩ := exec_bind_eq_ok hrun
  obtain ⟨⟨results, failed⟩, u₃, hloop, hrun⟩ := exec_bind_eq_ok hrun
  obtain ⟨rfl, rfl⟩ := exec_pure_eq_ok hrun
  have hfine : failed = false := by
    cases failed with
    | false => rfl
    | true => cases hcode
  rw [hfine] at hloop
  have hsame : Same s.world u₁.world := (now_or_same start).of_exec hstart
  have hlocked : Undisturbed cwd config u₁.world u₂.world :=
    (lock_undisturbed hlayout).of_exec (exec_perform_ok hlock).1
  have hkept₂ := (hkept.undisturbed (fun _ _ _ => Elsewhere.of_same hsame)).undisturbed hlocked
  have hmem : dest ∈ config.destinations.filter (fun d => names.all (d.name ∈ ·)) :=
    List.mem_filter.mpr ⟨hd, hchosen⟩
  exact (purge_loop_sweep hloop).trims hlayout List.filter_sublist.subset
    (haccepted.names.of_map.filter _) hkept₂ hmem hl

end

/-- The command purges the destination. -/
def Command.Purges (dest : DestinationConfig) : Command → Prop
  | .run => True
  | .purge names dry_run => dry_run = false ∧ (names = [] ∨ dest.name ∈ names)
  | .list _ | .check => False

/-- A run, or a purge of the destination that is not a dry run, whose process ends with 0: what the
destination then lists as complete are the newest `min keep n` of the `n` generations that were
ever committed there. -/
theorem success_leaves_the_newest (haccepted : config.Accepted) (hlayout : Layout cwd nodes config)
    (h : Invocations cwd nodes config w last) {command : Command}
    (htime : command = .run → FourDigitYear (run_clock cwd config w) ∧
      ∀ l, last = some l → l < second (run_clock cwd config w))
    (hcode : (invoke cwd nodes config command w).1 = .ok ExitCode.SUCCESS.toNat)
    (hd : dest ∈ config.destinations) (hl : dest.type = .local) (hpurges : command.Purges dest)
    {stored : List StoredBackup} {u : World}
    (hlist : exec (LocalDestination.from_config cwd dest).list_backups
      (invoke cwd nodes config command w).2 = (.ok stored, u)) :
    completeIds stored = newest dest.keep
        (committedIds none (localRoot cwd dest) (invoke cwd nodes config command w).2) ∧
      (completeIds stored).card = min dest.keep
        (committed none (localRoot cwd dest) (invoke cwd nodes config command w).2).length := by
  have hkept := h.kept haccepted hlayout
  obtain ⟨u', s', hlog, hdispatch, hworld⟩ := invoke_success hcode
  have hlogged : Undisturbed cwd config w u' := (setup_logging_undisturbed hlayout).of_exec hlog
  -- the invocation trims the destination, and goes on with its history
  have hends : Trimmed cwd dest (invoke cwd nodes config command w).2 ∧
      ∃ l, Invocations cwd nodes config (invoke cwd nodes config command w).2 l := by
    cases command with
    | run =>
      obtain ⟨hyear, hlater⟩ := htime rfl
      refine ⟨?_, _, h.run hyear hlater⟩
      obtain ⟨summary, v, hrun, hpure⟩ := exec_bind_eq_ok hdispatch
      obtain ⟨hsuccess, rfl⟩ := exec_pure_eq_ok hpure
      have hclock : (start_time none u').instant = some (run_clock cwd config w) := by
        rw [run_clock, hlog]
        exact Datetime.instant_utc _
      rw [hworld]
      exact run_trims haccepted hlayout hclock hyear hlater (hkept.undisturbed hlogged) hrun
        hsuccess.symm hd hl
    | purge names dry_run =>
      obtain ⟨rfl, hchosen⟩ := hpurges
      refine ⟨?_, _, h.purge names false⟩
      obtain ⟨summary, v, hpurge, hprint⟩ := exec_bind_eq_ok hdispatch
      obtain ⟨_, v', hprinted, hpure⟩ := exec_bind_eq_ok hprint
      obtain ⟨hsuccess, rfl⟩ := exec_pure_eq_ok hpure
      have hall : (if names = [] then none else some names).all (dest.name ∈ ·) = true := by
        split_ifs with hnames
        · rfl
        · simpa using hchosen.resolve_left hnames
      have htrimmed := purge_trims haccepted hlayout (hkept.undisturbed hlogged) hpurge
        hsuccess.symm hd hall hl
      rw [hworld]
      exact htrimmed.elsewhere
        (Elsewhere.of_same ((print_all_same _).lift.of_exec hprinted))
    | list destination => exact hpurges.elim
    | check => exact hpurges.elim
  obtain ⟨htrimmed, l, hnext⟩ := hends
  obtain ⟨-, -, -, rfl⟩ :=
    LocalDestination.list_backups_ok ((hlayout.isLocal hd hl).at cwd) hlist
  refine ⟨htrimmed, ?_⟩
  have hascending := (hnext.kept haccepted hlayout dest hd hl).ascending
  rw [htrimmed, card_newest, committedIds, List.toFinset_card_of_nodup, List.length_map]
  exact (List.pairwise_map.mpr hascending).imp (fun hxy => ne_of_lt hxy)

/-- After two runs, of which each stored a generation, one is listed. -/
theorem success_leaves_the_newest_twice : ∃ stored u, exec smallLocal.list_backups
    (invoke [] smallNodes (smallConfig "/w" "p" "/b" 1) .run secondWorld).2 = (.ok stored, u) ∧
      (completeIds stored).card = 1 ∧ completeIds stored ⊆ {"p-20231114T221321Z"} := by
  have hcode : (invoke [] smallNodes (smallConfig "/w" "p" "/b" 1) .run secondWorld).1 = .ok 0 := by
    decide +kernel
  have hlisted : (exec smallLocal.list_backups
      (invoke [] smallNodes (smallConfig "/w" "p" "/b" 1) .run secondWorld).2).1.toBool = true := by
    decide +kernel
  rcases hlist : exec smallLocal.list_backups
    (invoke [] smallNodes (smallConfig "/w" "p" "/b" 1) .run secondWorld).2 with ⟨e | stored, u⟩
  · rw [hlist] at hlisted
    cases hlisted
  · refine ⟨stored, u, rfl, ?_⟩
    have hnewest := success_leaves_the_newest smallConfig_accepted smallLayout secondWorld_reached
      (fun _ => ⟨secondWorld_year, secondWorld_later⟩) hcode List.mem_cons_self rfl trivial hlist
    rw [committedIds, secondWorld_committed] at hnewest
    refine ⟨hnewest.2, ?_⟩
    rw [hnewest.1]
    decide

end MbKeeper
