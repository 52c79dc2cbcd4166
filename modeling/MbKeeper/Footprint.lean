import MbKeeper.Invocations

/-!
# The footprint of the invocations

`Within S` says that nothing outside `S` changed, and that what was committed was
committed in `S`. `footprint` tells for each command where that may be: the lock,
the working directory, the local destinations and the remote hosts. Listings and
dry runs change nothing of a destination on this node. Whatever the directories
hold, however the calls end and whatever a remote shell makes of a command, a
history of invocations stays within the log file and the footprints of its
commands.
-/
namespace MbKeeper

variable {α : Type} {S S' : Set Spot} {w w' : World}

/-- Outside `S` nothing changed, and nothing was committed there. -/
structure Within (S : Set Spot) (w w' : World) : Prop where
  kind : ∀ h q, (h, q) ∉ S → (w'.tree h).kind q = (w.tree h).kind q
  commits : ∃ new, w'.commits = w.commits ++ new ∧ ∀ c ∈ new, (c.host, c.loc) ∈ S

namespace Within

instance : Std.Refl (Within S) := ⟨fun _ => ⟨fun _ _ _ => rfl, [], by simp, by simp⟩⟩

instance : IsTrans World (Within S) := ⟨fun _ _ _ h h' => by
  obtain ⟨new, hnew, hin⟩ := h.commits
  obtain ⟨new', hnew', hin'⟩ := h'.commits
  refine ⟨fun k q hq => (h'.kind k q hq).trans (h.kind k q hq), new ++ new', ?_, ?_⟩
  · rw [hnew', hnew, List.append_assoc]
  · intro c hc
    exact (List.mem_append.mp hc).elim (hin c) (hin' c)⟩

theorem mono (h : Within S w w') (hS : S ⊆ S') : Within S' w w' := by
  obtain ⟨new, hnew, hin⟩ := h.commits
  exact ⟨fun k q hq => h.kind k q (fun hk => hq (hS hk)), new, hnew, fun c hc => hS (hin c hc)⟩

theorem of_confined (h : Confined S w w') : Within S w w' :=
  ⟨h.kind, [], by simp [h.commits], by simp⟩

theorem of_same (h : Same w w') : Within S w w' := of_confined (h.confined S)

theorem commits_subset (h : Within S w w') : w.commits ⊆ w'.commits := by
  obtain ⟨new, hnew, -⟩ := h.commits
  rw [hnew]
  exact List.subset_append_left _ _

/-- What only one host saw. -/
theorem of_only {host : Option String} (h : OnlyOn host w w') : Within {x | x.1 = host} w w' := by
  obtain ⟨new, hnew, hon⟩ := h.commits
  refine ⟨fun k q hq => ?_, new, hnew, hon⟩
  rw [h.tree k hq]

end Within

theorem within_mono {m : Io α} (h : Moves (Within S) m) (hS : S ⊆ S') : Moves (Within S') m :=
  h.mono (fun _ _ hw => hw.mono hS)

theorem within_confined {m : Io α} (h : Moves (Confined S) m) (hS : S ⊆ S') :
    Moves (Within S') m := within_mono (h.mono (fun _ _ hc => Within.of_confined hc)) hS

theorem within_same {m : Io α} (h : Moves Same m) : Moves (Within S) m :=
  h.mono (fun _ _ hs => Within.of_same hs)

/-- A text without a slash adds one step at most to a path. -/
theorem Path.join_steps (p : Path) {s : String} (h : '/' ∉ s.toList) :
    (p.join s).home = p.home ∧ ((p.join s).steps = p.steps ∨
      (s = ".." ∧ (p.join s).steps = p.steps ++ [.up]) ∨
        ∃ x : Name, (p.join s).steps = p.steps ++ [.down x]) := by
  have hparse : PurePath.parse s = ⟨"", [s].filter (fun p => p ≠ "" ∧ p ≠ ".")⟩ := by
    rw [PurePath.parse, rootOf_eq_empty h, PurePath.partsOf, splitOn_of_notMem h]
    simp
  have hjoin : (p.join s).home = p.home ∧
      (p.join s).steps = p.steps ++ stepsOf ([s].filter (fun p => p ≠ "" ∧ p ≠ ".")) := by
    rw [Path.join, hparse]
    exact ⟨rfl, rfl⟩
  refine ⟨hjoin.1, ?_⟩
  rw [hjoin.2]
  by_cases hdots : s = ".."
  · subst hdots
    exact .inr (.inl ⟨rfl, rfl⟩)
  · by_cases hkept : s ≠ "" ∧ s ≠ "."
    · rw [List.filter_cons_of_pos (by simpa using hkept), List.filter_nil]
      cases hname : Name.ofString? s with
      | none =>
        left
        simp [stepsOf, hdots, hname]
      | some x =>
        right
        right
        exact ⟨x, by simp [stepsOf, hdots, hname]⟩
    · left
      rw [List.filter_cons_of_neg (by simpa using hkept)]
      simp [stepsOf]

section

variable {p : Path} {s : String}

theorem Path.loc_of_steps (h : p.steps = []) : p.loc = p.home := by
  rw [Path.loc, h]
  rfl

/-- A name in the directory of a path without steps. -/
theorem Path.loc_join (hp : p.steps = []) (h : '/' ∉ s.toList) (hdots : s ≠ "..") :
    p.loc <+: (p.join s).loc := by
  obtain ⟨hhome, hsteps⟩ := p.join_steps h
  rw [p.loc_of_steps hp, Path.loc, hhome]
  rcases hsteps with hsteps | ⟨he, -⟩ | ⟨x, hsteps⟩
  · rw [hsteps, hp]
    exact List.prefix_refl _
  · exact absurd he hdots
  · rw [hsteps, hp]
    exact List.prefix_append _ _

theorem Path.loc_join_up (hp : p.steps = []) (h : '/' ∉ s.toList) :
    p.loc.dropLast <+: (p.join s).loc := by
  by_cases hdots : s = ".."
  · subst hdots
    obtain ⟨hhome, hsteps⟩ := p.join_steps h
    have hup : (p.join "..").steps = [.up] := by
      rw [Path.join, hp]
      rfl
    rw [p.loc_of_steps hp, Path.loc, hhome, hup]
    exact List.prefix_refl _
  · exact (List.dropLast_prefix _).trans (Path.loc_join hp h hdots)

/-- The directories on the way to a name. -/
theorem Path.chain_join (hp : p.steps = []) (h : '/' ∉ s.toList) (hdots : s ≠ "..") :
    chainSpots (p.join s) ⊆ toward none p.loc ∪ below none p.loc := by
  rintro ⟨k, q⟩ ⟨rfl, hq⟩
  obtain ⟨hhome, hsteps⟩ := p.join_steps h
  rw [Path.chain, hhome] at hq
  rw [p.loc_of_steps hp]
  rcases List.mem_append.mp hq with hq | hq
  · exact .inl ⟨rfl, (List.mem_inits _ _).mp hq⟩
  · rcases hsteps with hsteps | ⟨he, -⟩ | ⟨x, hsteps⟩
    · rw [hsteps, hp] at hq
      cases hq
    · exact absurd he hdots
    · rw [hsteps, hp] at hq
      obtain rfl := List.mem_singleton.mp hq
      exact .inr ⟨rfl, List.prefix_append _ _⟩

theorem chainSpots_configured (cwd : Loc) (p : PurePath) :
    chainSpots (Path.configured cwd p) = toward none (Path.configured cwd p).loc := by
  ext ⟨k, q⟩
  simp [chainSpots, Path.chain, Path.configured, Path.loc, FileTree.resolve]

end

section

variable {cwd : Loc} {nodes : String → RemoteNode} {config : Config} {dest : DestinationConfig}

/-- What a store, a check or a purge of a local destination may touch: the directories on the way
to it and what lies in the directory around it, since the id of a directory called `...partial`
is two dots. -/
def localSpots (cwd : Loc) (dest : DestinationConfig) : Set Spot :=
  {x | dest.type = .local ∧
    x ∈ toward none (localRoot cwd dest) ∪ below none (localRoot cwd dest).dropLast}

/-- Of a remote destination it is the whole host, whose shell may make anything of a command. -/
def remoteSpots (dest : DestinationConfig) : Set Spot :=
  {x | dest.type = .ssh ∧ x.1 = some dest.host.pyStr}

theorem localSpots_eq (hl : dest.type = .local) : localSpots cwd dest =
    toward none (localRoot cwd dest) ∪ below none (localRoot cwd dest).dropLast := by
  ext x
  simp [localSpots, hl]

theorem remoteSpots_eq (hs : dest.type = .ssh) :
    remoteSpots dest = {x | x.1 = some dest.host.pyStr} := by
  simp [remoteSpots, hs]

theorem rename_within (src dst : Path) :
    Moves (Within (below none src.loc ∪ below none dst.loc)) (rename src dst) := by
  intro w
  rcases rename_cases (Prod.eta (exec (rename src dst) w)).symm with
    ⟨htree, hcommits, -⟩ | ⟨a, b, s, ha, hb, -, htree, hcommits⟩
  · exact Within.of_same ⟨htree, hcommits⟩
  · obtain rfl := Path.find_eq_loc ha
    obtain rfl := Path.find_eq_loc hb
    refine ⟨fun h q hq => ?_, [⟨none, dst.loc, fun l => w.fs.kind (src.loc ++ l)⟩], ?_, ?_⟩
    · rw [htree]
      cases h with
      | none =>
        change ((w.rename src.loc dst.loc s).fs).kind q = w.fs.kind q
        rw [World.rename, World.fs_commit, World.fs_setTree_none]
        exact FileTree.kind_move_of_outside _ _ (fun hpre => hq (.inr ⟨rfl, hpre⟩))
          (fun hpre => hq (.inl ⟨rfl, hpre⟩))
      | some k => rw [World.rename, World.tree_commit, World.tree_setTree_ne _ _ (by simp)]
    · rw [hcommits]
      rfl
    · intro c hc
      obtain rfl := List.mem_singleton.mp hc
      exact .inr ⟨rfl, List.prefix_refl _⟩

theorem ne_dots_of_getLast {s : String} {c : Char} (h : s.toList.getLast? = some c) (hc : c ≠ '.') :
    s ≠ ".." := by
  rintro rfl
  exact hc (Option.some.inj (h.symm.trans (by decide)))

theorem local_store_within {d : LocalDestination} (hd : d.path.steps = []) (src : Path)
    {backup_id : String} (hslash : '/' ∉ backup_id.toList) (hdots : backup_id ≠ "..") :
    Moves (Within (toward none d.path.loc ∪ below none d.path.loc)) (d.store src backup_id) := by
  have hsuffix : '/' ∉ (backup_id ++ PARTIAL_SUFFIX).toList := by
    rw [String.toList_append, List.mem_append, not_or]
    exact ⟨hslash, by decide⟩
  have hsuffixed : backup_id ++ PARTIAL_SUFFIX ≠ ".." := by
    apply ne_dots_of_getLast (c := 'l') _ (by decide)
    rw [String.toList_append, List.getLast?_append,
      show PARTIAL_SUFFIX.toList.getLast? = some 'l' by decide]
    rfl
  have hfinal := Path.loc_join hd hslash hdots
  have hpart := Path.loc_join hd hsuffix hsuffixed
  have hin {l : Loc} (hl : d.path.loc <+: l) :
      below none l ⊆ toward none d.path.loc ∪ below none d.path.loc :=
    (below_subset hl).trans Set.subset_union_right
  have hroot : chainSpots d.path ⊆ toward none d.path.loc ∪ below none d.path.loc := by
    rintro ⟨k, q⟩ ⟨rfl, hq⟩
    rw [Path.chain, hd] at hq
    rw [d.path.loc_of_steps hd]
    left
    exact ⟨rfl, (List.mem_inits _ _).mp (by simpa using hq)⟩
  refine Moves.bind (within_same (LocalDestination.ask_same _)) (fun complete => ?_)
  refine Moves.ite (Moves.pure _) (guarded_moves _ ?_)
  refine Moves.bind (within_confined (mkdir_moves _) hroot) (fun _ => ?_)
  refine Moves.bind (Moves.bind (within_same (LocalDestination.ask_same _)) (fun stale =>
    Moves.ite (within_confined (rmtree_moves _ _) (hin hpart)) (Moves.pure _))) (fun _ => ?_)
  refine Moves.bind (within_confined (copytree_moves _ _ _) (Set.union_subset (hin hpart)
    (Path.chain_join hd hsuffix hsuffixed))) (fun _ => ?_)
  refine Moves.bind (Moves.bind (within_same (LocalDestination.ask_same _)) (fun has_meta =>
    Moves.ite (within_confined (copy2_moves _ _) ?_) (Moves.pure _))) (fun _ => ?_)
  · exact hin (hpart.trans (MariabackupRunner.prefix_child_loc _ _))
  · exact within_mono (rename_within _ _) (Set.union_subset (hin hpart) (hin hfinal))

theorem local_delete_within {d : LocalDestination} (hd : d.path.steps = []) {backup_id : String}
    (hslash : '/' ∉ backup_id.toList) :
    Moves (Within (below none d.path.loc.dropLast)) (d.delete backup_id) := by
  have hsuffix : '/' ∉ (backup_id ++ PARTIAL_SUFFIX).toList := by
    rw [String.toList_append, List.mem_append, not_or]
    exact ⟨hslash, by decide⟩
  have hremoves := (d.delete_removes backup_id).mono (fun _ _ h => h.toConfined)
  exact within_confined hremoves (Set.union_subset (below_subset (Path.loc_join_up hd hslash))
    (below_subset (Path.loc_join_up hd hsuffix)))

theorem local_list_within {d : LocalDestination} (hat : d.path.nul = false → d.path.At d.path.loc) :
    Moves (Within S) d.list_backups := by
  cases hnul : d.path.nul with
  | true => exact within_same (fun w => (list_backups_nul hnul w).1)
  | false => exact within_same (LocalDestination.list_backups_reads (hat hnul)).moves

/-- Every id of a plan was listed. -/
theorem select_purge_listed {stored : List StoredBackup} {keep grace_hours : ℕ} {now : Datetime}
    {in_progress_id : Option String} {plan : PurgePlan}
    (h : select_purge stored keep grace_hours now in_progress_id = .ok plan) {i : String}
    (hi : i ∈ plan.delete) : i ∈ stored.map (·.backup_id) := by
  have hfold (grace : ℤ) (bs : List StoredBackup) (hbs : bs ⊆ stored) (start : PurgePlan)
      (hstart : ∀ j ∈ start.delete, j ∈ stored.map (·.backup_id)) {result : PurgePlan}
      (hresult : bs.foldlM (sortOut grace now in_progress_id) start = .ok result) :
      ∀ j ∈ result.delete, j ∈ stored.map (·.backup_id) := by
    induction bs generalizing start with
    | nil =>
      obtain rfl := Except.ok.inj hresult
      exact hstart
    | cons b bs ih =>
      rw [List.foldlM_cons] at hresult
      obtain ⟨next, hnext, hrest⟩ := except_bind_ok hresult
      obtain ⟨hb, hsub⟩ := List.cons_subset.mp hbs
      refine ih hsub next (fun j hj => ?_) hrest
      unfold sortOut at hnext
      split_ifs at hnext with hown
      · obtain rfl := Except.ok.inj hnext
        exact hstart j hj
      · obtain ⟨age, -, hage⟩ := except_bind_ok hnext
        split_ifs at hage
        · obtain rfl := Except.ok.inj hage
          exact hstart j hj
        · obtain rfl := Except.ok.inj hage
          rcases List.mem_append.mp hj with hj | hj
          · exact hstart j hj
          · rw [List.mem_singleton.mp hj]
            exact List.mem_map_of_mem hb
  obtain ⟨grace, -, hresult⟩ := except_bind_ok h
  refine hfold _ _ List.filter_sublist.subset _ (fun j hj => ?_) hresult i hi
  obtain ⟨b, hb, rfl⟩ := List.mem_map.mp hj
  have hsorted : b ∈ newestFirst (stored.filter (·.complete)) := List.mem_of_mem_drop hb
  have hstored := (List.perm_insertionSort _ _).subset hsorted
  exact List.mem_map_of_mem (List.mem_of_mem_filter hstored)

/-- A listing of a local destination names nothing with a slash. -/
theorem local_listed_slash {d : LocalDestination}
    (hat : d.path.nul = false → d.path.At d.path.loc) {stored : List StoredBackup}
    (h : exec d.list_backups w = (.ok stored, w')) {i : String}
    (hi : i ∈ stored.map (·.backup_id)) : '/' ∉ i.toList := by
  cases hnul : d.path.nul with
  | true => exact absurd (congrArg Prod.fst h) ((list_backups_nul hnul w).2 stored)
  | false =>
    obtain ⟨-, -, -, rfl⟩ := LocalDestination.list_backups_ok (hat hnul) h
    obtain ⟨b, hb, rfl⟩ := List.mem_map.mp hi
    obtain ⟨y, -, rfl⟩ := LocalDestination.mem_records.mp hb
    rw [LocalDestination.recordOf_id]
    exact LocalDestination.listedId_slash y

/-- Where a purge may change anything; a dry run on this node nowhere. -/
def purgingSpots (cwd : Loc) (dry_run : Bool) (dest : DestinationConfig) : Set Spot :=
  if dry_run then remoteSpots dest else localSpots cwd dest ∪ remoteSpots dest

theorem remote_operations_within (cwd : Loc) (nodes : String → RemoteNode) (config : Config)
    (hs : dest.type = .ssh) (src : Path) (backup_id : String) :
    Moves (Within (remoteSpots dest))
        (((site cwd nodes).build_destination dest config.transfer).store src backup_id) ∧
      Moves (Within (remoteSpots dest))
        ((site cwd nodes).build_destination dest config.transfer).list_backups ∧
      Moves (Within (remoteSpots dest))
        (((site cwd nodes).build_destination dest config.transfer).delete backup_id) ∧
      Moves (Within (remoteSpots dest))
        ((site cwd nodes).build_destination dest config.transfer).check := by
  rw [build_ssh hs, remoteSpots_eq hs]
  obtain ⟨hstore, hlist, hdelete, hcheck⟩ :=
    (SSHDestination.from_config nodes dest config.transfer).operations_only src backup_id
  exact ⟨hstore.mono (fun _ _ h => Within.of_only h), hlist.mono (fun _ _ h => Within.of_only h),
    hdelete.mono (fun _ _ h => Within.of_only h), hcheck.mono (fun _ _ h => Within.of_only h)⟩

theorem build_local (hl : dest.type = .local) :
    (site cwd nodes).build_destination dest config.transfer =
      (LocalDestination.from_config cwd dest).toDestination := by
  simp [site, build_destination, hl]

theorem destination_at (hnul : (LocalDestination.from_config cwd dest).path.nul = false) :
    (LocalDestination.from_config cwd dest).path.At
      (LocalDestination.from_config cwd dest).path.loc := DestinationConfig.at_of_nul hnul

theorem list_within :
    Moves (Within (remoteSpots dest))
      ((site cwd nodes).build_destination dest config.transfer).list_backups := by
  cases htype : dest.type with
  | ssh =>
    exact (remote_operations_within cwd nodes config htype (work_dir (site cwd nodes) config)
      "").2.1
  | «local» =>
    rw [build_local htype]
    exact local_list_within destination_at

theorem purge_one_within (now : Datetime) (dry_run : Bool) (in_progress_id : Option String) :
    Moves (OnWorld (Within (purgingSpots cwd dry_run dest)))
      (purge_one_destination (site cwd nodes) config dest now dry_run in_progress_id) := by
  have hremote : remoteSpots dest ⊆ purgingSpots cwd dry_run dest := by
    unfold purgingSpots
    split_ifs
    · exact subset_rfl
    · exact Set.subset_union_right
  have hlist : Moves (Within (purgingSpots cwd dry_run dest))
      ((site cwd nodes).build_destination dest config.transfer).list_backups :=
    within_mono list_within hremote
  cases htype : dest.type with
  | ssh =>
    have hdelete (i : String) : Moves (Within (purgingSpots cwd dry_run dest))
        (((site cwd nodes).build_destination dest config.transfer).delete i) :=
      within_mono (remote_operations_within cwd nodes config htype
        (work_dir (site cwd nodes) config) i).2.2.1 hremote
    exact purge_one_moves rfl now dry_run in_progress_id hlist (fun _ i => hdelete i)
  | «local» =>
    cases dry_run with
    | true => exact purge_one_moves rfl now true in_progress_id hlist (fun h => nomatch h)
    | false =>
      intro s
      rcases purge_one_cases (Prod.eta (exec (purge_one_destination (site cwd nodes) config dest
        now false in_progress_id) s)).symm with
        ⟨r, hr, -⟩ | ⟨stored, plan, u, r, hr, hplan, hdel, -⟩
      · exact hlist.of_exec hr
      · have hfirst := hlist.of_exec hr
        rw [build_local htype] at hr hdel
        have hdelete (i : String) (hi : i ∈ plan.delete) :
            Moves (Within (purgingSpots cwd false dest))
              ((LocalDestination.from_config cwd dest).delete i) := by
          have hslash := local_listed_slash destination_at hr (select_purge_listed hplan hi)
          refine within_mono (local_delete_within rfl hslash) ?_
          rw [purgingSpots, if_neg (by simp), localSpots_eq htype]
          exact Set.subset_union_right.trans Set.subset_union_left
        have hrest : OnWorld (Within (purgingSpots cwd false dest)) u _ :=
          (delete_planned_moves hdelete false).of_exec hdel
        exact trans_of (Within _) hfirst hrest

theorem store_within (src : Path) {backup_id : String} (hslash : '/' ∉ backup_id.toList)
    (hdots : backup_id ≠ "..") : Moves (Within (localSpots cwd dest ∪ remoteSpots dest))
      (((site cwd nodes).build_destination dest config.transfer).store src backup_id) := by
  cases htype : dest.type with
  | ssh =>
    exact within_mono (remote_operations_within cwd nodes config htype src backup_id).1
      Set.subset_union_right
  | «local» =>
    rw [build_local htype, localSpots_eq htype]
    refine within_mono (local_store_within rfl src hslash hdots) ?_
    refine Set.subset_union_of_subset_left (Set.union_subset_union subset_rfl ?_) _
    exact below_subset (List.dropLast_prefix _)

/-- Where a check makes directories and its probe. -/
def checkSpots (cwd : Loc) (dest : DestinationConfig) : Set Spot :=
  {x | dest.type = .local ∧ x ∈ probing (localRoot cwd dest)} ∪ remoteSpots dest

theorem unlink_file_nul {p : Path} (h : p.nul = true) : Moves Same (unlink_file p) := by
  intro w
  rw [unlink_file, exec_primitive, Path.find_nul h]
  exact same_next w

theorem check_within : Moves (Within (checkSpots cwd dest))
    ((site cwd nodes).build_destination dest config.transfer).check := by
  cases htype : dest.type with
  | ssh =>
    have hoperations := remote_operations_within cwd nodes config htype
      (work_dir (site cwd nodes) config) ""
    exact within_mono hoperations.2.2.2 Set.subset_union_right
  | «local» =>
    rw [build_local htype]
    have hspots : probing (localRoot cwd dest) ⊆ checkSpots cwd dest := fun x hx =>
      .inl ⟨htype, hx⟩
    cases hnul : (LocalDestination.from_config cwd dest).path.nul with
    | true =>
      have hprobe : ((LocalDestination.from_config cwd dest).path.child
          CHECK_PROBE_FILENAME).nul = true := hnul
      refine guarded_moves _ (within_same ?_)
      exact Moves.bind (Elsewhere.mkdir_nul hnul) (fun _ => Moves.bind
        (Elsewhere.write_text_nul hprobe _ _) (fun _ => unlink_file_nul hprobe))
    | false =>
      refine within_confined (fun w => ?_) hspots
      exact (LocalDestination.check_probing (destination_at hnul) _).1

end

/-- The directories on the way to the working directory, and what lies in it. -/
def workSpots (cwd : Loc) (config : Config) : Set Spot :=
  toward none (Path.configured cwd config.backup.work_dir).loc ∪
    below none (Path.configured cwd config.backup.work_dir).loc

def logSpots (cwd : Loc) (config : Config) : Set Spot :=
  {x | ∃ text, config.logging.file = .str text ∧ text ≠ "" ∧
    x ∈ below none (Path.configured cwd (PurePath.parse text)).loc}

/-- Where a command may change anything, apart from the log. -/
def footprint (cwd : Loc) (config : Config) : Command → Set Spot
  | .run => lockSpots cwd config.lock.file ∪ workSpots cwd config ∪
      {x | ∃ dest ∈ config.destinations, x ∈ localSpots cwd dest ∪ remoteSpots dest}
  | .purge names dry_run => lockSpots cwd config.lock.file ∪
      {x | ∃ dest ∈ config.destinations, (names = [] ∨ dest.name ∈ names) ∧
        x ∈ purgingSpots cwd dry_run dest}
  | .list destination => {x | ∃ dest ∈ config.destinations,
      (∀ name, destination = some name → name = "" ∨ dest.name = name) ∧ x ∈ remoteSpots dest}
  | .check => {x | ∃ dest ∈ config.destinations, x ∈ checkSpots cwd dest}

section

variable {cwd : Loc} {nodes : String → RemoteNode} {config : Config} {dest : DestinationConfig}
  {backup_id : String}

theorem hook_within (command : String) (fail_fast : Bool) :
    Moves (Within S) (run_hook command fail_fast) := within_same (run_hook_moves command fail_fast)

theorem target_below (nodes : String → RemoteNode) (hslash : '/' ∉ backup_id.toList)
    (hdots : backup_id ≠ "..") :
    below none (target_dir (site cwd nodes) config backup_id).loc ⊆ workSpots cwd config :=
  Set.subset_union_of_subset_right (below_subset (Path.loc_join rfl hslash hdots)) _

theorem cleanup_within (nodes : String → RemoteNode) (config : Config) (backup_id : String) :
    Moves (Within (workSpots cwd config))
      (cleanup_stale_work_dir (work_dir (site cwd nodes) config) backup_id) := by
  have hentries (names : List Name) : Moves (Within (workSpots cwd config))
      (cleanup_entries (work_dir (site cwd nodes) config) backup_id names) := by
    induction names with
    | nil => exact Moves.pure _
    | cons x names ih =>
      have hentry : below none ((work_dir (site cwd nodes) config).child x).loc ⊆
          workSpots cwd config :=
        Set.subset_union_of_subset_right (below_subset (MariabackupRunner.prefix_child_loc _ _)) _
      exact Moves.bind (Moves.bind (within_same (LocalDestination.ask_same _)) (fun _ =>
        Moves.ite (within_confined (rmtree_moves _ _) hentry) (Moves.pure _))) (fun _ => ih)
  exact Moves.bind (within_same (LocalDestination.ask_same _)) (fun _ => Moves.ite
    (Moves.bind (within_same (LocalDestination.ask_same _)) (fun names => hentries names))
    (Moves.pure _))

theorem make_target_within (nodes : String → RemoteNode) (hslash : '/' ∉ backup_id.toList)
    (hdots : backup_id ≠ "..") : Moves (Within (workSpots cwd config))
      (mkdir (target_dir (site cwd nodes) config backup_id)) :=
  within_confined (mkdir_moves _) (Path.chain_join rfl hslash hdots)

theorem prepare_run_within (hslash : '/' ∉ backup_id.toList) (hdots : backup_id ≠ "..") :
    Moves (OnWorld (Within (workSpots cwd config)))
      (prepare_run (site cwd nodes) config backup_id) := by
  have hreplication : Moves Same (check_replication_if_configured config) :=
    Moves.ite (Moves.pure _) (check_replication_moves _ _)
  exact Moves.bind ((within_same hreplication).perform _) (fun _ =>
    Moves.bind ((hook_within _ _).perform _) (fun _ => Moves.bind
      ((cleanup_within nodes config backup_id).perform _) (fun _ => Moves.bind
        ((make_target_within nodes hslash hdots).perform _) (fun _ => Moves.pure _))))

theorem phases_within (target : Path) (hS : below none target.loc ⊆ S) :
    Moves (OnWorld (Within S)) (phases config target) := by
  have hexecute (argv : List Toml) (p : Phase) : Moves (OnWorld (Within S))
      ((⟨config.backup, config.replication⟩ : MariabackupRunner).execute argv target p) :=
    (MariabackupRunner.execute_moves _ argv target p).mono
      (fun _ _ h => (Within.of_confined h).mono hS)
  refine Moves.tryCatch (Moves.bind ((hexecute _ _).noted _) (fun _ => Moves.bind
    (Moves.ite ((hexecute _ _).noted _) (Moves.pure _)) (fun _ => Moves.pure _))) (fun e => ?_)
  split
  · exact Moves.pure _
  · exact Moves.throw _

theorem record_meta_within (target : Path) (hS : below none target.loc ⊆ S)
    (server_version : String) (started_at finished_at : Datetime) : Moves (Within S)
      (record_meta config target backup_id server_version started_at finished_at) := by
  refine Moves.bind (within_same (LocalDestination.ask_same _)) (fun _ => ?_)
  refine Moves.bind (within_same (MariabackupRunner.get_version_moves _)) (fun _ => ?_)
  refine Moves.bind (within_same (LocalDestination.ask_same _)) (fun _ => ?_)
  exact within_confined (write_text_moves _ _ _)
    ((below_subset (MariabackupRunner.prefix_child_loc _ _)).trans hS)

theorem finish_within (summary : RunSummary) :
    Moves (OnWorld (Within S)) (finish config summary) :=
  Moves.bind ((hook_within _ _).perform _) (fun _ => Moves.pure _)

theorem stores_within (target : Path) (hslash : '/' ∉ backup_id.toList) (hdots : backup_id ≠ "..")
    {dests : List DestinationConfig}
    (hS : ∀ dest ∈ dests, localSpots cwd dest ∪ remoteSpots dest ⊆ S) :
    Moves (OnWorld (Within S))
      (store_to_destinations (site cwd nodes) config target backup_id dests) := by
  induction dests with
  | nil => exact Moves.pure _
  | cons dest dests ih =>
    have hrest := ih (fun d hd => hS d (List.mem_cons_of_mem _ hd))
    have hstore : Moves (Within S)
        (((site cwd nodes).build_destination dest config.transfer).store target backup_id) :=
      within_mono (store_within target hslash hdots) (hS dest List.mem_cons_self)
    refine Moves.bind (attempt_moves (hstore.perform _)) (fun stored => ?_)
    cases stored with
    | ok a => exact Moves.bind hrest (fun _ => Moves.pure _)
    | error message => exact Moves.ite (Moves.pure _) (Moves.bind hrest (fun _ => Moves.pure _))

theorem purge_stored_within (now : Datetime) (outcomes : List DestinationOutcome)
    (hS : ∀ dest ∈ config.destinations, localSpots cwd dest ∪ remoteSpots dest ⊆ S) :
    Moves (OnWorld (Within S))
      (purge_stored_destinations (site cwd nodes) config backup_id now outcomes) := by
  induction outcomes with
  | nil => exact Moves.pure _
  | cons outcome outcomes ih =>
    intro s
    cases hnamed : destination_named config outcome.name with
    | error e =>
      have hraise : exec (lift (liftExcept (destination_named config outcome.name))) s =
          (.error e, s) := by rw [hnamed]; rfl
      rw [purge_stored_destinations, exec_bind_error hraise]
      exact refl_of (OnWorld _) s
    | ok dest =>
      have hfound : exec (lift (liftExcept (destination_named config outcome.name))) s =
          (.ok dest, s) := by rw [hnamed]; rfl
      rw [purge_stored_destinations, exec_bind_ok hfound]
      have hpurge : Moves (OnWorld (Within S)) (purge_one_destination (site cwd nodes) config dest
          now false (some backup_id)) :=
        (purge_one_within now false (some backup_id)).mono
          (fun _ _ h => h.mono (hS dest (mem_of_destination_named hnamed)))
      exact Moves.bind hpurge (fun _ => Moves.bind ih (fun _ => Moves.pure _)) s

/-- The id of a run is a name in its working directory. -/
theorem generated_id_name {now : Datetime} (hpre : '/' ∉ config.backup.name_prefix.toList)
    (h : generate_backup_id config.backup.name_prefix now = .ok backup_id) :
    '/' ∉ backup_id.toList ∧ backup_id ≠ ".." :=
  ⟨fun hmem => hpre ((generate_backup_id_slash h).mp hmem),
    ne_dots_of_getLast (generate_backup_id_getLast? h) (by decide)⟩

theorem run_footprint_parts (cwd : Loc) (config : Config) :
    lockSpots cwd config.lock.file ⊆ footprint cwd config .run ∧
      workSpots cwd config ⊆ footprint cwd config .run ∧
      ∀ dest ∈ config.destinations,
        localSpots cwd dest ∪ remoteSpots dest ⊆ footprint cwd config .run :=
  ⟨fun _ hx => .inl (.inl hx), fun _ hx => .inl (.inr hx), fun dest hd _ hx => .inr ⟨dest, hd, hx⟩⟩

theorem settle_within (target : Path) (now : Datetime) (outcomes : List DestinationOutcome)
    (htarget : below none target.loc ⊆ S)
    (hdests : ∀ dest ∈ config.destinations, localSpots cwd dest ∪ remoteSpots dest ⊆ S) :
    Moves (OnWorld (Within S)) (settle (site cwd nodes) config target backup_id now outcomes) := by
  refine Moves.bind ((within_confined (rmtree_moves _ _) htarget).perform _) (fun _ => ?_)
  refine Moves.bind ((hook_within _ _).perform _) (fun _ => ?_)
  exact Moves.bind (purge_stored_within now _ hdests) (fun _ => finish_within _)

theorem place_within (hslash : '/' ∉ backup_id.toList) (hdots : backup_id ≠ "..")
    (server_version : String) (now started_at : Datetime) :
    Moves (OnWorld (Within (footprint cwd config .run)))
      (place (site cwd nodes) config (target_dir (site cwd nodes) config backup_id) backup_id
        server_version now started_at) := by
  obtain ⟨-, hwork, hdests⟩ := run_footprint_parts cwd config
  have htarget := (target_below nodes hslash hdots).trans hwork
  refine Moves.bind (within_same now_utc_same).lift (fun finished_at => ?_)
  refine Moves.bind ((record_meta_within _ htarget _ _ _).perform _) (fun _ => ?_)
  refine Moves.bind ((hook_within _ _).perform _) (fun _ => ?_)
  refine Moves.bind (stores_within _ hslash hdots hdests) (fun outcomes => ?_)
  exact Moves.ite (finish_within _) (settle_within _ now outcomes htarget hdests)

/-- What comes after the id of a run was made. -/
theorem generate_bind_moves {R : World → World → Prop} [Std.Refl R] [IsTrans World R] {β : Type}
    (hsame : ∀ w w', Same w w' → R w w') {pre : String} {time : Datetime}
    {f : String → Pipeline β}
    (hf : ∀ id, generate_backup_id pre time = .ok id → Moves (OnWorld R) (f id)) :
    Moves (OnWorld R) (perform .backup_id (liftExcept (generate_backup_id pre time)) >>= f) := by
  intro s
  have hgenerate : Moves (OnWorld R)
      (perform .backup_id (liftExcept (generate_backup_id pre time) : Io String)) :=
    ((backup_id_same pre time).mono hsame).perform _
  rcases hrun : exec (perform .backup_id (liftExcept (generate_backup_id pre time) : Io String)) s
    with ⟨e | id, u⟩
  · rw [exec_bind_error hrun]
    exact hgenerate.of_exec hrun
  · rw [exec_bind_ok hrun]
    have hrest := hf id (backup_id_ok (exec_perform_ok hrun).1) u
    exact trans_of (OnWorld R) (hgenerate.of_exec hrun) hrest

theorem run_within (hpre : '/' ∉ config.backup.name_prefix.toList) (now : Option Datetime) :
    Moves (OnWorld (Within (footprint cwd config .run))) (run (site cwd nodes) config now) := by
  obtain ⟨hlock, hwork, -⟩ := run_footprint_parts cwd config
  have hnow : Moves (OnWorld (Within (footprint cwd config .run))) (now_or now) :=
    (now_or_same now).mono (fun _ _ h => Within.of_same h)
  have hlocked := within_confined (acquire_lock_moves cwd config.lock.file) hlock
  refine Moves.bind hnow (fun time => Moves.bind (hlocked.perform _) (fun _ => ?_))
  refine generate_bind_moves (fun _ _ hs => Within.of_same hs) (fun backup_id hid => ?_)
  obtain ⟨hslash, hdots⟩ := generated_id_name hpre hid
  have hprepare : Moves (OnWorld (Within (footprint cwd config .run)))
      (prepare_run (site cwd nodes) config backup_id) :=
    (prepare_run_within hslash hdots).mono (fun _ _ h => h.mono hwork)
  have htarget := (target_below nodes hslash hdots).trans hwork
  refine Moves.bind hprepare (fun server_version => ?_)
  refine Moves.bind (within_same now_utc_same).lift (fun started_at => ?_)
  refine Moves.bind (phases_within _ htarget) (fun failure => ?_)
  cases failure with
  | some message => exact finish_within _
  | none => exact place_within hslash hdots _ _ _

theorem purge_command_within (names : List String) (dry_run : Bool) :
    Moves (OnWorld (Within (footprint cwd config (.purge names dry_run))))
      (purge (site cwd nodes) config (if names = [] then none else some names) dry_run none) := by
  have hlock : lockSpots cwd config.lock.file ⊆ footprint cwd config (.purge names dry_run) :=
    fun _ hx => .inl hx
  have hlocked := within_confined (acquire_lock_moves cwd config.lock.file) hlock
  have hloop (now : Datetime) (dests : List DestinationConfig)
      (hsub : ∀ dest ∈ dests, dest ∈ config.destinations ∧ (names = [] ∨ dest.name ∈ names)) :
      Moves (OnWorld (Within (footprint cwd config (.purge names dry_run))))
        (purge_loop (site cwd nodes) config now dry_run dests) := by
    induction dests with
    | nil => exact Moves.pure _
    | cons dest dests ih =>
      obtain ⟨hd, hchosen⟩ := hsub dest List.mem_cons_self
      have hone : Moves (OnWorld (Within (footprint cwd config (.purge names dry_run))))
          (purge_one_destination (site cwd nodes) config dest now dry_run none) :=
        (purge_one_within now dry_run none).mono
          (fun _ _ h => h.mono (fun _ hx => .inr ⟨dest, hd, hchosen, hx⟩))
      exact Moves.bind hone (fun _ => Moves.bind
        (ih (fun d hdm => hsub d (List.mem_cons_of_mem _ hdm))) (fun _ => Moves.pure _))
  refine Moves.bind ((now_or_same none).mono (fun _ _ h => Within.of_same h)) (fun now => ?_)
  refine Moves.bind (hlocked.perform _) (fun _ => Moves.bind (hloop now _ (fun dest hd => ?_))
    (fun _ => Moves.pure _))
  obtain ⟨hmem, hchosen⟩ := List.mem_filter.mp hd
  refine ⟨hmem, ?_⟩
  by_cases hall : names = []
  · exact .inl hall
  · rw [if_neg hall] at hchosen
    exact .inr (by simpa using hchosen)

theorem list_command_within (destination : Option String) :
    Moves (Within (footprint cwd config (.list destination)))
      (cmd_list (site cwd nodes) config destination) := by
  have hone (dest : DestinationConfig)
      (hS : remoteSpots dest ⊆ footprint cwd config (.list destination)) :
      Moves (Within (footprint cwd config (.list destination)))
        (list_destination (site cwd nodes) config dest) := by
    refine Moves.bind (within_same (print_same _)) (fun _ => Moves.bind (Moves.tryCatch
      (Moves.bind (within_mono list_within hS) (fun _ => Moves.pure _)) (fun e => ?_))
      (fun listing => ?_))
    · split
      · exact Moves.pure _
      · exact Moves.throw _
    · split
      · exact Moves.bind (within_same (print_same _)) (fun _ => Moves.pure _)
      · exact Moves.bind (within_same (print_all_same _)) (fun _ => Moves.pure _)
  have hall (dests : List DestinationConfig)
      (hsub : ∀ dest ∈ dests, remoteSpots dest ⊆ footprint cwd config (.list destination)) :
      Moves (Within (footprint cwd config (.list destination)))
        (list_destinations (site cwd nodes) config dests) := by
    induction dests with
    | nil => exact Moves.pure _
    | cons dest dests ih =>
      exact Moves.bind (hone dest (hsub dest List.mem_cons_self)) (fun _ => Moves.bind
        (ih (fun d hd => hsub d (List.mem_cons_of_mem _ hd))) (fun _ => Moves.pure _))
  refine Moves.bind (hall _ (fun dest hd => ?_)) (fun _ => Moves.pure _)
  obtain ⟨hmem, hchosen⟩ := List.mem_filter.mp hd
  refine fun x hx => ⟨dest, hmem, fun name hname => ?_, hx⟩
  rw [hname] at hchosen
  simpa using hchosen

theorem check_command_within :
    Moves (Within (footprint cwd config .check)) (check (site cwd nodes) config) := by
  have hone (dest : DestinationConfig) (hd : dest ∈ config.destinations) :
      Moves (Within (footprint cwd config .check))
        ((site cwd nodes).build_destination dest config.transfer).check :=
    within_mono check_within (fun _ hx => ⟨dest, hd, hx⟩)
  unfold check
  refine Moves.bind (within_same (MariabackupRunner.get_version_moves _)) (fun _ =>
    Moves.bind ?_ (fun _ => Moves.bind (check_destinations_moves hone) (fun _ => Moves.pure _)))
  refine Moves.tryCatch (Moves.bind (within_same (check_replication_moves _ _)) (fun _ =>
    Moves.pure _)) (fun e => ?_)
  split
  · exact Moves.pure _
  · exact Moves.throw _

theorem setup_logging_within :
    Moves (Within (logSpots cwd config)) (setup_logging cwd config.logging) := by
  unfold setup_logging
  split
  · exact Moves.throw _
  · split_ifs with htruthy
    · cases hfile : config.logging.file with
      | str text =>
        have hne : text ≠ "" := by
          rintro rfl
          rw [hfile] at htruthy
          cases htruthy
        exact within_confined (open_append_moves _) (fun x hx => ⟨text, hfile, hne, hx⟩)
      | _ => exact Moves.throw _
    · exact Moves.pure _

theorem dispatch_within (hpre : '/' ∉ config.backup.name_prefix.toList) (command : Command) :
    Moves (OnWorld (Within (footprint cwd config command)))
      (dispatch (site cwd nodes) config command) := by
  cases command with
  | run => exact Moves.bind (run_within hpre none) (fun _ => Moves.pure _)
  | purge names dry_run =>
    exact Moves.bind (purge_command_within names dry_run) (fun summary => Moves.bind
      (within_same (print_all_same _)).lift (fun _ => Moves.pure _))
  | list destination => exact (list_command_within destination).lift
  | check =>
    exact Moves.bind check_command_within.lift (fun summary => Moves.bind
      (within_same (print_all_same _)).lift (fun _ => Moves.pure _))

theorem invoke_within (hpre : '/' ∉ config.backup.name_prefix.toList) (command : Command)
    (w : World) : Within (logSpots cwd config ∪ footprint cwd config command) w
      (invoke cwd nodes config command w).2 := by
  have hlog : Moves (Within (logSpots cwd config ∪ footprint cwd config command))
      (setup_logging cwd config.logging) := within_mono setup_logging_within Set.subset_union_left
  have hdispatch : Moves (OnWorld (Within (logSpots cwd config ∪ footprint cwd config command)))
      (dispatch (site cwd nodes) config command) :=
    (dispatch_within hpre command).mono (fun _ _ h => h.mono Set.subset_union_right)
  have hinvoke : Moves (OnWorld (Within (logSpots cwd config ∪ footprint cwd config command)))
      (main_loaded (site cwd nodes) config command) := main_loaded_moves hlog hdispatch
  exact hinvoke ⟨w, []⟩

/-- However the invocations end, and whatever is where they work: outside the log file and the
footprints of their commands nothing changes on this node or on any other. -/
theorem invocations_stay_inside (hstraight : config.Straight)
    (commands : List Command) (w : World) :
    Within (logSpots cwd config ∪ {x | ∃ command ∈ commands, x ∈ footprint cwd config command}) w
      (commands.foldl (fun w command => (invoke cwd nodes config command w).2) w) := by
  have hall (S : Set Spot) (hS : ∀ command ∈ commands,
      logSpots cwd config ∪ footprint cwd config command ⊆ S) :
      Within S w (commands.foldl (fun w command => (invoke cwd nodes config command w).2) w) := by
    induction commands generalizing w with
    | nil => exact refl_of (Within S) w
    | cons command commands ih =>
      have hfirst : Within S w (invoke cwd nodes config command w).2 :=
        (invoke_within hstraight.slash command w).mono (hS command List.mem_cons_self)
      have hrest := ih (invoke cwd nodes config command w).2
        (fun c hc => hS c (List.mem_cons_of_mem _ hc))
      exact trans_of (Within S) hfirst hrest
  refine hall _ (fun command hc => Set.union_subset Set.subset_union_left ?_)
  exact fun x hx => .inr ⟨command, hc, hx⟩

/-- A file beside the working directory and the destination. -/
def besideWorld : World := smallWorld (smallTree.create [entry "s"] (.file "text") 0)

theorem invocations_stay_inside_beside :
    ([Command.run, .purge [] false, .check].foldl (fun w command =>
      (invoke [] smallNodes (smallConfig "/w" "p" "/b/d" 1) command w).2) besideWorld).fs.kind
        [entry "s"] = some (.file "text") := by
  have hinside : Within _ besideWorld ([Command.run, .purge [] false, .check].foldl
      (fun w command => (invoke [] smallNodes (smallConfig "/w" "p" "/b/d" 1) command w).2)
      besideWorld) := invocations_stay_inside (smallConfig_straight (by decide)) _ _
  have hroot : localRoot [] (smallDestination "/b/d" 1) = [entry "b", entry "d"] := by decide
  have hlocal : (none, [entry "s"]) ∉ localSpots [] (smallDestination "/b/d" 1) := by
    rw [localSpots_eq rfl, hroot]
    rintro (⟨-, h⟩ | ⟨-, h⟩) <;> revert h <;> decide
  have hremote : (none, [entry "s"]) ∉ remoteSpots (smallDestination "/b/d" 1) :=
    fun h => nomatch h.1
  have hprobe : (none, [entry "s"]) ∉ checkSpots [] (smallDestination "/b/d" 1) := by
    rintro (⟨-, h⟩ | h)
    · rw [hroot] at h
      rcases h with ⟨-, h⟩ | ⟨-, h⟩ <;> revert h <;> decide
    · exact hremote h
  have hlock : (none, [entry "s"]) ∉ lockSpots [] LockConfig.default.file := by
    rintro (h | ⟨-, h⟩)
    · rw [chainSpots_configured] at h
      exact absurd h.2 (by decide)
    · exact absurd h (by decide)
  have hwork : (none, [entry "s"]) ∉ workSpots [] (smallConfig "/w" "p" "/b/d" 1) := by
    rintro (⟨-, h⟩ | ⟨-, h⟩) <;> revert h <;> decide
  have hkind := hinside.kind none [entry "s"] ?_
  · exact hkind.trans (by decide)
  rintro (⟨text, htext, hne, -⟩ | ⟨command, hc, hin⟩)
  · exact hne (Toml.str.inj htext).symm
  · simp only [List.mem_cons, List.not_mem_nil, or_false] at hc
    rcases hc with rfl | rfl | rfl
    · rcases hin with (h | h) | ⟨dest, hd, h⟩
      · exact hlock h
      · exact hwork h
      · obtain rfl := List.mem_singleton.mp hd
        exact h.elim hlocal hremote
    · rcases hin with h | ⟨dest, hd, -, h⟩
      · exact hlock h
      · obtain rfl := List.mem_singleton.mp hd
        exact h.elim hlocal hremote
    · obtain ⟨dest, hd, h⟩ := hin
      obtain rfl := List.mem_singleton.mp hd
      exact hprobe h

end

end MbKeeper
