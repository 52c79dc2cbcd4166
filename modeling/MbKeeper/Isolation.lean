import MbKeeper.WorkDir
import MbKeeper.RemoteWords
import MbKeeper.SshEffects

/-!
# What an operation leaves alone

`Elsewhere P` says that a step happened elsewhere than in the directory `P` of
this node, `OnlyOn h` that it happened on the machine `h` only. The calls of
`pathlib` and `shutil` leave alone what lies apart from their paths, a local
destination what lies apart from its own, and a remote one everything but its
machine, whatever the names and the paths hold.
-/
namespace MbKeeper

variable {α : Type}

/-- What lies in `P` on this node, and what was committed there, is as it was. -/
structure Elsewhere (P : Loc) (w w' : World) : Prop where
  kind : ∀ q, P <+: q → w'.fs.kind q = w.fs.kind q
  committed : committed none P w' = committed none P w
  commits : w.commits ⊆ w'.commits

namespace Elsewhere

variable {P : Loc} {w w' : World}

instance : Std.Refl (Elsewhere P) := ⟨fun _ => ⟨fun _ _ => rfl, rfl, List.Subset.refl _⟩⟩

instance : IsTrans World (Elsewhere P) := ⟨fun _ _ _ h h' =>
  ⟨fun q hq => (h'.kind q hq).trans (h.kind q hq), h'.committed.trans h.committed,
    List.Subset.trans h.commits h'.commits⟩⟩

theorem of_confined {S : Set Spot} (h : Confined S w w') (hS : ∀ q, P <+: q → (none, q) ∉ S) :
    Elsewhere P w w' where
  kind q hq := h.fs_kind (hS q hq)
  committed := committed_congr h.commits
  commits := by
    rw [h.commits]
    exact List.Subset.refl _

theorem of_same (h : Same w w') : Elsewhere P w w' :=
  of_confined (h.confined ∅) (fun _ _ => Set.notMem_empty _)

/-- A path apart from `P`, if it is one the system accepts. -/
def Apart (p : Path) (P : Loc) : Prop := p.nul = false → ¬ p.loc <+: P ∧ ¬ P <+: p.loc

theorem moves_below {m : Io α} {p : Path} (h : Apart p P) (hnul : p.nul = true → Moves Same m)
    (hm : Moves (Confined (below none p.loc)) m) : Moves (Elsewhere P) m := by
  cases hp : p.nul with
  | true => exact (hnul hp).mono (fun _ _ hs => of_same hs)
  | false =>
    obtain ⟨hl, hP⟩ := h hp
    exact hm.mono (fun _ _ hc => of_confined hc (fun q hq => notMem_below hl hP hq))

theorem write_text_nul {p : Path} (h : p.nul = true) (text : String) (append : Bool) :
    Moves Same (write_text p text append) := by
  intro w
  rw [write_text, exec_primitive, Path.find_nul h]
  exact same_next w

theorem mkdir_nul {p : Path} (h : p.nul = true) : Moves Same (mkdir p) := by
  intro w
  rw [mkdir, exec_primitive, if_pos h]
  exact same_next w

theorem mkdir {p : Path} (h : p.nul = false → ¬ P <+: p.loc) (hat : p.nul = false → p.At p.loc) :
    Moves (Elsewhere P) (mkdir p) := by
  cases hp : p.nul with
  | true => exact (mkdir_nul hp).mono (fun _ _ hs => of_same hs)
  | false =>
    have hm := mkdir_moves p
    rw [(hat hp).chainSpots_eq] at hm
    refine hm.mono (fun _ _ hc => of_confined hc (fun q hq hmem => ?_))
    exact h hp (hq.trans hmem.2)

theorem rmtree {p : Path} (h : Apart p P) (ig : Bool) : Moves (Elsewhere P) (rmtree p ig) :=
  moves_below h (fun hp => LocalDestination.rmtree_nul hp ig) (rmtree_moves p ig)

theorem write_text {p : Path} (h : Apart p P) (text : String) (append : Bool) :
    Moves (Elsewhere P) (write_text p text append) :=
  moves_below h (fun hp => write_text_nul hp text append) (write_text_moves p text append)

theorem ask (q : Reply → World → α) : Moves (Elsewhere P) (ask q) :=
  (LocalDestination.ask_same q).mono (fun _ _ hs => of_same hs)

/-- A generation built and committed in another directory. -/
theorem of_commits {P' : Loc} {x : Name} {u : World} (hl : ¬ P' <+: P) (hP : ¬ P <+: P')
    (hbuild : Elsewhere P w u) (hc : LocalDestination.Commits P' x w u w') : Elsewhere P w w' := by
  obtain ⟨s, htree⟩ := hc.tree
  have hfs : w'.fs = u.fs.move (P' ++ [partialName x]) (P' ++ [x]) s := by
    rw [World.fs, htree]
    rfl
  have hout (y : Name) (q : Loc) (hq : P <+: q) : ¬ P' ++ [y] <+: q := fun hpre =>
    notMem_below hl hP hq ⟨rfl, (List.prefix_append _ _).trans hpre⟩
  have hne : P' ≠ P := fun he => hl (he ▸ List.prefix_refl _)
  refine ⟨fun q hq => ?_, ?_, ?_⟩
  · rw [hfs, FileTree.kind_move_of_outside _ _ (hout x q hq) (hout (partialName x) q hq)]
    exact hbuild.kind q hq
  · have hname : FileTree.childName P (P' ++ [x]) = none := by
      simp [FileTree.childName, hne]
    rw [MbKeeper.committed, hc.commits, List.filterMap_append, ← MbKeeper.committed]
    simp [hname]
  · rw [hc.commits]
    exact List.subset_append_left _ _

theorem building_notMem {P' : Loc} (hl : ¬ P' <+: P) (hP : ¬ P <+: P') (x : Name) {q : Loc}
    (hq : P <+: q) : (none, q) ∉ LocalDestination.building P' x := by
  rintro (⟨-, hpre⟩ | ⟨-, hpre⟩)
  · exact hP (hq.trans hpre)
  · exact notMem_below hl hP hq ⟨rfl, (List.prefix_append _ _).trans hpre⟩

/-- What a local destination in another directory does. -/
theorem local_store {d : LocalDestination} {P' : Loc} (hp : d.path.At P') (hl : ¬ P' <+: P)
    (hP : ¬ P <+: P') {backup_id : String} (hid : Legal backup_id ∨ hasNul backup_id = true)
    (src : Path) : Moves (Elsewhere P) (d.store src backup_id) := by
  intro w
  rcases hid with hlegal | hnul
  · have hcases := LocalDestination.store_cases (x := ⟨backup_id, hlegal⟩) hp
      (Prod.eta (exec (d.store src backup_id) w)).symm
    rcases hcases with ⟨hsame, -⟩ | ⟨-, ⟨hb, -⟩ | ⟨u, hc, -⟩⟩
    · exact of_same hsame
    · exact of_confined hb (fun q hq => building_notMem hl hP _ hq)
    · have hbuild := of_confined hc.building (fun q hq => building_notMem hl hP _ hq)
      exact of_commits hl hP hbuild hc
  · have hc := LocalDestination.store_nul hp src hnul w
    exact of_confined hc (fun q hq hmem => hP (hq.trans hmem.2))

end Elsewhere

/-- Only the machine `h` changed, and only there was anything committed. -/
structure OnlyOn (h : Option String) (w w' : World) : Prop where
  tree : ∀ k, k ≠ h → w'.tree k = w.tree k
  commits : ∃ new, w'.commits = w.commits ++ new ∧ ∀ c ∈ new, c.host = h

namespace OnlyOn

variable {h : Option String} {w w' : World}

instance : Std.Refl (OnlyOn h) := ⟨fun _ => ⟨fun _ _ => rfl, [], by simp, by simp⟩⟩

instance : IsTrans World (OnlyOn h) := ⟨fun _ _ _ h₁ h₂ => by
  obtain ⟨new, hnew, hon⟩ := h₁.commits
  obtain ⟨new', hnew', hon'⟩ := h₂.commits
  refine ⟨fun k hk => (h₂.tree k hk).trans (h₁.tree k hk), new ++ new', ?_, ?_⟩
  · rw [hnew', hnew, List.append_assoc]
  · intro c hc
    exact (List.mem_append.mp hc).elim (hon c) (hon' c)⟩

theorem setTree (w : World) (t : Fs) : OnlyOn h w (w.setTree h t) :=
  ⟨fun _ hk => w.tree_setTree_ne t hk, [], by simp, by simp⟩

theorem of_same (hs : Same w w') : OnlyOn h w w' :=
  ⟨fun k _ => congrFun hs.tree k, [], by simp [hs.commits], by simp⟩

theorem of_next (h₁ : OnlyOn h w.next w') : OnlyOn h w w' := ⟨h₁.tree, h₁.commits⟩

theorem remoteMove (w : World) (host : String) (a b : Loc) (s : Instant) :
    OnlyOn (some host) w (w.remoteMove host a b s) := by
  unfold World.remoteMove
  dsimp only
  split_ifs
  · exact setTree w _
  · exact ⟨fun k hk => w.tree_setTree_ne _ hk, _, rfl, by simp⟩

theorem full (cmd : RemoteCommand) (node : RemoteNode) (host : String) (w : World) (s : Instant) :
    OnlyOn (some host) w (cmd.full node host w s).world := by
  cases cmd with
  | test_f p => exact refl_of (OnlyOn _) w
  | mkdir_p p =>
    rw [RemoteCommand.full]
    split_ifs
    · exact refl_of (OnlyOn _) w
    · exact setTree w _
  | mv src dst =>
    rw [RemoteCommand.full]
    split
    · split_ifs
      · exact remoteMove w host _ _ s
      · exact refl_of (OnlyOn _) w
    · exact refl_of (OnlyOn _) w
  | rm_rf final part => exact setTree w _
  | list p => exact refl_of (OnlyOn _) w
  | probe p file =>
    rw [RemoteCommand.full]
    split_ifs
    · exact refl_of (OnlyOn _) w
    · exact setTree w _

theorem cut (cmd : RemoteCommand) (node : RemoteNode) (host : String) (w : World) (r : Reply) :
    OnlyOn (some host) w (cmd.cut node host w r) := by
  rw [RemoteCommand.cut]
  split_ifs
  · exact full cmd node host w r.stamp
  · cases cmd with
    | mkdir_p p | probe p file =>
      rw [RemoteCommand.part]
      split
      · exact refl_of (OnlyOn _) w
      · exact setTree w _
    | rm_rf final part => exact setTree w _
    | test_f _ | mv _ _ | list _ => exact refl_of (OnlyOn _) w

/-- Whatever a remote shell makes of a command, it makes of its own machine. -/
theorem remote_call (node : RemoteNode) (host : String) (cmd : RemoteCommand) :
    Moves (OnlyOn (some host)) (remote_call node host cmd) := by
  intro w
  rw [MbKeeper.remote_call, exec_primitive]
  apply of_next
  generalize w.tape 0 = r
  generalize w.next = w
  by_cases hlit : cmd.Literal
  · rw [if_pos hlit]
    cases r.fault with
    | some e => exact cut cmd node host w r
    | none =>
      dsimp only
      split_ifs
      · exact full cmd node host w r.stamp
      · exact cut cmd node host w r
  · rw [if_neg hlit]
    cases r.fault with
    | some e => exact setTree w _
    | none => exact setTree w _

theorem rsync_directory_call (host : String) (src : Path) (dst : RemotePath)
    (exclude : Name → Bool) :
    Moves (OnlyOn (some host)) (rsync_directory_call host src dst exclude) := by
  intro w
  rw [MbKeeper.rsync_directory_call, exec_primitive]
  apply of_next
  dsimp only
  split
  · split_ifs
    all_goals split
    all_goals first | exact setTree _ _ | exact refl_of (OnlyOn _) _
  · exact refl_of (OnlyOn _) _

theorem rsync_file_call (host : String) (src : Path) (dst : RemotePath) :
    Moves (OnlyOn (some host)) (rsync_file_call host src dst) := by
  intro w
  rw [MbKeeper.rsync_file_call, exec_primitive]
  apply of_next
  dsimp only
  split
  · split
    · split_ifs
      all_goals first | exact refl_of (OnlyOn _) _ | split
      all_goals first | exact setTree _ _ | exact refl_of (OnlyOn _) _
    · exact refl_of (OnlyOn _) _
  · exact refl_of (OnlyOn _) _

end OnlyOn

namespace SSHDestination

variable (d : SSHDestination)

theorem remote_process_only (cmd : RemoteCommand) :
    Moves (OnlyOn (some d.host)) (d.remote_process cmd) := by
  refine Moves.tryCatch (Moves.bind (fun w => ?_) (fun _ => OnlyOn.remote_call d.node d.host cmd))
    (fun e => ?_)
  · rw [started_state]
    exact refl_of (OnlyOn _) w
  · split <;> exact Moves.throw _

/-- The operations of a remote destination change nothing but its machine, whatever the ids and
the paths hold. -/
theorem operations_only (local_dir : Path) (backup_id : String) :
    Moves (OnlyOn (some d.host)) (d.store local_dir backup_id) ∧
      Moves (OnlyOn (some d.host)) d.list_backups ∧
      Moves (OnlyOn (some d.host)) (d.delete backup_id) ∧ Moves (OnlyOn (some d.host)) d.check := by
  apply d.operations_moves
  · exact fun cmd _ => d.remote_process_only cmd
  · intro p
    exact (LocalDestination.ask_same _).mono (fun _ _ hs => OnlyOn.of_same hs)
  · intro src dst
    exact run_with_retries_moves (OnlyOn.rsync_directory_call d.host src dst _) _ _ _
  · intro src dst
    exact run_with_retries_moves (OnlyOn.rsync_file_call d.host src dst) _ _ _

end SSHDestination

theorem Elsewhere.of_only {P : Loc} {host : String} {w w' : World} (h : OnlyOn (some host) w w') :
    Elsewhere P w w' := by
  obtain ⟨new, hnew, hon⟩ := h.commits
  refine ⟨fun q _ => ?_, ?_, ?_⟩
  · rw [World.fs, h.tree none (by simp)]
    rfl
  · have hskip :
        new.filterMap
          (fun c => if c.host = none then FileTree.childName P c.loc else none) = [] := by
      rw [List.filterMap_eq_nil_iff]
      intro c hc
      rw [if_neg (by rw [hon c hc]; simp)]
    rw [MbKeeper.committed, MbKeeper.committed, hnew, List.filterMap_append, hskip, List.append_nil]
  · rw [hnew]
    exact List.subset_append_left _ _

end MbKeeper
