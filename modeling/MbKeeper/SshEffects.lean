import MbKeeper.LocalStore

/-!
# What the ssh destination does to its host

A remote command that the shell takes literally was not started, or was cut
short, or ran to its end; what the caller saw says little about which. The
lemmas here give the effect of each command and of each stage of `store`, over
every reply.
-/
namespace MbKeeper

theorem literal_append {a b : String} : Literal (a ++ b) ↔ Literal a ∧ Literal b := by
  simp only [Literal, String.toList_append, List.mem_append]
  exact ⟨fun h => ⟨fun c hc => h c (.inl hc), fun c hc => h c (.inr hc)⟩,
    fun h c hc => hc.elim (h.1 c) (h.2 c)⟩

theorem literal_slash : Literal "/" := by decide

theorem literal_suffix : Literal PARTIAL_SUFFIX := by decide

theorem literal_meta : Literal META_FILENAME.val := by decide

namespace RemotePath

theorem literal_sub {p : RemotePath} {s : String} (hp : Literal p.text) (hs : Literal s) :
    Literal (p.sub s).text :=
  literal_append.mpr ⟨literal_append.mpr ⟨hp, literal_slash⟩, hs⟩

theorem sub_at {p : RemotePath} {P : Loc} (h : p.path.At P) (x : Name) :
    (p.sub x.val).path.At (P ++ [x]) := by
  obtain ⟨⟨m, hm, rfl⟩, hnul⟩ := h
  refine ⟨⟨m ++ [x], ?_, ?_⟩, ?_⟩
  · simp [RemotePath.sub, partsOf_name, hm]
  · simp [RemotePath.sub]
  · simp [RemotePath.sub, hnul, hasNul_name]

/-- `rm` takes the name of a directory entry. -/
theorem rmRefuses_sub (p : RemotePath) (P : Loc) (x : Name) :
    rmRefuses (p.sub x.val) (P ++ [x]) = false := by
  have hsplit : (p.sub x.val).text.toList.splitOn '/' =
      p.text.toList.splitOn '/' ++ [x.val.toList] := by
    have htext : (p.sub x.val).text.toList = p.text.toList ++ '/' :: x.val.toList := by
      simp [RemotePath.sub]
    rw [htext, List.splitOn_append_cons_of_beq _ _ (by rfl), splitOn_of_notMem x.slash_notMem]
  have hne : x.val.toList ≠ [] := fun h => x.property.1 (String.toList_eq_nil_iff.mp h)
  have hdot : x.val.toList ≠ ['.'] := fun h => x.property.2.1 (String.toList_injective h)
  have hdots : x.val.toList ≠ ['.', '.'] := fun h => x.property.2.2.1 (String.toList_injective h)
  simp [rmRefuses, hsplit, hne, hdot, hdots]

end RemotePath

section

variable {node : RemoteNode} {host : String} {cmd : RemoteCommand} {w w' : World}

/-- A command that ran to its end is one cut short after its effect. -/
theorem RemoteCommand.full_eq_cut (cmd : RemoteCommand) (node : RemoteNode) (host : String)
    (w : World) (s : Instant) :
    (cmd.full node host w s).world = cmd.cut node host w { Reply.good s with applied := true } := by
  rw [RemoteCommand.cut, if_pos rfl]
  rfl

/-- The command was answered, with what it printed; or whoever called it knows only that it may
have been cut short. -/
theorem remote_call_cases {res : Except Exn CompletedProcess} (hlit : cmd.Literal)
    (h : exec (remote_call node host cmd) w = (res, w')) :
    (∃ s, (w.tape 0).status = 0 ∧ w' = (cmd.full node host w.next s).world ∧
        res = .ok ⟨(cmd.full node host w.next s).status,
          (cmd.full node host w.next s).stdout, ""⟩) ∨
      (∃ r, w' = cmd.cut node host w.next r) ∧
        ∀ p, res = .ok p → p.returncode ≠ 0 ∧ (w.tape 0).status ≠ 0 ∧ (w.tape 0).fault = none := by
  rw [remote_call, exec_primitive, if_pos hlit] at h
  cases hf : (w.tape 0).fault with
  | some e =>
    rw [hf] at h
    obtain ⟨rfl, rfl⟩ := Prod.mk.inj h
    exact .inr ⟨⟨_, rfl⟩, nofun⟩
  | none =>
    rw [hf] at h
    dsimp only at h
    split_ifs at h with hs
    · obtain ⟨rfl, rfl⟩ := Prod.mk.inj h
      exact .inl ⟨_, hs, rfl, rfl⟩
    · obtain ⟨rfl, rfl⟩ := Prod.mk.inj h
      refine .inr ⟨⟨_, rfl⟩, fun p hp => ?_⟩
      rw [← Except.ok.inj hp]
      exact ⟨hs, hs, rfl⟩

end

theorem started_state (argv : Except Exn (List Toml)) (w : World) :
    (exec (started argv) w).2 = w := by
  cases argv with
  | error e => rfl
  | ok argv =>
    cases hargs : argvStrings argv with
    | error e => simp [started, liftExcept, hargs]
    | ok args =>
      simp only [started, liftExcept, hargs, exec_bind, exec_pure]
      split_ifs <;> rfl

namespace SSHDestination

variable {d : SSHDestination} {P : Loc} {cmd : RemoteCommand} {w w' : World}

/-- How a command left the world: untouched, or cut short somewhere. -/
def Left (d : SSHDestination) (cmd : RemoteCommand) (w w' : World) : Prop :=
  w' = w ∨ ∃ r, w' = cmd.cut d.node d.host w.next r

theorem remote_process_cases {res : Except Exn CompletedProcess} (hlit : cmd.Literal)
    (h : exec (d.remote_process cmd) w = (res, w')) :
    (∃ s, (w.tape 0).status = 0 ∧ w' = (cmd.full d.node d.host w.next s).world ∧
        res = .ok ⟨(cmd.full d.node d.host w.next s).status,
          (cmd.full d.node d.host w.next s).stdout, ""⟩) ∨
      d.Left cmd w w' ∧
        ∀ p, res = .ok p → p.returncode ≠ 0 ∧ (w.tape 0).status ≠ 0 ∧ (w.tape 0).fault = none := by
  rw [remote_process, exec_tryCatch] at h
  rcases hr : exec (do
    started (.ok (d.ssh_argv ++ [.str d.user_host, .str cmd.text]))
    remote_call d.node d.host cmd) w with ⟨e | p, u⟩
  · have hleft : d.Left cmd w u := by
      rcases exec_bind_cases hr with ⟨e', he', -⟩ | ⟨_, v, hv, hcall⟩
      · have hstate := started_state (.ok (d.ssh_argv ++ [.str d.user_host, .str cmd.text])) w
        rw [he'] at hstate
        exact .inl hstate
      · have hstate := started_state (.ok (d.ssh_argv ++ [.str d.user_host, .str cmd.text])) w
        rw [hv] at hstate
        obtain rfl : v = w := hstate
        rcases remote_call_cases hlit hcall with ⟨s, -, -, hres⟩ | ⟨hr, -⟩
        · cases hres
        · exact .inr hr
    rw [hr] at h
    have hfail : ∃ e', (res, w') = (.error e', u) := by
      cases e <;> exact ⟨_, h.symm⟩
    obtain ⟨e', he'⟩ := hfail
    obtain ⟨rfl, rfl⟩ := Prod.mk.inj he'
    exact .inr ⟨hleft, nofun⟩
  · rw [hr] at h
    obtain ⟨rfl, rfl⟩ := Prod.mk.inj h
    obtain ⟨_, v, hv, hcall⟩ := exec_bind_eq_ok hr
    have hstate := started_state (.ok (d.ssh_argv ++ [.str d.user_host, .str cmd.text])) w
    rw [hv] at hstate
    obtain rfl : v = w := hstate
    rcases remote_call_cases hlit hcall with hdone | ⟨hcut, hne⟩
    · exact .inl hdone
    · exact .inr ⟨.inr hcut, hne⟩

theorem Left.of_full {s : Instant} : d.Left cmd w (cmd.full d.node d.host w.next s).world :=
  .inr ⟨_, cmd.full_eq_cut _ _ _ _⟩

/-- A command that was acknowledged ran to its end and succeeded. -/
theorem remote_run_cases {res : Except Exn CompletedProcess} (hlit : cmd.Literal)
    (h : exec (d.remote_run cmd) w = (res, w')) :
    (∃ s, w' = (cmd.full d.node d.host w.next s).world ∧
        (cmd.full d.node d.host w.next s).status = 0 ∧
        res = .ok ⟨0, (cmd.full d.node d.host w.next s).stdout, ""⟩) ∨
      d.Left cmd w w' ∧ ∃ e, res = .error e := by
  rcases exec_bind_cases h with ⟨e, he, rfl⟩ | ⟨proc, u, hu, h⟩
  · rcases remote_process_cases hlit he with ⟨s, -, -, hres⟩ | ⟨hleft, -⟩
    · cases hres
    · exact .inr ⟨hleft, e, rfl⟩
  · rcases remote_process_cases hlit hu with ⟨s, -, rfl, hres⟩ | ⟨hleft, hne⟩
    · obtain rfl := Except.ok.inj hres
      dsimp only at h
      split_ifs at h with hs
      · obtain ⟨rfl, rfl⟩ := Prod.mk.inj h
        exact .inr ⟨Left.of_full, _, rfl⟩
      · obtain ⟨rfl, rfl⟩ := Prod.mk.inj h
        have hzero : (cmd.full d.node d.host w.next s).status = 0 := not_not.mp hs
        refine .inl ⟨s, rfl, hzero, ?_⟩
        rw [hzero]
    · rw [if_pos (hne proc rfl).1] at h
      obtain ⟨rfl, rfl⟩ := Prod.mk.inj h
      exact .inr ⟨hleft, _, rfl⟩

theorem remote_run_left {res : Except Exn CompletedProcess} (hlit : cmd.Literal)
    (h : exec (d.remote_run cmd) w = (res, w')) : d.Left cmd w w' := by
  rcases remote_run_cases hlit h with ⟨s, rfl, -⟩ | ⟨hleft, -⟩
  · exact Left.of_full
  · exact hleft

variable {p : RemotePath} {x : Name}

theorem Left.same (hfull : ∀ v s, (cmd.full d.node d.host v s).world = v)
    (hpart : ∀ v r, cmd.part d.host v r = v) (h : d.Left cmd w w') : Same w w' := by
  rcases h with rfl | ⟨r, rfl⟩
  · exact refl_of Same w'
  · rw [RemoteCommand.cut, hfull, hpart, ite_self]
    exact same_next w

theorem Left.test_f (h : d.Left (.test_f p) w w') : Same w w' :=
  h.same (fun _ _ => rfl) (fun _ _ => rfl)

theorem Left.list (h : d.Left (.list p) w w') : Same w w' :=
  h.same (fun _ _ => rfl) (fun _ _ => rfl)

theorem Left.mkdir_p (hp : p.path.At P) (h : d.Left (.mkdir_p p) w w') :
    Confined (toward (some d.host) P) w w' := by
  have hmk (v : World) (ps : List Loc) (s : ℤ) (hps : ∀ q ∈ ps, q ∈ p.path.chain) :
      Confined (toward (some d.host) P) v
        (v.setTree (some d.host) ((v.tree (some d.host)).mkdirs ps s)) :=
    Confined.setTree (fun q hq => FileTree.kind_mkdirs_of_notMem _ _
      (fun hmem => hq ⟨rfl, hp.mem_chain.mp (hps q hmem)⟩))
  rcases h with rfl | ⟨r, rfl⟩
  · exact refl_of (Confined _) w'
  · refine Confined.of_next ?_
    simp only [RemoteCommand.cut, RemoteCommand.full, RemoteCommand.part]
    split_ifs
    · exact refl_of (Confined _) w.next
    · exact hmk _ _ _ (fun q hq => hq)
    · exact refl_of (Confined _) w.next
    · exact hmk _ _ _ (fun q hq => List.mem_of_mem_take hq)

/-- Everything on the way to the destination is a directory where `mkdir -p` succeeded. -/
theorem mkdir_p_ok (hp : p.path.At P) {node : RemoteNode} {host : String} {s : Instant}
    (h : (RemoteCommand.full node host w s (.mkdir_p p)).status = 0) {q : Loc} (hq : q <+: P) :
    ((RemoteCommand.full node host w s (.mkdir_p p)).world.tree (some host)).kind q =
      some .dir := by
  simp only [RemoteCommand.full] at h ⊢
  split_ifs at h ⊢ with hb
  · cases h
  · rw [World.tree_setTree_self, FileTree.kind_mkdirs]
    have hmem := hp.mem_chain.mpr hq
    have hfile : (w.tree (some host)).isFile q = false := by
      by_contra hf
      exact hb (List.any_eq_true.mpr ⟨q, hmem, by simpa using hf⟩)
    cases hk : (w.tree (some host)).kind q with
    | none => simp [hmem]
    | some k =>
      cases k with
      | dir => simp
      | file data =>
        rw [(FileTree.isFile_iff _ _).mpr ⟨data, hk⟩] at hfile
        cases hfile

theorem rmOperand_eq {t : Fs} (hp : d.path.path.At P) (x : Name) (s : Instant) :
    rmOperand t (d.path.sub x.val) s = t.removeTree (P ++ [x]) s := by
  rw [rmOperand, rmTarget, (RemotePath.sub_at hp x).find, Option.filter_some,
    RemotePath.rmRefuses_sub]
  rfl

theorem rmFails_sub {t : Fs} (hp : d.path.path.At P) (x : Name) :
    rmFails t (d.path.sub x.val) = false := by
  rw [rmFails, (RemotePath.sub_at hp x).find]
  exact RemotePath.rmRefuses_sub _ _ _

/-- What `delete` removes. -/
def spots (h : String) (P : Loc) (x : Name) : Set Spot :=
  below (some h) (P ++ [x]) ∪ below (some h) (P ++ [partialName x])

theorem removes_removeTree {h : Option String} (w : World) (l : Loc) (s : Instant) :
    Removes (below h l) w (w.setTree h ((w.tree h).removeTree l s)) := by
  refine Removes.setTree (fun q hq => ?_) (fun q => ?_) (fun q hq hx => ?_)
  · rw [FileTree.kind_removeTree, if_neg (fun hl => hq ⟨rfl, hl⟩)]
  · rw [FileTree.kind_removeTree]
    split_ifs
    · exact .inr rfl
    · exact .inl rfl
  · have hnot : ¬ l <+: q := fun hl => hq ⟨rfl, hl⟩
    exact FileTree.lookup_removeTree _ _ hnot
      (ne_dropLast (List.prefix_refl _) hnot (fun y hy => hx y ⟨rfl, hy⟩))

theorem rm_rf_full (hp : d.path.path.At P) (x : Name) {node : RemoteNode}
    {host : String} (w : World)
    (s : Instant) : RemoteCommand.full node host w s
        (.rm_rf (d.final_path x.val) (d.partial_path x.val)) =
      ⟨w.setTree (some host) (((w.tree (some host)).removeTree (P ++ [x]) s).removeTree
        (P ++ [partialName x]) s), 0, ""⟩ := by
  have hpart : d.partial_path x.val = d.path.sub (partialName x).val := rfl
  simp only [RemoteCommand.full, hpart, final_path, rmOperand_eq hp, rmFails_sub hp]
  simp

theorem rm_rf_removes (hp : d.path.path.At P) (x : Name)
    (h : d.Left (.rm_rf (d.final_path x.val) (d.partial_path x.val)) w w') :
    Removes (spots d.host P x) w w' := by
  rcases h with rfl | ⟨r, rfl⟩
  · exact refl_of (Removes _) w'
  refine Removes.of_next ?_
  rw [RemoteCommand.cut]
  split_ifs
  · -- the command ran to its end
    rw [rm_rf_full hp]
    have h₁ : Removes (spots d.host P x) _ _ :=
      (removes_removeTree (h := some d.host) w.next (P ++ [x]) r.stamp).mono Set.subset_union_left
    have h₂ : Removes (spots d.host P x) _ _ := (removes_removeTree (h := some d.host)
      (w.next.setTree (some d.host) ((w.next.tree (some d.host)).removeTree (P ++ [x]) r.stamp))
      (P ++ [partialName x]) r.stamp).mono Set.subset_union_right
    have h := trans_of (Removes (spots d.host P x)) h₁ h₂
    simpa [World.setTree] using h
  · have hpart : d.partial_path x.val = d.path.sub (partialName x).val := rfl
    have htargets (t : Fs) : (rmTarget t (d.final_path x.val)).toList ++
        (rmTarget t (d.partial_path x.val)).toList = [P ++ [x], P ++ [partialName x]] := by
      simp only [rmTarget, hpart, final_path, (RemotePath.sub_at hp _).find, Option.filter_some,
        RemotePath.rmRefuses_sub]
      rfl
    simp only [RemoteCommand.part, htargets]
    have hls : ∀ m ∈ r.paths.filter (fun q => [P ++ [x], P ++ [partialName x]].any (· <+: q)),
        P ++ [x] <+: m ∨ P ++ [partialName x] <+: m := fun m hm => by
      simpa using (List.mem_filter.mp hm).2
    have hout : ∀ m ∈ r.paths.filter (fun q => [P ++ [x], P ++ [partialName x]].any (· <+: q)),
        ∀ q, (some d.host, q) ∉ spots d.host P x → ¬ m <+: q := by
      intro m hm q hq hmq
      rcases hls m hm with h | h
      · exact hq (.inl ⟨rfl, h.trans hmq⟩)
      · exact hq (.inr ⟨rfl, h.trans hmq⟩)
    refine Removes.setTree (fun q hq => ?_) (fun q => FileTree.kind_unlinkAll_or _ _ _ _)
      (fun q hq hx => ?_)
    · exact FileTree.kind_unlinkAll_of_outside _ _ (fun m hm => hout m hm q hq)
    · refine FileTree.lookup_unlinkAll _ _ (fun m hm => ⟨hout m hm q hq, ?_⟩)
      rcases hls m hm with h | h
      · exact ne_dropLast h (fun h => hq (.inl ⟨rfl, h⟩)) (fun y h => hx y (.inl ⟨rfl, h⟩))
      · exact ne_dropLast h (fun h => hq (.inr ⟨rfl, h⟩)) (fun y h => hx y (.inr ⟨rfl, h⟩))

/-- `mv` gave the directory that was built the name it is committed under. -/
structure Takes (h : String) (P : Loc) (x : Name) (u w' : World) : Prop where
  free : (u.tree (some h)).isDir (P ++ [x]) = false
  built : (u.tree (some h)).kind (P ++ [partialName x]) = some .dir
  vacant : (u.tree (some h)).vacant (P ++ [x]) = true
  tree : ∃ s, w'.tree = (u.setTree (some h)
    ((u.tree (some h)).move (P ++ [partialName x]) (P ++ [x]) s)).tree
  commits : w'.commits = u.commits ++
    [⟨some h, P ++ [x], fun l => (u.tree (some h)).kind (P ++ [partialName x] ++ l)⟩]

/-- `mv` found a directory of that name, and put the directory that was built into it. -/
structure Nests (h : String) (P : Loc) (x : Name) (u w' : World) : Prop where
  taken : (u.tree (some h)).isDir (P ++ [x]) = true
  vacant : (u.tree (some h)).vacant (P ++ [x] ++ [partialName x]) = true
  tree : ∃ s, w'.tree = (u.setTree (some h)
    ((u.tree (some h)).move (P ++ [partialName x]) (P ++ [x] ++ [partialName x]) s)).tree
  commits : w'.commits = u.commits

theorem mvTarget_eq (t : Fs) (P : Loc) (x : Name) :
    mvTarget t (P ++ [partialName x]) (P ++ [x]) =
      if t.isDir (P ++ [x]) then P ++ [x] ++ [partialName x] else P ++ [x] := by
  simp [mvTarget]

theorem mv_full (hp : d.path.path.At P) (x : Name) {node : RemoteNode} {host : String} (w : World)
    (s : Instant) : RemoteCommand.full node host w s
        (.mv (d.partial_path x.val) (d.final_path x.val)) =
      if renamable (w.tree (some host)) (P ++ [partialName x])
          (mvTarget (w.tree (some host)) (P ++ [partialName x]) (P ++ [x])) then
        ⟨w.remoteMove host (P ++ [partialName x]) (P ++ [x]) s, 0, ""⟩
      else ⟨w, 1, ""⟩ := by
  have hpart : d.partial_path x.val = d.path.sub (partialName x).val := rfl
  simp only [RemoteCommand.full, hpart, final_path, (RemotePath.sub_at hp _).find]

theorem remoteMove_ends {host : String} (x : Name) {w : World} {s : Instant}
    (h : renamable (w.tree (some host)) (P ++ [partialName x])
      (mvTarget (w.tree (some host)) (P ++ [partialName x]) (P ++ [x])) = true) :
    Takes host P x w (w.remoteMove host (P ++ [partialName x]) (P ++ [x]) s) ∨
      Nests host P x w (w.remoteMove host (P ++ [partialName x]) (P ++ [x]) s) := by
  obtain ⟨hbuilt, -, -, hvacant⟩ := renamable_iff.mp h
  rw [World.remoteMove, mvTarget_eq] at *
  cases hdir : (w.tree (some host)).isDir (P ++ [x]) with
  | true =>
    rw [hdir, if_pos rfl] at hvacant
    exact .inr ⟨hdir, hvacant, ⟨s, rfl⟩, rfl⟩
  | false =>
    rw [hdir, if_neg (by simp)] at hvacant
    exact .inl ⟨hdir, hbuilt, hvacant, ⟨s, rfl⟩, rfl⟩

theorem mv_left (hp : d.path.path.At P) (x : Name)
    (h : d.Left (.mv (d.partial_path x.val) (d.final_path x.val)) w w') :
    Same w w' ∨ Takes d.host P x w.next w' ∨ Nests d.host P x w.next w' := by
  rcases h with rfl | ⟨r, rfl⟩
  · exact .inl (refl_of Same w')
  rw [RemoteCommand.cut]
  split_ifs
  · rw [mv_full hp]
    split_ifs with hr
    · exact .inr (remoteMove_ends x hr)
    · exact .inl (same_next w)
  · exact .inl (same_next w)

/-- An `mv` that succeeded did one of the two. -/
theorem mv_ok (hp : d.path.path.At P) (x : Name) {node : RemoteNode} {host : String} {s : Instant}
    (h : (RemoteCommand.full node host w s
      (.mv (d.partial_path x.val) (d.final_path x.val))).status = 0) :
    Takes host P x w (RemoteCommand.full node host w s
        (.mv (d.partial_path x.val) (d.final_path x.val))).world ∨
      Nests host P x w (RemoteCommand.full node host w s
        (.mv (d.partial_path x.val) (d.final_path x.val))).world := by
  rw [mv_full hp] at h ⊢
  split_ifs at h ⊢ with hr
  · exact remoteMove_ends x hr
  · cases h

theorem attemptTransfer_moves {R : World → World → Prop} [Std.Refl R] [IsTrans World R]
    {call : Io CompletedProcess} (h : Moves R call) (argv : Except Exn (List Toml)) :
    Moves R (attemptTransfer argv call) := by
  refine Moves.tryCatch (Moves.bind ?_ (fun _ => Moves.bind h (fun _ => Moves.pure _)))
    (fun e => ?_)
  · intro w
    rw [started_state]
    exact refl_of R w
  · cases e
    all_goals first | exact Moves.pure _ | exact Moves.throw _

theorem attemptTransfer_ok {argv : Except Exn (List Toml)} {call : Io CompletedProcess}
    (h : exec (attemptTransfer argv call) w = (.ok (.ok ()), w')) :
    ∃ proc, exec call w = (.ok proc, w') ∧ proc.returncode = 0 := by
  rw [attemptTransfer, exec_tryCatch] at h
  rcases hr : exec (do
    started argv
    let proc ← call
    pure (if proc.returncode = 0 then .ok ()
      else .error (if stripText proc.stderr ≠ "" then stripText proc.stderr
        else "rsync exited " ++ String.ofList (intText proc.returncode)) : Except String Unit)) w
    with ⟨e | o, u⟩
  · rw [hr] at h
    cases e <;> simp at h
  · rw [hr] at h
    obtain ⟨ho, rfl⟩ := Prod.mk.inj h
    obtain ⟨_, v, hv, hrest⟩ := exec_bind_eq_ok hr
    have hstate := started_state argv w
    rw [hv] at hstate
    obtain rfl : v = w := hstate
    obtain ⟨proc, v', hcall, hpure⟩ := exec_bind_eq_ok hrest
    obtain ⟨hval, rfl⟩ := exec_pure_eq_ok hpure
    refine ⟨proc, hcall, ?_⟩
    rw [Except.ok.inj ho] at hval
    by_contra hne
    rw [if_neg hne] at hval
    cases hval

theorem run_with_retries_moves {R : World → World → Prop} [Std.Refl R] [IsTrans World R]
    {call : Io CompletedProcess} (h : Moves R call) (argv : Except Exn (List Toml)) (n : ℕ)
    (last_error : String) : Moves R (d.run_with_retries argv call n last_error) := by
  induction n generalizing last_error with
  | zero => exact Moves.throw _
  | succ n ih =>
    refine Moves.bind (attemptTransfer_moves h argv) (fun outcome => ?_)
    cases outcome with
    | ok _ => exact Moves.pure _
    | error last_error => exact ih last_error

/-- The last of the attempts succeeded. -/
theorem run_with_retries_ok {R : World → World → Prop} [Std.Refl R] [IsTrans World R]
    {call : Io CompletedProcess} (hmove : Moves R call) {argv : Except Exn (List Toml)} {n : ℕ}
    {last_error : String} (h : exec (d.run_with_retries argv call n last_error) w = (.ok (), w')) :
    ∃ u proc, R w u ∧ exec call u = (.ok proc, w') ∧ proc.returncode = 0 := by
  induction n generalizing w last_error with
  | zero => cases h
  | succ n ih =>
    obtain ⟨outcome, u, hu, h⟩ := exec_bind_eq_ok h
    cases outcome with
    | ok _ =>
      obtain ⟨-, rfl⟩ := exec_pure_eq_ok h
      obtain ⟨proc, hcall, hzero⟩ := attemptTransfer_ok hu
      exact ⟨w, proc, refl_of R w, hcall, hzero⟩
    | error last_error =>
      obtain ⟨v, proc, hv, hcall, hzero⟩ := ih h
      exact ⟨v, proc, trans_of R ((attemptTransfer_moves hmove argv).of_exec hu) hv, hcall, hzero⟩

section

variable {host : String} {src : Path} {dst : RemotePath} {B S : Loc} {exclude : Name → Bool}

theorem rsyncPart_outside (t source : Fs) (a b : Loc) (skip : Loc → Bool) (paths : List Loc)
    (s : Instant) {q : Loc} (hq : ¬ b <+: q) :
    (rsyncPart t source a b skip paths s).kind q = t.kind q := by
  rw [rsyncPart, FileTree.kind_sync_of_outside _ _ _ _ hq, FileTree.kind_unlinkAll_of_outside]
  intro m hm hmq
  exact hq ((of_decide_eq_true (List.mem_filter.mp hm).2).1.trans hmq)

/-- A transfer that could not begin reports a failure. -/
theorem rsync_refused_status {r : Reply} {p : CompletedProcess} (h : (match r.fault with
      | some e => Except.error e
      | none => Except.ok ⟨if r.status = 0 then 23 else r.status, r.stdout, r.stderr⟩) =
    (.ok p : Except Exn CompletedProcess)) : p.returncode ≠ 0 := by
  split at h
  · cases h
  · rw [← Except.ok.inj h]
    dsimp only
    split_ifs with hs
    · decide
    · exact hs

/-- How a transfer of a directory may end. -/
theorem rsync_directory_cases {res : Except Exn CompletedProcess} (hS : src.At S)
    (hB : dst.path.At B) (h : exec (rsync_directory_call host src dst exclude) w = (res, w')) :
    (w' = w.next ∧ ∀ p, res = .ok p → p.returncode ≠ 0) ∨
      w.fs.isDir S = true ∧
        ((w.tree (some host)).isDir B = true ∨
          (w.tree (some host)).kind B = none ∧ (w.tree (some host)).isDir B.dropLast = true) ∧
        (w' = w.next.setTree (some host) ((w.tree (some host)).sync w.fs S B (excludes exclude)
            (fun _ => true)) ∨
          (∃ paths s, w' = w.next.setTree (some host) (rsyncPart (w.tree (some host)) w.fs S B
            (excludes exclude) paths s)) ∧ ∀ p, res = .ok p → p.returncode ≠ 0) := by
  rw [rsync_directory_call, exec_primitive] at h
  simp only [hS.find, hB.find] at h
  by_cases hdir : w.next.fs.isDir S = true ∧ ((w.next.tree (some host)).isDir B = true ∨
      (w.next.tree (some host)).kind B = none ∧ (w.next.tree (some host)).isDir B.dropLast = true)
  · rw [if_pos hdir] at h
    refine .inr ⟨hdir.1, hdir.2, ?_⟩
    cases hf : (w.tape 0).fault with
    | some e =>
      simp only [hf] at h
      obtain ⟨rfl, rfl⟩ := Prod.mk.inj h
      by_cases happ : (w.tape 0).applied = true
      · exact .inl (if_pos happ)
      · exact .inr ⟨⟨_, _, if_neg happ⟩, nofun⟩
    | none =>
      simp only [hf] at h
      by_cases hs : (w.tape 0).status = 0
      · rw [if_pos hs] at h
        exact .inl (Prod.mk.inj h).2.symm
      · rw [if_neg hs] at h
        obtain ⟨rfl, rfl⟩ := Prod.mk.inj h
        by_cases happ : (w.tape 0).applied = true
        · exact .inl (if_pos happ)
        · refine .inr ⟨⟨_, _, if_neg happ⟩, fun p hp => ?_⟩
          rw [← Except.ok.inj hp]
          exact hs
  · rw [if_neg hdir] at h
    obtain ⟨rfl, rfl⟩ := Prod.mk.inj h
    exact .inl ⟨rfl, fun p hp => rsync_refused_status hp⟩

theorem rsync_directory_call_moves (hS : src.At S) (hB : dst.path.At B) :
    Moves (Confined (below (some host) B)) (rsync_directory_call host src dst exclude) := by
  intro w
  refine Confined.of_next ?_
  rcases rsync_directory_cases hS hB (Prod.eta _).symm with ⟨hw, -⟩ | ⟨-, -, hw | ⟨⟨_, _, hw⟩, -⟩⟩
  · rw [hw]
    exact refl_of (Confined _) w.next
  · rw [hw]
    exact Confined.setTree (fun q hq =>
      FileTree.kind_sync_of_outside _ _ _ _ (fun h => hq ⟨rfl, h⟩))
  · rw [hw]
    exact Confined.setTree (fun q hq =>
      rsyncPart_outside _ _ _ _ _ _ _ (fun h => hq ⟨rfl, h⟩))

theorem mvTarget_below (t : Fs) (a b : Loc) : b <+: mvTarget t a b := by
  rw [mvTarget]
  split_ifs
  · exact List.prefix_append _ _
  · exact List.prefix_refl _

/-- How a transfer of a file may end. -/
theorem rsync_file_cases {res : Except Exn CompletedProcess} (hS : src.At S)
    (hB : dst.path.At B) (h : exec (rsync_file_call host src dst) w = (res, w')) :
    (w' = w.next ∧ ∀ p, res = .ok p → p.returncode ≠ 0) ∨
      ∃ data s, w.fs.kind S = some (.file data) ∧
        w' = w.next.setTree (some host)
          ((w.tree (some host)).write (mvTarget (w.tree (some host)) S B) data s) := by
  rw [rsync_file_call, exec_primitive] at h
  simp only [hS.find, hB.find] at h
  split at h
  · next data hdata =>
    by_cases hdir : (w.next.tree (some host)).isDir
        (mvTarget (w.next.tree (some host)) S B).dropLast = true
    · rw [if_pos hdir] at h
      cases hf : (w.tape 0).fault with
      | some e =>
        simp only [hf] at h
        obtain ⟨rfl, rfl⟩ := Prod.mk.inj h
        by_cases happ : (w.tape 0).applied = true
        · exact .inr ⟨data, _, hdata, if_pos happ⟩
        · exact .inl ⟨if_neg happ, nofun⟩
      | none =>
        simp only [hf] at h
        by_cases hs : (w.tape 0).status = 0
        · rw [if_pos hs] at h
          exact .inr ⟨data, _, hdata, (Prod.mk.inj h).2.symm⟩
        · rw [if_neg hs] at h
          obtain ⟨rfl, rfl⟩ := Prod.mk.inj h
          by_cases happ : (w.tape 0).applied = true
          · exact .inr ⟨data, _, hdata, if_pos happ⟩
          · refine .inl ⟨if_neg happ, fun p hp => ?_⟩
            rw [← Except.ok.inj hp]
            exact hs
    · rw [if_neg hdir] at h
      obtain ⟨rfl, rfl⟩ := Prod.mk.inj h
      exact .inl ⟨rfl, fun p hp => rsync_refused_status hp⟩
  · obtain ⟨rfl, rfl⟩ := Prod.mk.inj h
    exact .inl ⟨rfl, fun p hp => rsync_refused_status hp⟩

theorem rsync_file_call_moves (hS : src.At S) (hB : dst.path.At B) :
    Moves (Confined (below (some host) B)) (rsync_file_call host src dst) := by
  intro w
  refine Confined.of_next ?_
  rcases rsync_file_cases hS hB (Prod.eta _).symm with ⟨hw, -⟩ | ⟨data, s, -, hw⟩
  · rw [hw]
    exact refl_of (Confined _) w.next
  · rw [hw]
    refine Confined.setTree (fun q hq => ?_)
    rw [FileTree.kind_write, if_neg]
    · rfl
    · rintro rfl
      exact hq ⟨rfl, mvTarget_below _ _ _⟩

end

/-- Where a store builds. -/
def building (h : String) (P : Loc) (x : Name) : Set Spot :=
  toward (some h) P ∪ below (some h) (P ++ [partialName x])

/-- The path leads to `P`, and the shell takes it and the id `x` as they are written. -/
structure Addresses (d : SSHDestination) (P : Loc) (x : Name) : Prop where
  path : d.path.path.At P
  remote_path : Literal d.remote_path
  id : Literal x.val

namespace Addresses

variable (ha : d.Addresses P x)

include ha

theorem literal_final : Literal (d.final_path x.val).text :=
  RemotePath.literal_sub ha.remote_path ha.id

theorem literal_partial : Literal (d.partial_path x.val).text :=
  RemotePath.literal_sub ha.remote_path (literal_append.mpr ⟨ha.id, literal_suffix⟩)

theorem final_at : (d.final_path x.val).path.At (P ++ [x]) := RemotePath.sub_at ha.path x

theorem partial_at : (d.partial_path x.val).path.At (P ++ [partialName x]) :=
  RemotePath.sub_at ha.path (partialName x)

theorem literal_test :
    (RemoteCommand.test_f ((d.final_path x.val).sub META_FILENAME.val)).Literal :=
  fun p hp => by
    rw [List.mem_singleton.mp hp]
    exact RemotePath.literal_sub ha.literal_final literal_meta

theorem literal_mkdir : (RemoteCommand.mkdir_p d.path).Literal := fun p hp => by
  rw [List.mem_singleton.mp hp]
  exact ha.remote_path

theorem literal_mv :
    (RemoteCommand.mv (d.partial_path x.val) (d.final_path x.val)).Literal := fun p hp => by
  rcases List.mem_cons.mp hp with rfl | hp
  · exact ha.literal_partial
  · rw [List.mem_singleton.mp hp]
    exact ha.literal_final

theorem literal_rm :
    (RemoteCommand.rm_rf (d.final_path x.val) (d.partial_path x.val)).Literal := fun p hp => by
  rcases List.mem_cons.mp hp with rfl | hp
  · exact ha.literal_final
  · rw [List.mem_singleton.mp hp]
    exact ha.literal_partial

end Addresses

/-- The path leads to `P`, and the commands and `rsync` take it to one place: no character of it has
a meaning inside double quotes, and it does not begin with a tilde, which `rsync` alone expands. -/
structure Reached (d : SSHDestination) (P : Loc) : Prop where
  path : d.path.path.At P
  remote_path : Literal d.remote_path
  tilde : d.remote_path.toList.head? ≠ some '~'

theorem Reached.addresses (h : d.Reached P) (hx : Literal x.val) : d.Addresses P x :=
  ⟨h.path, h.remote_path, hx⟩

theorem rsync_directory_moves (ha : d.Addresses P x) {src : Path} {S : Loc} (hS : src.At S) :
    Moves (Confined (below (some d.host) (P ++ [partialName x])))
      (d.rsync_directory src (d.partial_path x.val)) :=
  run_with_retries_moves (rsync_directory_call_moves hS ha.partial_at) _ _ _

theorem send_meta_moves (ha : d.Addresses P x) {src : Path} {S : Loc} (hS : src.At S) :
    Moves (Confined (below (some d.host) (P ++ [partialName x]))) (d.send_meta src x.val) := by
  refine Moves.bind (ask_moves _ _) (fun _ => Moves.ite ?_ (Moves.pure _))
  refine (run_with_retries_moves (rsync_file_call_moves (hS.child META_FILENAME)
    (RemotePath.sub_at ha.partial_at META_FILENAME)) _ _ _).mono (fun _ _ h => h.mono ?_)
  exact below_subset (List.prefix_append _ _)

/-- The rename by which a store ends, at the world it has come to. -/
def Moved (h : String) (P : Loc) (x : Name) (u w' : World) : Prop :=
  Takes h P x u w' ∨ Nests h P x u w'

/-- The manifest was sent last, from the source as it was. -/
def SendsMeta (h : String) (P : Loc) (x : Name) (S : Loc) (w u : World) : Prop :=
  ∀ data, w.fs.kind (S ++ [META_FILENAME]) = some (.file data) →
    (w.tree (some h)).isDir (P ++ [partialName x] ++ [META_FILENAME]) = false →
    (u.tree (some h)).kind (P ++ [partialName x] ++ [META_FILENAME]) = some (.file data)

/-- A transfer of a directory leaves the manifest's place as it was. -/
theorem rsyncPart_meta (t source : Fs) (a b : Loc) (paths : List Loc) (s : Instant) (r : Loc)
    (hr : META_FILENAME ∈ r) :
    (rsyncPart t source a b (excludes (· = META_FILENAME)) paths s).kind (b ++ r) =
      t.kind (b ++ r) := by
  have hskip : excludes (· = META_FILENAME) r = true :=
    List.any_eq_true.mpr ⟨META_FILENAME, hr, by simp⟩
  rw [rsyncPart, FileTree.kind_sync_of_skip _ _ hskip]
  cases hk : t.kind (b ++ r) with
  | none => exact (FileTree.kind_unlinkAll_or _ _ _ _).elim (fun h => h.trans hk) id
  | some k =>
    rw [FileTree.kind_unlinkAll_of_outside, hk]
    intro m hm hmr
    have hheld := (of_decide_eq_true (List.mem_filter.mp hm).2).2.2
    refine hheld (List.any_eq_true.mpr ⟨b ++ r, t.finite _ ?_, ?_⟩)
    · intro hn
      simp [FileTree.kind, hn] at hk
    · have hp : t.present (b ++ r) = true := (FileTree.present_iff _ _).mpr (by rw [hk]; simp)
      simp [hmr, hskip, hp]

theorem sync_meta (t source : Fs) (a b r : Loc) (hr : META_FILENAME ∈ r) :
    (t.sync source a b (excludes (· = META_FILENAME)) (fun _ => true)).kind (b ++ r) =
      t.kind (b ++ r) :=
  FileTree.kind_sync_of_skip _ _ (List.any_eq_true.mpr ⟨META_FILENAME, hr, by simp⟩)

/-- The entries of a name that the transfer of a directory leaves alone. -/
def KeepsExcluded (h : String) (B : Loc) (w w' : World) : Prop :=
  ∀ r, META_FILENAME ∈ r → (w'.tree (some h)).kind (B ++ r) = (w.tree (some h)).kind (B ++ r)

instance (h : String) (B : Loc) : Std.Refl (KeepsExcluded h B) := ⟨fun _ _ _ => rfl⟩

instance (h : String) (B : Loc) : IsTrans World (KeepsExcluded h B) :=
  ⟨fun _ _ _ h h' r hr => (h' r hr).trans (h r hr)⟩

theorem rsync_directory_keeps (ha : d.Addresses P x) {src : Path} {S : Loc} (hS : src.At S) :
    Moves (KeepsExcluded d.host (P ++ [partialName x]))
      (d.rsync_directory src (d.partial_path x.val)) := by
  refine run_with_retries_moves ?_ _ _ _
  intro w r hr
  rcases rsync_directory_cases hS ha.partial_at (Prod.eta _).symm with
    ⟨hw, -⟩ | ⟨-, -, hw | ⟨⟨_, _, hw⟩, -⟩⟩
  · rw [hw]
    rfl
  · rw [hw, World.tree_setTree_self]
    exact sync_meta _ _ _ _ _ hr
  · rw [hw, World.tree_setTree_self]
    exact rsyncPart_meta _ _ _ _ _ _ _ hr

/-- Sending the file at `a` to `b` touches one place, and sends the same file to the same place
the next time. -/
def Sends (h : String) (a b : Loc) (w w' : World) : Prop :=
  w'.fs = w.fs ∧ mvTarget (w'.tree (some h)) a b = mvTarget (w.tree (some h)) a b ∧
    ∀ q, q ≠ mvTarget (w.tree (some h)) a b →
      (w'.tree (some h)).kind q = (w.tree (some h)).kind q

instance (h : String) (a b : Loc) : Std.Refl (Sends h a b) := ⟨fun _ => ⟨rfl, rfl, fun _ _ => rfl⟩⟩

instance (h : String) (a b : Loc) : IsTrans World (Sends h a b) := ⟨fun _ _ _ h h' =>
  ⟨h'.1.trans h.1, h'.2.1.trans h.2.1, fun q hq =>
    (h'.2.2 q (by rw [h.2.1]; exact hq)).trans (h.2.2 q hq)⟩⟩

theorem sends_write (w : World) (h : String) {a : Loc} (ha : a ≠ []) (b : Loc) (data : String)
    (s : ℤ) : Sends h a b w (w.next.setTree (some h)
      ((w.tree (some h)).write (mvTarget (w.tree (some h)) a b) data s)) := by
  have hkind : ∀ q, q ≠ mvTarget (w.tree (some h)) a b →
      (((w.tree (some h)).write (mvTarget (w.tree (some h)) a b) data s).kind q) =
        (w.tree (some h)).kind q := fun q hq => by rw [FileTree.kind_write, if_neg hq]
  refine ⟨World.tree_setTree_ne _ _ (by simp), ?_, fun q hq => ?_⟩
  · rw [World.tree_setTree_self]
    cases hdir : (w.tree (some h)).isDir b with
    | true =>
      have htarget : mvTarget (w.tree (some h)) a b = b ++ a.drop (a.length - 1) := by
        rw [mvTarget, if_pos hdir]
      have hne : b ≠ mvTarget (w.tree (some h)) a b := by
        rw [htarget]
        intro he
        have hlen := congrArg List.length he
        have hpos : 0 < a.length := List.length_pos_iff.mpr ha
        simp only [List.length_append, List.length_drop] at hlen
        omega
      rw [htarget] at hkind hne ⊢
      rw [mvTarget, FileTree.isDir_congr (hkind b hne), if_pos hdir]
    | false =>
      have htarget : mvTarget (w.tree (some h)) a b = b := by
        rw [mvTarget, if_neg (by simp [hdir])]
      rw [htarget, mvTarget, if_neg]
      simp [FileTree.kind_write]
  · rw [World.tree_setTree_self]
    exact hkind q hq

/-- Where `send_meta` puts the manifest. -/
def metaTarget (t : Fs) (P : Loc) (x : Name) : Loc :=
  if t.isDir (P ++ [partialName x] ++ [META_FILENAME]) then
    P ++ [partialName x] ++ [META_FILENAME] ++ [META_FILENAME]
  else P ++ [partialName x] ++ [META_FILENAME]

theorem mvTarget_meta (t : Fs) (S P : Loc) (x : Name) :
    mvTarget t (S ++ [META_FILENAME]) (P ++ [partialName x] ++ [META_FILENAME]) =
      metaTarget t P x := by
  simp [mvTarget, metaTarget]

/-- The manifest is at its place where `send_meta` returned. -/
theorem send_meta_ok (ha : d.Addresses P x) {src : Path} {S : Loc} (hS : src.At S)
    (h : exec (d.send_meta src x.val) w = (.ok (), w')) {data : String}
    (hdata : w.fs.kind (S ++ [META_FILENAME]) = some (.file data)) :
    (∀ q, q ≠ metaTarget (w.tree (some d.host)) P x →
      (w'.tree (some d.host)).kind q = (w.tree (some d.host)).kind q) ∧
    (w'.tree (some d.host)).kind (metaTarget (w.tree (some d.host)) P x) = some (.file data) := by
  obtain ⟨has_meta, v, hv, h⟩ := exec_bind_eq_ok h
  have hreads := LocalDestination.is_file_reads (hS.child META_FILENAME)
  have hsame := hreads.same w
  have hval := hreads.ok w has_meta (by rw [hv])
  rw [hv] at hsame
  obtain rfl : has_meta = true := by
    rw [← Except.ok.inj hval]
    exact (FileTree.isFile_iff _ _).mpr ⟨data, hdata⟩
  have hmoves : Moves (Sends d.host (S ++ [META_FILENAME])
      (P ++ [partialName x] ++ [META_FILENAME])) (rsync_file_call d.host
        (src.child META_FILENAME) ((d.partial_path x.val).sub META_FILENAME.val)) := by
    intro u
    rcases rsync_file_cases (hS.child META_FILENAME)
      (RemotePath.sub_at ha.partial_at META_FILENAME) (Prod.eta _).symm with ⟨hw, -⟩ | ⟨_, _, -, hw⟩
    · rw [hw]
      exact ⟨rfl, rfl, fun _ _ => rfl⟩
    · rw [hw]
      exact sends_write u d.host (by simp) _ _ _
  obtain ⟨u, proc, hu, hcall, hzero⟩ := run_with_retries_ok hmoves h
  rw [← mvTarget_meta _ S]
  have htree : v.tree = w.tree := hsame.tree
  obtain ⟨hfs, htarget, hkind⟩ := hu
  rw [htree] at htarget hkind
  rcases rsync_file_cases (hS.child META_FILENAME)
    (RemotePath.sub_at ha.partial_at META_FILENAME) hcall with ⟨-, hne⟩ | ⟨data', s, hdata', rfl⟩
  · exact absurd hzero (hne proc rfl)
  · rw [hfs, hsame.fs, hdata] at hdata'
    obtain rfl : data = data' := by simpa using hdata'
    rw [World.tree_setTree_self, htarget]
    refine ⟨fun q hq => ?_, by rw [FileTree.kind_write, if_pos rfl]⟩
    rw [FileTree.kind_write, if_neg hq, hkind q hq]

/-- An excluded name is at or below `r`. -/
def Held (t : Fs) (B r : Loc) : Prop :=
  ∃ r', META_FILENAME ∈ r ++ r' ∧ t.kind (B ++ (r ++ r')) ≠ none

theorem excludes_iff {r : Loc} : excludes (· = META_FILENAME) r = true ↔ META_FILENAME ∈ r := by
  rw [excludes, List.any_eq_true]
  exact ⟨fun ⟨x, hx, he⟩ => of_decide_eq_true he ▸ hx, fun h => ⟨_, h, by simp⟩⟩

theorem not_excludes {r : Loc} (hr : META_FILENAME ∉ r) :
    excludes (· = META_FILENAME) r = false := by
  by_contra h
  exact hr (excludes_iff.mp (by simpa using h))

theorem lookup_ne_none {t : Fs} {q : Loc} (h : t.kind q ≠ none) : t.lookup q ≠ none := by
  intro hn
  exact h (by rw [FileTree.kind, hn]; rfl)

theorem holdsSkipped_iff {t : Fs} {B r : Loc} :
    t.holdsSkipped B (excludes (· = META_FILENAME)) (B ++ r) = true ↔ Held t B r := by
  simp only [FileTree.holdsSkipped, List.any_eq_true, decide_eq_true_eq, excludes_iff]
  constructor
  · rintro ⟨m, -, ⟨r', rfl⟩, hmem, hpresent⟩
    refine ⟨r', by simpa using hmem, ?_⟩
    rw [← List.append_assoc]
    exact (FileTree.present_iff _ _).mp hpresent
  · rintro ⟨r', hmem, hk⟩
    rw [← List.append_assoc] at hk
    exact ⟨B ++ r ++ r', t.finite _ (lookup_ne_none hk), List.prefix_append _ _,
      by simpa using hmem,
      (FileTree.present_iff _ _).mpr hk⟩

/-- What is held stays when what the source lacks is removed. -/
theorem unlinkAll_held {t : Fs} (source : Fs) (S : Loc) {B r : Loc} (h : Held t B r)
    (paths : List Loc) (s : ℤ) :
    (t.unlinkAll (paths.filter (fun q => B <+: q ∧ ¬ source.present (S ++ q.drop B.length) ∧
      ¬ t.holdsSkipped B (excludes (· = META_FILENAME)) q)) s).kind (B ++ r) = t.kind (B ++ r) := by
  obtain ⟨r', hmem, hk⟩ := h
  apply FileTree.kind_unlinkAll_of_outside
  intro m hm hmr
  obtain ⟨⟨q, rfl⟩, -, hheld⟩ := of_decide_eq_true (List.mem_filter.mp hm).2
  obtain ⟨l, rfl⟩ := (List.prefix_append_right_inj _).mp hmr
  refine hheld (holdsSkipped_iff.mpr ⟨l ++ r', ?_, ?_⟩)
  · simpa using hmem
  · simpa using hk

/-- What the source lacks stays where it holds an excluded name. -/
structure Spares (h : String) (S B : Loc) (w w' : World) : Prop where
  fs : w'.fs = w.fs
  excluded : ∀ r, META_FILENAME ∈ r →
    (w'.tree (some h)).kind (B ++ r) = (w.tree (some h)).kind (B ++ r)
  held : ∀ r, w.fs.kind (S ++ r) = none → Held (w.tree (some h)) B r →
    (w'.tree (some h)).isDir (B ++ r) = (w.tree (some h)).isDir (B ++ r)

theorem Held.congr {t t' : Fs} {B r : Loc}
    (h : ∀ r, META_FILENAME ∈ r → t'.kind (B ++ r) = t.kind (B ++ r)) :
    Held t' B r ↔ Held t B r :=
  ⟨fun ⟨r', hm, hk⟩ => ⟨r', hm, by rwa [← h _ hm]⟩, fun ⟨r', hm, hk⟩ => ⟨r', hm, by rwa [h _ hm]⟩⟩

instance (h : String) (S B : Loc) : Std.Refl (Spares h S B) :=
  ⟨fun _ => ⟨rfl, fun _ _ => rfl, fun _ _ _ => rfl⟩⟩

instance (h : String) (S B : Loc) : IsTrans World (Spares h S B) := ⟨fun _ _ _ h h' =>
  ⟨h'.fs.trans h.fs, fun r hr => (h'.excluded r hr).trans (h.excluded r hr), fun r hr hheld =>
    (h'.held r (by rw [h.fs, hr]) ((Held.congr h.excluded).mpr hheld)).trans (h.held r hr hheld)⟩⟩

/-- What a transfer that succeeded makes of a place it does not skip. -/
theorem kind_sync_sent (t source : Fs) {S B r : Loc} (hr : META_FILENAME ∉ r) :
    (t.sync source S B (excludes (· = META_FILENAME)) (fun _ => true)).kind (B ++ r) =
      if source.kind (S ++ r) = none ∧ t.isDir (B ++ r) = true ∧ t.holdsSkipped B
        (excludes (· = META_FILENAME)) (B ++ r) = true then some .dir
      else source.kind (S ++ r) := by
  have hskip := not_excludes hr
  cases hs : source.lookup (S ++ r) with
  | some n => simp [FileTree.kind, FileTree.sync, hskip, hs]
  | none =>
    have hnone : source.kind (S ++ r) = none := by rw [FileTree.kind, hs]; rfl
    rw [hnone]
    by_cases hheld : t.isDir (B ++ r) = true ∧
        t.holdsSkipped B (excludes (· = META_FILENAME)) (B ++ r) = true
    · rw [if_pos ⟨rfl, hheld⟩, ← (FileTree.isDir_iff _ _).mp hheld.1, FileTree.kind, FileTree.sync]
      simp only [relTo_append, hskip, hs, if_pos hheld]
      rfl
    · rw [if_neg (fun h => hheld h.2), FileTree.kind, FileTree.sync]
      simp only [relTo_append, hskip, hs, if_neg hheld]
      rfl

theorem rsync_directory_spares (ha : d.Addresses P x) {src : Path} {S : Loc} (hS : src.At S) :
    Moves (Spares d.host S (P ++ [partialName x]))
      (rsync_directory_call d.host src (d.partial_path x.val) (· = META_FILENAME)) := by
  intro w
  rcases rsync_directory_cases hS ha.partial_at (Prod.eta _).symm with
    ⟨hw, -⟩ | ⟨-, -, hw | ⟨⟨paths, s, hw⟩, -⟩⟩
  · rw [hw]
    exact ⟨rfl, fun _ _ => rfl, fun _ _ _ => rfl⟩
  · rw [hw]
    refine ⟨World.tree_setTree_ne _ _ (by simp), fun r hr => ?_, fun r hr hheld => ?_⟩
    · rw [World.tree_setTree_self]
      exact sync_meta _ _ _ _ _ hr
    · rw [World.tree_setTree_self]
      by_cases hmem : META_FILENAME ∈ r
      · exact FileTree.isDir_congr (sync_meta _ _ _ _ _ hmem)
      · have hkind := kind_sync_sent (w.tree (some d.host)) w.fs (S := S)
          (B := P ++ [partialName x]) hmem
        rw [hr, holdsSkipped_iff.mpr hheld] at hkind
        rw [FileTree.isDir, hkind]
        cases hdir : (w.tree (some d.host)).isDir (P ++ [partialName x] ++ r) <;> simp
  · rw [hw]
    refine ⟨World.tree_setTree_ne _ _ (by simp), fun r hr => ?_, fun r hr hheld => ?_⟩
    · rw [World.tree_setTree_self]
      exact rsyncPart_meta _ _ _ _ _ _ _ hr
    · rw [World.tree_setTree_self]
      apply FileTree.isDir_congr
      have hkept := unlinkAll_held w.fs S hheld paths s
      have habsent : w.fs.present (S ++ r) = false := by
        by_contra hp
        exact (FileTree.present_iff _ _).mp (by simpa using hp) hr
      rw [rsyncPart, FileTree.kind_sync_of_unselected _ _ (by simp [habsent]), hkept]

section

-- the proof behind `∈` below, by name
local instance lawfulName : LawfulBEq Name := inferInstance

/-- What is in the building directory when `store` renames it. -/
def received (t source : Fs) (S P : Loc) (x : Name) (data : String) (r : Loc) :
    Option (Kind String) :=
  if P ++ [partialName x] ++ r = metaTarget t P x then some (.file data)
  else if META_FILENAME ∈ r then t.kind (P ++ [partialName x] ++ r)
  else if source.kind (S ++ r) = none ∧ t.isDir (P ++ [partialName x] ++ r) = true ∧
    t.holdsSkipped (P ++ [partialName x]) (excludes (· = META_FILENAME))
      (P ++ [partialName x] ++ r) = true then some .dir
  else source.kind (S ++ r)

end

theorem mkdir_p_moves (ha : d.Addresses P x) :
    Moves (Confined (toward (some d.host) P)) (d.remote_run (.mkdir_p d.path)) := fun _ =>
  (remote_run_left ha.literal_mkdir (Prod.eta _).symm).mkdir_p ha.path

theorem building_fs {h : String} (hc : Confined (building h P x) w w') (q : Loc) :
    w'.fs.kind q = w.fs.kind q := hc.fs_kind (by rintro (⟨hk, -⟩ | ⟨hk, -⟩) <;> cases hk)

/-- Nothing in the building directory is on the way to the destination. -/
theorem toward_building {h : String} (r : Loc) :
    (some h, P ++ [partialName x] ++ r) ∉ toward (some h) P := by
  rintro ⟨-, hq⟩
  have := hq.length_le
  simp only [List.length_append, List.length_singleton] at this
  omega

/-- A transfer failed while building, or it came to the rename. -/
theorem transfer_cases (ha : d.Addresses P x) {src : Path} {S : Loc} (hS : src.At S)
    {res : Except Exn Unit} (h : exec (d.transfer src x.val) w = (res, w')) :
    (Confined (building d.host P x) w w' ∧ res ≠ .ok ()) ∨
      ∃ u, Confined (building d.host P x) w u ∧ Moved d.host P x u w' ∧
        SendsMeta d.host P x S w u := by
  have hway : toward (some d.host) P ⊆ building d.host P x := Set.subset_union_left
  have hinside : below (some d.host) (P ++ [partialName x]) ⊆ building d.host P x :=
    Set.subset_union_right
  rcases exec_bind_cases h with ⟨e, he, rfl⟩ | ⟨_, w₁, h₁, h⟩
  · exact .inl ⟨((mkdir_p_moves ha).of_exec he).mono hway, by simp⟩
  have m₁ := (mkdir_p_moves ha).of_exec h₁
  have c₁ := m₁.mono hway
  rcases exec_bind_cases h with ⟨e, he, rfl⟩ | ⟨_, w₂, h₂, h⟩
  · exact .inl ⟨trans_of _ c₁ (((rsync_directory_moves ha hS).of_exec he).mono hinside), by simp⟩
  have c₂ := trans_of (Confined (building d.host P x)) c₁
    (((rsync_directory_moves ha hS).of_exec h₂).mono hinside)
  rcases exec_bind_cases h with ⟨e, he, rfl⟩ | ⟨_, w₃, h₃, h⟩
  · exact .inl ⟨trans_of _ c₂ (((send_meta_moves ha hS).of_exec he).mono hinside), by simp⟩
  have c₃ := trans_of (Confined (building d.host P x)) c₂
    (((send_meta_moves ha hS).of_exec h₃).mono hinside)
  -- everything up to here was building; what is left is the rename
  have hleft : d.Left (.mv (d.partial_path x.val) (d.final_path x.val)) w₃ w' ∧
      (res = .ok () → Takes d.host P x w₃.next w' ∨ Nests d.host P x w₃.next w') := by
    rcases exec_bind_cases h with ⟨e, he, rfl⟩ | ⟨_, v, hv, hpure⟩
    · exact ⟨remote_run_left ha.literal_mv he, nofun⟩
    · obtain ⟨-, rfl⟩ := Prod.mk.inj hpure
      refine ⟨remote_run_left ha.literal_mv hv, fun _ => ?_⟩
      rcases remote_run_cases ha.literal_mv hv with ⟨s, rfl, hzero, -⟩ | ⟨-, e, he⟩
      · exact mv_ok ha.path x hzero
      · cases he
  by_cases hsame : Same w₃ w' ∧ res ≠ .ok ()
  · exact .inl ⟨trans_of _ c₃ (hsame.1.confined _), hsame.2⟩
  refine .inr ⟨w₃.next, trans_of _ c₃ ((same_next w₃).confined _), ?_, fun data hdata hnotdir => ?_⟩
  · rcases mv_left ha.path x hleft.1 with hs | hmoved
    · exact hleft.2 (by by_contra hne; exact hsame ⟨hs, hne⟩)
    · exact hmoved
  · have hkeeps := (rsync_directory_keeps ha hS).of_exec h₂
    have hdir :
        (w₂.tree (some d.host)).isDir (P ++ [partialName x] ++ [META_FILENAME]) = false := by
      rw [FileTree.isDir_congr (hkeeps [META_FILENAME] (by simp)),
        FileTree.isDir_congr (m₁.kind _ _ (toward_building _)), hnotdir]
    have hsent := send_meta_ok ha hS h₃ ((building_fs c₂ _).trans hdata)
    rw [metaTarget, if_neg (ne_true_of_eq_false hdir)] at hsent
    exact hsent.2

/-- A transfer that returned has put what it received under the name. -/
theorem transfer_ok (ha : d.Addresses P x) {src : Path} {S : Loc} (hS : src.At S) {data : String}
    (hdata : w.fs.kind (S ++ [META_FILENAME]) = some (.file data))
    (h : exec (d.transfer src x.val) w = (.ok (), w')) :
    ∃ u, Confined (building d.host P x) w u ∧ Moved d.host P x u w' ∧
      (∀ r, (u.tree (some d.host)).kind (P ++ [partialName x] ++ r) =
        received (w.tree (some d.host)) w.fs S P x data r) := by
  obtain ⟨_, w₁, h₁, h⟩ := exec_bind_eq_ok h
  obtain ⟨_, w₂, h₂, h⟩ := exec_bind_eq_ok h
  obtain ⟨_, w₃, h₃, h⟩ := exec_bind_eq_ok h
  obtain ⟨_, w₄, h₄, h⟩ := exec_bind_eq_ok h
  obtain rfl : w₄ = w' := (Prod.mk.inj h).2
  have m₁ := (mkdir_p_moves ha).of_exec h₁
  have m₂ := (rsync_directory_moves ha hS).of_exec h₂
  have m₃ := (send_meta_moves ha hS).of_exec h₃
  have c₂ : Confined (building d.host P x) w w₂ :=
    trans_of _ (m₁.mono Set.subset_union_left) (m₂.mono Set.subset_union_right)
  have c₃ : Confined (building d.host P x) w w₃ :=
    trans_of _ c₂ (m₃.mono Set.subset_union_right)
  have hfs₁ : ∀ q, w₁.fs.kind q = w.fs.kind q :=
    building_fs (x := x) (m₁.mono Set.subset_union_left)
  have hstart : ∀ r, (w₁.tree (some d.host)).kind (P ++ [partialName x] ++ r) =
      (w.tree (some d.host)).kind (P ++ [partialName x] ++ r) := fun r =>
    m₁.kind _ _ (toward_building r)
  have hkeeps := (rsync_directory_keeps ha hS).of_exec h₂
  have hexcluded : ∀ r, META_FILENAME ∈ r →
      (w₂.tree (some d.host)).kind (P ++ [partialName x] ++ r) =
        (w.tree (some d.host)).kind (P ++ [partialName x] ++ r) := fun r hr =>
    (hkeeps r hr).trans (hstart r)
  obtain ⟨hother, hmeta⟩ := send_meta_ok ha hS h₃ ((building_fs c₂ _).trans hdata)
  have htarget :
      metaTarget (w₂.tree (some d.host)) P x = metaTarget (w.tree (some d.host)) P x := by
    rw [metaTarget, metaTarget, FileTree.isDir_congr (hexcluded [META_FILENAME] (by simp))]
  rw [htarget] at hother hmeta
  refine ⟨w₃.next, trans_of _ c₃ ((same_next w₃).confined _), ?_, fun r => ?_⟩
  · rcases remote_run_cases ha.literal_mv h₄ with ⟨s, rfl, hzero, -⟩ | ⟨-, e, he⟩
    · exact mv_ok ha.path x hzero
    · cases he
  rw [World.tree_next, received]
  split_ifs with hr hmem hheld
  · rw [hr, hmeta]
  · rw [hother _ hr, hexcluded r hmem]
  all_goals
    -- what the last attempt of the bulk transfer left here
    rw [hother _ hr]
    obtain ⟨u, proc, hu, hcall, hzero⟩ := run_with_retries_ok (rsync_directory_spares ha hS) h₂
    have hsync : (w₂.tree (some d.host)) = (u.tree (some d.host)).sync u.fs S
        (P ++ [partialName x]) (excludes (· = META_FILENAME)) (fun _ => true) := by
      rcases rsync_directory_cases hS ha.partial_at hcall with
        ⟨-, hne⟩ | ⟨-, -, hw | ⟨-, hne⟩⟩
      · exact absurd hzero (hne proc rfl)
      · rw [hw, World.tree_setTree_self]
      · exact absurd hzero (hne proc rfl)
    have hsource : u.fs.kind (S ++ r) = w.fs.kind (S ++ r) := by rw [hu.fs, hfs₁]
    have hskipped : (u.tree (some d.host)).holdsSkipped (P ++ [partialName x])
        (excludes (· = META_FILENAME)) (P ++ [partialName x] ++ r) =
        (w.tree (some d.host)).holdsSkipped (P ++ [partialName x])
          (excludes (· = META_FILENAME)) (P ++ [partialName x] ++ r) := by
      rw [Bool.eq_iff_iff, holdsSkipped_iff, holdsSkipped_iff]
      exact (Held.congr hu.excluded).trans (Held.congr (fun r _ => hstart r))
    have hdir : w.fs.kind (S ++ r) = none →
        (w.tree (some d.host)).holdsSkipped (P ++ [partialName x])
          (excludes (· = META_FILENAME)) (P ++ [partialName x] ++ r) = true →
        (u.tree (some d.host)).isDir (P ++ [partialName x] ++ r) =
          (w.tree (some d.host)).isDir (P ++ [partialName x] ++ r) := fun hn hh => by
      rw [hu.held r ((hfs₁ _).trans hn)
        ((Held.congr (fun r _ => hstart r)).mpr (holdsSkipped_iff.mp hh)),
        FileTree.isDir_congr (hstart r)]
    rw [hsync, kind_sync_sent _ _ hmem, hsource, hskipped]
  · rw [if_pos ⟨hheld.1, by rw [hdir hheld.1 hheld.2.2]; exact hheld.2.1, hheld.2.2⟩]
  · rw [if_neg]
    rintro ⟨hn, hd, hh⟩
    exact hheld ⟨hn, by rw [← hdir hn hh]; exact hd, hh⟩

/-- The answer about the manifest is true, or `ssh` failed. -/
theorem remote_file_exists_ok (ha : d.Addresses P x) {complete : Bool}
    (h : exec (d.remote_file_exists ((d.final_path x.val).sub META_FILENAME.val)) w =
      (.ok complete, w')) : Same w w' ∧
      (complete = (w.tree (some d.host)).isFile (P ++ [x] ++ [META_FILENAME]) ∨
        complete = false ∧ (w.tape 0).status ≠ 0 ∧ (w.tape 0).fault = none) := by
  obtain ⟨proc, u, hu, hpure⟩ := exec_bind_eq_ok h
  obtain ⟨rfl, rfl⟩ := exec_pure_eq_ok hpure
  rcases remote_process_cases ha.literal_test hu with ⟨s, -, rfl, hres⟩ | ⟨hleft, hne⟩
  · refine ⟨same_next w, .inl ?_⟩
    rw [Except.ok.inj hres]
    have hfind := (RemotePath.sub_at ha.final_at META_FILENAME).find (w.tree (some d.host))
    have hlook : ((d.final_path x.val).sub META_FILENAME.val).path.isFileIn
        (w.tree (some d.host)) = (w.tree (some d.host)).isFile (P ++ [x] ++ [META_FILENAME]) := by
      rw [Path.isFileIn, hfind]
      rfl
    rw [RemoteCommand.full, World.tree_next, hlook]
    cases (w.tree (some d.host)).isFile (P ++ [x] ++ [META_FILENAME]) <;> rfl
  · obtain ⟨hcode, hstatus, hfault⟩ := hne proc rfl
    exact ⟨hleft.test_f, .inr ⟨by simp [hcode], hstatus, hfault⟩⟩

/-- A store only asked, or it went on to the transfer: for lack of a manifest, or because `ssh`
failed to tell. -/
theorem store_cases (ha : d.Addresses P x) (src : Path) {res : Except Exn Unit}
    (h : exec (d.store src x.val) w = (res, w')) :
    (Same w w' ∧ (res = .ok () →
        (w.tree (some d.host)).isFile (P ++ [x] ++ [META_FILENAME]) = true)) ∨
      ∃ v, Same w v ∧ exec (d.transfer src x.val) v = (res, w') ∧
        ((w.tree (some d.host)).isFile (P ++ [x] ++ [META_FILENAME]) = false ∨
          (w.tape 0).status ≠ 0 ∧ (w.tape 0).fault = none) := by
  rcases exec_bind_cases h with ⟨e, he, rfl⟩ | ⟨complete, v, hv, h⟩
  · refine .inl ⟨?_, nofun⟩
    rcases exec_bind_cases he with ⟨e', he', -⟩ | ⟨proc, u, hu, hpure⟩
    · rcases remote_process_cases ha.literal_test he' with ⟨s, -, -, hres⟩ | ⟨hleft, -⟩
      · cases hres
      · exact hleft.test_f
    · cases hpure
  · obtain ⟨hsame, hanswer⟩ := remote_file_exists_ok ha hv
    cases complete with
    | true =>
      obtain rfl : v = w' := (Prod.mk.inj h).2
      refine .inl ⟨hsame, fun _ => ?_⟩
      rcases hanswer with hfile | ⟨hfalse, -⟩
      · exact hfile.symm
      · cases hfalse
    | false =>
      refine .inr ⟨v, hsame, h, ?_⟩
      rcases hanswer with hfile | ⟨-, hfailed⟩
      · exact .inl hfile.symm
      · exact .inr hfailed

end SSHDestination

end MbKeeper
