import MbKeeper.Retrying
import MbKeeper.Copies
import MbKeeper.Listings
import MbKeeper.RemoteWords

/-!
# Transfers that are tried again

Each of the two transfers of a store is attempted until `rsync` reports
success, `retries + 1` times at most. An attempt that fails may leave anything
of the source in the building directory, but the directory stays one that the
next attempt can bring in line. So failures up to that number cost nothing, and
one more of either transfer fails the store with the text of the last.
-/
namespace MbKeeper

/-- The call ends well. -/
def Reply.Works (r : Reply) : Prop := r.fault = none ∧ r.status = 0

/-- The process of the call cannot be started or is lost, or it ends with another code than 0. -/
def Reply.Fails (r : Reply) : Prop :=
  (∃ m, r.fault = some (.os m) ∨ r.fault = some (.subprocess m)) ∨
    r.fault = none ∧ r.status ≠ 0

/-- What the call returns or raises when it comes to nothing else. -/
def Reply.answered (r : Reply) : Except Exn CompletedProcess :=
  match r.fault with
  | some e => .error e
  | none => .ok ⟨r.status, r.stdout, r.stderr⟩

/-- What a store says of an attempt that failed so. -/
def Reply.failure (r : Reply) : String :=
  match r.fault with
  | some e => e.str
  | none => if stripText r.stderr ≠ "" then stripText r.stderr
    else "rsync exited " ++ String.ofList (intText r.status)

/-- A process can be started with these arguments. -/
def Starts (argv : Except Exn (List Toml)) : Prop := ∀ w, exec (started argv) w = (.ok (), w)

theorem starts_of_strings {argv : List Toml} {args : List String}
    (hargs : argvStrings argv = .ok args) (hnul : args.any hasNul = false) :
    Starts (.ok argv) := by
  intro w
  rw [started_of_strings hargs hnul]
  rfl

namespace SSHDestination

variable {d : SSHDestination} {P S : Loc} {x : Name} {src : Path} {w w' : World}

theorem run_with_retries_eq (argv : Except Exn (List Toml)) (call : Io CompletedProcess) (n : ℕ)
    (last_error : String) : d.run_with_retries argv call n last_error =
      retry (attemptTransfer argv call) (fun last_error => throw
        (.destination s!"destination '{d.name}': rsync failed after retries: {last_error}"))
        n last_error := by
  induction n generalizing last_error with
  | zero => rfl
  | succ n ih =>
    rw [run_with_retries, retry]
    congr 1
    funext outcome
    cases outcome with
    | ok _ => rfl
    | error last_error => exact ih last_error

section

variable {argv : Except Exn (List Toml)} {call : Io CompletedProcess}

theorem attempt_succeeds (hstart : Starts argv) {proc : CompletedProcess}
    (h : exec call w = (.ok proc, w')) (hzero : proc.returncode = 0) :
    exec (attemptTransfer argv call) w = (.ok (.ok ()), w') := by
  rw [attemptTransfer, exec_tryCatch, exec_bind_ok (hstart w), exec_bind_ok h, exec_pure,
    if_pos hzero]

theorem attempt_fails (hstart : Starts argv) {r : Reply} (hr : r.Fails)
    (h : exec call w = (r.answered, w')) :
    exec (attemptTransfer argv call) w = (.ok (.error r.failure), w') := by
  rw [attemptTransfer, exec_tryCatch, exec_bind_ok (hstart w)]
  rcases hr with ⟨m, hf | hf⟩ | ⟨hf, hs⟩
  · rw [Reply.answered, hf] at h
    rw [exec_bind_error h, Reply.failure, hf]
    rfl
  · rw [Reply.answered, hf] at h
    rw [exec_bind_error h, Reply.failure, hf]
    rfl
  · rw [Reply.answered, hf] at h
    rw [exec_bind_ok h, exec_pure, if_neg hs, Reply.failure, hf]

end

/-- A transfer of a directory whose reply says that it failed. -/
theorem rsync_directory_failure {host : String} {dst : RemotePath} {B : Loc}
    {exclude : Name → Bool} {res : Except Exn CompletedProcess} (hS : src.At S)
    (hB : dst.path.At B) (hr : (w.tape 0).Fails)
    (h : exec (rsync_directory_call host src dst exclude) w = (res, w')) :
    res = (w.tape 0).answered := by
  rw [rsync_directory_call, exec_primitive] at h
  simp only [hS.find, hB.find] at h
  rw [Reply.answered]
  rcases hr with ⟨m, hf | hf⟩ | ⟨hf, hs⟩
  · simp only [hf] at h ⊢
    split_ifs at h <;> exact (Prod.mk.inj h).1.symm
  · simp only [hf] at h ⊢
    split_ifs at h <;> exact (Prod.mk.inj h).1.symm
  · simp only [hf, if_neg hs] at h ⊢
    split_ifs at h <;> exact (Prod.mk.inj h).1.symm

theorem rsync_file_failure {host : String} {dst : RemotePath} {B : Loc}
    {res : Except Exn CompletedProcess} (hS : src.At S) (hB : dst.path.At B)
    (hr : (w.tape 0).Fails) (h : exec (rsync_file_call host src dst) w = (res, w')) :
    res = (w.tape 0).answered := by
  rw [rsync_file_call, exec_primitive] at h
  simp only [hS.find, hB.find] at h
  rw [Reply.answered]
  rcases hr with ⟨m, hf | hf⟩ | ⟨hf, hs⟩
  · simp only [hf] at h ⊢
    split at h
    · split_ifs at h <;> exact (Prod.mk.inj h).1.symm
    · exact (Prod.mk.inj h).1.symm
  · simp only [hf] at h ⊢
    split at h
    · split_ifs at h <;> exact (Prod.mk.inj h).1.symm
    · exact (Prod.mk.inj h).1.symm
  · simp only [hf, if_neg hs] at h ⊢
    split at h
    · split_ifs at h <;> exact (Prod.mk.inj h).1.symm
    · exact (Prod.mk.inj h).1.symm

/-- The source is the one of `w₀`, and the directory at `B` can be brought in line with it. -/
structure Receptive (h : String) (B : Loc) (w₀ w : World) : Prop where
  fs : w.fs = w₀.fs
  way : (w.tree (some h)).isDir B.dropLast = true
  place : (w.tree (some h)).isDir B = true ∨ (w.tree (some h)).kind B = none

theorem kind_sync_root (t source : Fs) {B : Loc} (skip sel : Loc → Bool)
    (hdir : source.kind S = some .dir) :
    (t.sync source S B skip sel).kind B = some .dir ∨
      (t.sync source S B skip sel).kind B = t.kind B := by
  have hB : relTo B B = some [] := by simpa using relTo_append B []
  cases hs : source.lookup S with
  | none => simp [FileTree.kind, hs] at hdir
  | some n =>
    have hlook : (t.sync source S B skip sel).lookup B =
        if skip [] = true ∨ sel [] = false then t.lookup B else some n := by
      simp [FileTree.sync, hB, hs]
    by_cases hsel : skip [] = true ∨ sel [] = false
    · rw [if_pos hsel] at hlook
      exact .inr (FileTree.kind_eq_of_lookup_eq hlook)
    · rw [if_neg hsel, ← hs] at hlook
      exact .inl ((FileTree.kind_eq_of_lookup_eq hlook).trans hdir)

/-- What a transfer that stopped left of the directory itself. -/
theorem rsyncPart_root {t source : Fs} {B : Loc} (exclude : Name → Bool) (paths : List Loc)
    (s : Instant) (hdir : source.kind S = some .dir)
    (hplace : t.isDir B = true ∨ t.kind B = none) :
    (rsyncPart t source S B (excludes exclude) paths s).isDir B = true ∨
      (rsyncPart t source S B (excludes exclude) paths s).kind B = none := by
  rw [FileTree.isDir_iff] at hplace ⊢
  rw [rsyncPart]
  rcases kind_sync_root _ source _ _ hdir with hk | hk
  · exact .inl hk
  · rw [hk]
    rcases FileTree.kind_unlinkAll_or t _ B s with hu | hu
    · rwa [hu]
    · exact .inr hu

theorem Receptive.rsync_directory {host : String} {dst : RemotePath} {B : Loc} {w₀ : World}
    {res : Except Exn CompletedProcess} (hI : Receptive host B w₀ w) (hB : dst.path.At B)
    (hne : B ≠ []) (hS : src.At S) (hdir : w₀.fs.kind S = some .dir)
    (h : exec (rsync_directory_call host src dst (· = META_FILENAME)) w = (res, w')) :
    Receptive host B w₀ w' ∧ w'.tape = w.next.tape := by
  have hup : ¬ B <+: B.dropLast := by
    intro hle
    have hlength := hle.length_le
    rw [List.length_dropLast] at hlength
    have hpos := List.length_pos_of_ne_nil hne
    omega
  have hroot : META_FILENAME ∉ ([] : Loc) := by simp
  rcases rsync_directory_cases hS hB h with ⟨rfl, -⟩ | ⟨-, -, rfl | ⟨⟨paths, s, rfl⟩, -⟩⟩
  · exact ⟨⟨hI.fs, hI.way, hI.place⟩, rfl⟩
  · refine ⟨⟨(World.tree_setTree_ne _ _ (by simp)).trans hI.fs, ?_, .inl ?_⟩, rfl⟩
    · rw [World.tree_setTree_self, FileTree.isDir_congr
        (FileTree.kind_sync_of_outside _ _ _ _ hup), hI.way]
    · have hsent := kind_sync_sent (w.tree (some host)) w.fs (S := S) (B := B) hroot
      rw [List.append_nil, List.append_nil, hI.fs, hdir, if_neg (by simp)] at hsent
      rw [World.tree_setTree_self, FileTree.isDir_iff, hI.fs]
      exact hsent
  · refine ⟨⟨(World.tree_setTree_ne _ _ (by simp)).trans hI.fs, ?_, ?_⟩, rfl⟩
    · rw [World.tree_setTree_self, FileTree.isDir_congr (rsyncPart_outside _ _ _ _ _ _ _ hup),
        hI.way]
    · rw [World.tree_setTree_self]
      exact rsyncPart_root _ _ _ (by rw [hI.fs, hdir]) hI.place

theorem Receptive.rsync_directory_works {host : String} {dst : RemotePath} {B : Loc} {w₀ : World}
    (hI : Receptive host B w₀ w) (hB : dst.path.At B) (hS : src.At S)
    (hdir : w₀.fs.kind S = some .dir) (hr : (w.tape 0).Works) :
    ∃ proc w', exec (rsync_directory_call host src dst (· = META_FILENAME)) w = (.ok proc, w') ∧
      proc.returncode = 0 ∧ w'.tree = (w.next.setTree (some host)
        ((w.tree (some host)).sync w.fs S B (excludes (· = META_FILENAME))
          (fun _ => true))).tree := by
  have hready : w.next.fs.isDir S = true ∧ ((w.next.tree (some host)).isDir B = true ∨
      (w.next.tree (some host)).kind B = none ∧
        (w.next.tree (some host)).isDir B.dropLast = true) := by
    refine ⟨?_, hI.place.imp id (fun h => ⟨h, hI.way⟩)⟩
    rw [FileTree.isDir_iff, World.fs_next, hI.fs, hdir]
  rw [rsync_directory_call, exec_primitive]
  simp only [hS.find, hB.find]
  rw [if_pos hready, hr.1]
  dsimp only
  rw [if_pos hr.2]
  exact ⟨_, _, rfl, rfl, rfl⟩

/-- Where the building directory is there, the manifest can be sent into it. -/
theorem Receptive.rsync_file {host : String} {dst : RemotePath} {B : Loc} {w₀ : World}
    {res : Except Exn CompletedProcess} (hI : Receptive host B w₀ w)
    (hthere : (w.tree (some host)).isDir B = true) (hS : src.At S)
    (hB : dst.path.At (B ++ [META_FILENAME]))
    (h : exec (rsync_file_call host src dst) w = (res, w')) :
    (Receptive host B w₀ w' ∧ (w'.tree (some host)).isDir B = true) ∧
      w'.tape = w.next.tape := by
  rcases rsync_file_cases hS hB h with ⟨rfl, -⟩ | ⟨data, s, -, rfl⟩
  · exact ⟨⟨⟨hI.fs, hI.way, hI.place⟩, hthere⟩, rfl⟩
  · have hbelow := mvTarget_below (w.tree (some host)) S (B ++ [META_FILENAME])
    have hkeep (q : Loc) (hq : q <+: B) : ((w.next.setTree (some host) ((w.tree (some host)).write
        (mvTarget (w.tree (some host)) S (B ++ [META_FILENAME])) data s)).tree
          (some host)).isDir q =
          (w.tree (some host)).isDir q := by
      rw [World.tree_setTree_self]
      refine FileTree.isDir_congr ?_
      rw [FileTree.kind_write, if_neg]
      rintro rfl
      have hlength := (hbelow.trans hq).length_le
      rw [List.length_append, List.length_singleton] at hlength
      omega
    have hdir := (hkeep B (List.prefix_refl B)).trans hthere
    have hway := (hkeep B.dropLast (List.dropLast_prefix B)).trans hI.way
    exact ⟨⟨⟨(World.tree_setTree_ne _ _ (by simp)).trans hI.fs, hway, .inl hdir⟩, hdir⟩, rfl⟩

theorem rsync_file_works {host : String} {dst : RemotePath} {B : Loc} {data : String}
    (hthere : (w.tree (some host)).isDir B = true) (hS : src.At (S ++ [META_FILENAME]))
    (hB : dst.path.At (B ++ [META_FILENAME]))
    (hdata : w.fs.kind (S ++ [META_FILENAME]) = some (.file data)) (hr : (w.tape 0).Works) :
    ∃ proc w', exec (rsync_file_call host src dst) w = (.ok proc, w') ∧ proc.returncode = 0 := by
  have hplace : (w.next.tree (some host)).isDir
      (mvTarget (w.next.tree (some host)) (S ++ [META_FILENAME])
        (B ++ [META_FILENAME])).dropLast = true := by
    rw [mvTarget, World.tree_next]
    split_ifs with hdir
    · -- a directory of that name is in the way, and takes the file
      simpa using hdir
    · simpa using hthere
  rw [rsync_file_call, exec_primitive]
  simp only [hS.find, hB.find, World.fs_next, hdata]
  rw [if_pos hplace, hr.1]
  dsimp only
  rw [if_pos hr.2]
  exact ⟨_, _, rfl, rfl⟩

/-- As long as the replies fail, so do the attempts, and `I` stays. -/
theorem failing_replies {argv : Except Exn (List Toml)} {call : Io CompletedProcess}
    {I : World → Prop} (hstart : Starts argv)
    (hcall : ∀ v res v', I v → exec call v = (res, v') →
      (I v' ∧ v'.tape = v.next.tape) ∧ ((v.tape 0).Fails → res = (v.tape 0).answered))
    {j : ℕ} (hw : I w) (hfails : ∀ i < j, (w.tape i).Fails) :
    ∃ u, Failing (attemptTransfer argv call) ((List.range j).map (fun i => (w.tape i).failure)) w
      u ∧ I u ∧ ∀ m, u.tape m = w.tape (j + m) := by
  refine failing_range (fun n v => I v ∧ ∀ m, v.tape m = w.tape (n + m)) _
    (fun n hn v ⟨hI, htape⟩ => ?_) ⟨hw, fun m => by rw [Nat.zero_add]⟩
  obtain ⟨⟨hI', hnext⟩, hanswered⟩ := hcall v _ _ hI (Prod.eta (exec call v)).symm
  have hreply : v.tape 0 = w.tape n := htape 0
  have hr : (v.tape 0).Fails := by
    rw [hreply]
    exact hfails n hn
  have hexec : exec call v = ((v.tape 0).answered, (exec call v).2) := Prod.ext (hanswered hr) rfl
  refine ⟨_, ?_, hI', fun m => ?_⟩
  · rw [← hreply]
    exact attempt_fails hstart hr hexec
  · have hstep : v.next.tape m = v.tape (m + 1) := rfl
    rw [hnext, hstep, htape]
    congr 1
    omega

/-- The arguments of the processes of a store are ones that processes can be started with. -/
structure Launchable (d : SSHDestination) (src : Path) (backup_id : String) : Prop where
  commands : ∀ cmd ∈ d.commands backup_id, d.Launches cmd
  directory : Starts (build_rsync_argv d.rsync_path d.ssh_argv src
    (d.user_host ++ ":" ++ (d.partial_path backup_id).text) d.bwlimit_kbps [META_FILENAME.val])
  manifest : Starts (build_rsync_file_argv d.rsync_path d.ssh_argv (src.child META_FILENAME)
    (d.user_host ++ ":" ++ ((d.partial_path backup_id).sub META_FILENAME.val).text))

/-- The bulk transfer outlives as many failures as there are retries. -/
theorem rsync_directory_survives (ha : d.Addresses P x) (hlaunch : d.Launchable src x.val)
    (hS : src.At S) (hdir : w.fs.kind S = some .dir)
    (hI : Receptive d.host (P ++ [partialName x]) w w) {j : ℕ} (hj : j ≤ d.retries)
    (hfails : ∀ i < j, (w.tape i).Fails) (hworks : (w.tape j).Works) :
    ∃ u, exec (d.rsync_directory src (d.partial_path x.val)) w = (.ok (), u) ∧
      Receptive d.host (P ++ [partialName x]) w u ∧
      (u.tree (some d.host)).isDir (P ++ [partialName x]) = true ∧
      ∀ m, u.tape m = w.tape (j + 1 + m) := by
  have hne : P ++ [partialName x] ≠ [] := by simp
  obtain ⟨v, hfailing, hv, htape⟩ := failing_replies hlaunch.directory
    (fun v res v' hv h => ⟨hv.rsync_directory ha.partial_at hne hS hdir h,
      fun hr => rsync_directory_failure hS ha.partial_at hr h⟩) hI hfails
  have hr : (v.tape 0).Works := by rwa [htape, Nat.add_zero]
  obtain ⟨proc, u, hcall, hzero, htree⟩ := hv.rsync_directory_works ha.partial_at hS hdir hr
  obtain ⟨hu, hnext⟩ := hv.rsync_directory ha.partial_at hne hS hdir hcall
  have hok := attempt_succeeds hlaunch.directory hcall hzero
  refine ⟨u, ?_, hu, ?_, fun m => ?_⟩
  · rw [rsync_directory, run_with_retries_eq]
    exact hfailing.succeeds hok (by simpa using Nat.lt_succ_of_le hj) _
  · have hroot : META_FILENAME ∉ ([] : Loc) := by simp
    have hsent := kind_sync_sent (v.tree (some d.host)) v.fs (S := S)
      (B := P ++ [partialName x]) hroot
    rw [List.append_nil, List.append_nil, hv.fs, hdir, if_neg (by simp)] at hsent
    rw [FileTree.isDir_iff, htree, World.tree_setTree_self, hv.fs]
    exact hsent
  · have hstep : v.next.tape m = v.tape (m + 1) := rfl
    rw [hnext, hstep, htape]
    congr 1
    omega

/-- The manifest is there to be sent, and as long as the replies fail its attempts do. -/
theorem send_meta_failing (ha : d.Addresses P x) (hlaunch : d.Launchable src x.val)
    (hS : src.At S) {data : String} (hdata : w.fs.kind (S ++ [META_FILENAME]) = some (.file data))
    (hI : Receptive d.host (P ++ [partialName x]) w w)
    (hthere : (w.tree (some d.host)).isDir (P ++ [partialName x]) = true)
    (hlook : (w.tape 0).fault = none) {k : ℕ} (hfails : ∀ i < k, (w.tape (1 + i)).Fails) :
    exec (is_file (src.child META_FILENAME)) w = (.ok true, w.next) ∧
    ∃ v, Failing (attemptTransfer
        (build_rsync_file_argv d.rsync_path d.ssh_argv (src.child META_FILENAME)
          (d.user_host ++ ":" ++ ((d.partial_path x.val).sub META_FILENAME.val).text))
        (rsync_file_call d.host (src.child META_FILENAME)
          ((d.partial_path x.val).sub META_FILENAME.val)))
        ((List.range k).map (fun i => (w.tape (1 + i)).failure)) w.next v ∧
      (Receptive d.host (P ++ [partialName x]) w v ∧
        (v.tree (some d.host)).isDir (P ++ [partialName x]) = true) ∧
      ∀ m, v.tape m = w.tape (1 + k + m) := by
  have hB := RemotePath.sub_at ha.partial_at META_FILENAME
  have hmeta := hS.child META_FILENAME
  have hthere_file : (src.child META_FILENAME).isFileIn w.fs = true := by
    rw [Path.isFileIn, hmeta.find]
    exact (FileTree.isFile_iff _ _).mpr ⟨data, hdata⟩
  have hlooked : exec (is_file (src.child META_FILENAME)) w = (.ok true, w.next) := by
    rw [is_file, exec_ask, hlook, World.fs_next, hthere_file]
  have hI' : Receptive d.host (P ++ [partialName x]) w w.next ∧
      (w.next.tree (some d.host)).isDir (P ++ [partialName x]) = true :=
    ⟨⟨hI.fs, hI.way, hI.place⟩, hthere⟩
  have hnext (m : ℕ) : w.next.tape m = w.tape (1 + m) := by
    rw [Nat.add_comm]
    rfl
  have hcall : ∀ v res v', Receptive d.host (P ++ [partialName x]) w v ∧
      (v.tree (some d.host)).isDir (P ++ [partialName x]) = true →
      exec (rsync_file_call d.host (src.child META_FILENAME)
        ((d.partial_path x.val).sub META_FILENAME.val)) v = (res, v') →
      ((Receptive d.host (P ++ [partialName x]) w v' ∧
        (v'.tree (some d.host)).isDir (P ++ [partialName x]) = true) ∧ v'.tape = v.next.tape) ∧
          ((v.tape 0).Fails → res = (v.tape 0).answered) := by
    intro v res v' hv h
    exact ⟨hv.1.rsync_file hv.2 hmeta hB h, fun hr => rsync_file_failure hmeta hB hr h⟩
  obtain ⟨v, hfailing, hv, htape⟩ := failing_replies hlaunch.manifest
    hcall hI' (fun i hi => by rw [hnext]; exact hfails i hi)
  simp only [hnext] at hfailing
  refine ⟨hlooked, v, hfailing, hv, fun m => ?_⟩
  rw [htape, hnext, Nat.add_assoc]

/-- So does the transfer of the manifest. -/
theorem send_meta_survives (ha : d.Addresses P x) (hlaunch : d.Launchable src x.val)
    (hS : src.At S) {data : String} (hdata : w.fs.kind (S ++ [META_FILENAME]) = some (.file data))
    (hI : Receptive d.host (P ++ [partialName x]) w w)
    (hthere : (w.tree (some d.host)).isDir (P ++ [partialName x]) = true) {k : ℕ}
    (hk : k ≤ d.retries) (hlook : (w.tape 0).fault = none)
    (hfails : ∀ i < k, (w.tape (1 + i)).Fails) (hworks : (w.tape (1 + k)).Works) :
    ∃ u, exec (d.send_meta src x.val) w = (.ok (), u) ∧
      Receptive d.host (P ++ [partialName x]) w u ∧
      (u.tree (some d.host)).isDir (P ++ [partialName x]) = true ∧
      ∀ m, u.tape m = w.tape (1 + k + 1 + m) := by
  have hB := RemotePath.sub_at ha.partial_at META_FILENAME
  have hmeta := hS.child META_FILENAME
  obtain ⟨hlooked, v, hfailing, ⟨hv, hvdir⟩, htape⟩ :=
    send_meta_failing ha hlaunch hS hdata hI hthere hlook hfails
  have hr : (v.tape 0).Works := by rwa [htape, Nat.add_zero]
  obtain ⟨proc, u, hcall, hzero⟩ := rsync_file_works hvdir hmeta hB (by rw [hv.fs, hdata]) hr
  obtain ⟨⟨hu, hudir⟩, hlast⟩ := hv.rsync_file hvdir hmeta hB hcall
  have hok := attempt_succeeds hlaunch.manifest hcall hzero
  refine ⟨u, ?_, hu, hudir, fun m => ?_⟩
  · rw [send_meta, exec_bind_ok hlooked, if_pos rfl, rsync_meta_file, run_with_retries_eq]
    exact hfailing.succeeds hok (by simpa using Nat.lt_succ_of_le hk) _
  · have hstep : v.next.tape m = v.tape (m + 1) := rfl
    rw [hlast, hstep, htape]
    congr 1
    omega

/-- What a store says when the last attempt of a transfer failed so. -/
def givenUp (d : SSHDestination) (r : Reply) : Exn :=
  .destination s!"destination '{d.name}': rsync failed after retries: {r.failure}"

/-- One failure more than there are retries, and the bulk transfer is given up. -/
theorem rsync_directory_gives_up (ha : d.Addresses P x) (hlaunch : d.Launchable src x.val)
    (hS : src.At S) (hdir : w.fs.kind S = some .dir)
    (hI : Receptive d.host (P ++ [partialName x]) w w)
    (hfails : ∀ i ≤ d.retries, (w.tape i).Fails) :
    ∃ u, exec (d.rsync_directory src (d.partial_path x.val)) w =
        (.error (d.givenUp (w.tape d.retries)), u) ∧
      ∀ m, u.tape m = w.tape (d.retries + 1 + m) := by
  have hne : P ++ [partialName x] ≠ [] := by simp
  obtain ⟨u, hfailing, -, hspent⟩ := failing_replies hlaunch.directory
    (fun v res v' hv h => ⟨hv.rsync_directory ha.partial_at hne hS hdir h,
      fun hr => rsync_directory_failure hS ha.partial_at hr h⟩) hI
    (fun i hi => hfails i (Nat.lt_succ_iff.mp hi))
  refine ⟨u, ?_, hspent⟩
  rw [rsync_directory, run_with_retries_eq, hfailing.gives_up (by simp), List.range_succ,
    List.map_append, List.map_singleton, List.getLastD_concat]
  rfl

/-- So is the transfer of the manifest. -/
theorem send_meta_gives_up (ha : d.Addresses P x) (hlaunch : d.Launchable src x.val)
    (hS : src.At S) {data : String} (hdata : w.fs.kind (S ++ [META_FILENAME]) = some (.file data))
    (hI : Receptive d.host (P ++ [partialName x]) w w)
    (hthere : (w.tree (some d.host)).isDir (P ++ [partialName x]) = true)
    (hlook : (w.tape 0).fault = none) (hfails : ∀ i ≤ d.retries, (w.tape (1 + i)).Fails) :
    ∃ u, exec (d.send_meta src x.val) w =
        (.error (d.givenUp (w.tape (1 + d.retries))), u) ∧
      ∀ m, u.tape m = w.tape (1 + (d.retries + 1) + m) := by
  obtain ⟨hlooked, u, hfailing, -, hspent⟩ := send_meta_failing ha hlaunch hS hdata hI hthere hlook
    (fun i hi => hfails i (Nat.lt_succ_iff.mp hi))
  refine ⟨u, ?_, hspent⟩
  rw [send_meta, exec_bind_ok hlooked, if_pos rfl, rsync_meta_file, run_with_retries_eq,
    hfailing.gives_up (by simp), List.range_succ, List.map_append, List.map_singleton,
    List.getLastD_concat]
  rfl

/-- A command that is answered and succeeds. -/
theorem remote_run_answered {cmd : RemoteCommand} (hlaunch : d.Launches cmd) (hlit : cmd.Literal)
    (hr : (w.tape 0).Works)
    (hzero : (cmd.full d.node d.host w.next (w.tape 0).stamp).status = 0) :
    ∃ proc, exec (d.remote_run cmd) w =
      (.ok proc, (cmd.full d.node d.host w.next (w.tape 0).stamp).world) := by
  have hanswer := remote_process_answered hlaunch hlit hr.1 hr.2
  refine ⟨⟨(cmd.full d.node d.host w.next (w.tape 0).stamp).status,
    (cmd.full d.node d.host w.next (w.tape 0).stamp).stdout, ""⟩, ?_⟩
  rw [remote_run, exec_bind_ok hanswer, if_neg (by simp [hzero])]
  rfl

/-- How the calls of a store are answered: the first `j` attempts of the bulk transfer and the
first `k` of the manifest's fail, and everything else works. -/
structure Answers (w : World) (j k : ℕ) : Prop where
  tested : (w.tape 0).Works
  made : (w.tape 1).Works
  sending : ∀ i < j, (w.tape (2 + i)).Fails
  sent : (w.tape (2 + j)).Works
  looked : (w.tape (3 + j)).fault = none
  sending_meta : ∀ i < k, (w.tape (4 + j + i)).Fails
  sent_meta : (w.tape (4 + j + k)).Works
  moved : (w.tape (5 + j + k)).Works

/-- The destination as a store finds it: reachable, with nothing under the two names. -/
structure Vacant (h : String) (P : Loc) (x : Name) (w : World) : Prop where
  way : ∀ q, q <+: P → (w.tree (some h)).isFile q = false
  rooted : ∀ l, (w.tree (some h)).Rooted l
  final : (w.tree (some h)).kind (P ++ [x]) = none
  building : (w.tree (some h)).kind (P ++ [partialName x]) = none

/-- `test -f` tells that the generation is not there, and `mkdir -p` makes the way to it. -/
theorem store_begins (ha : d.Addresses P x) (hlaunch : d.Launchable src x.val)
    (hvacant : Vacant d.host P x w) (htested : (w.tape 0).Works) (hmade : (w.tape 1).Works) :
    ∃ v, exec (d.remote_file_exists ((d.final_path x.val).sub META_FILENAME.val)) w =
        (.ok false, w.next) ∧
      (∃ proc, exec (d.remote_run (.mkdir_p d.path)) w.next = (.ok proc, v)) ∧
      Receptive d.host (P ++ [partialName x]) w v ∧
      (v.tree (some d.host)).kind (P ++ [x]) = none ∧ ∀ m, v.tape m = w.tape (2 + m) := by
  have hfile : (RemoteCommand.full d.node d.host w.next (w.tape 0).stamp
      (.test_f ((d.final_path x.val).sub META_FILENAME.val))).status = 1 := by
    have hfind := (RemotePath.sub_at ha.final_at META_FILENAME).find (w.tree (some d.host))
    have hnone := hvacant.rooted _ hvacant.final [META_FILENAME]
    have hlook : ((d.final_path x.val).sub META_FILENAME.val).path.isFileIn
        (w.tree (some d.host)) = false := by
      rw [Path.isFileIn, hfind, Option.map_some, Option.getD_some, FileTree.isFile, hnone]
    rw [RemoteCommand.full, World.tree_next, hlook]
    rfl
  have htest := remote_process_answered (hlaunch.commands _ (by simp [commands]))
    ha.literal_test htested.1 htested.2
  have hblocked : blocked (w.next.tree (some d.host)) d.path.path = false := by
    rw [blocked, List.any_eq_false]
    intro q hq
    rw [World.tree_next, hvacant.way q (ha.path.mem_chain.mp hq)]
    simp
  have hfull : RemoteCommand.full d.node d.host w.next.next (w.next.tape 0).stamp
      (.mkdir_p d.path) = ⟨w.next.next.setTree (some d.host)
        ((w.tree (some d.host)).mkdirs d.path.path.chain (w.next.tape 0).stamp), 0, ""⟩ := by
    have hb : blocked (w.next.next.tree (some d.host)) d.path.path = false := hblocked
    rw [RemoteCommand.full, hb]
    rfl
  obtain ⟨proc, hmkdir⟩ := remote_run_answered (hlaunch.commands (.mkdir_p d.path)
    (by simp [commands])) ha.literal_mkdir (w := w.next) hmade (by rw [hfull])
  rw [hfull] at hmkdir
  have hway : ((w.next.next.setTree (some d.host) ((w.tree (some d.host)).mkdirs
      d.path.path.chain (w.next.tape 0).stamp)).tree (some d.host)).kind P = some .dir := by
    have hdir : ((RemoteCommand.full d.node d.host w.next.next (w.next.tape 0).stamp
        (.mkdir_p d.path)).world.tree (some d.host)).kind P = some .dir :=
      mkdir_p_ok ha.path (by rw [hfull]) (List.prefix_refl P)
    rwa [hfull] at hdir
  have hkind (q : Loc) (hq : ¬ q <+: P) : ((w.tree (some d.host)).mkdirs d.path.path.chain
      (w.next.tape 0).stamp).kind q = (w.tree (some d.host)).kind q :=
    FileTree.kind_mkdirs_of_notMem _ _ (fun hmem => hq (ha.path.mem_chain.mp hmem))
  have hup (y : Name) : ¬ P ++ [y] <+: P := by
    intro hle
    have hlength := hle.length_le
    rw [List.length_append, List.length_singleton] at hlength
    omega
  refine ⟨_, ?_, ⟨proc, hmkdir⟩, ⟨World.tree_setTree_ne _ _ (by simp), ?_, .inr ?_⟩, ?_,
    fun m => ?_⟩
  · rw [remote_file_exists, exec_bind_ok htest, exec_pure, hfile]
    rfl
  · rw [List.dropLast_concat, FileTree.isDir_iff]
    exact hway
  · rw [World.tree_setTree_self, hkind _ (hup _), hvacant.building]
  · rw [World.tree_setTree_self, hkind _ (hup _), hvacant.final]
  · rw [Nat.add_comm]
    rfl

/-- `mv` gives the building directory its name when nothing has it. -/
theorem mv_answered (ha : d.Addresses P x) (hlaunch : d.Launchable src x.val)
    {w₀ : World} (hI : Receptive d.host (P ++ [partialName x]) w₀ w)
    (hthere : (w.tree (some d.host)).isDir (P ++ [partialName x]) = true)
    (hfree : ∀ r, (w.tree (some d.host)).kind (P ++ [x] ++ r) = none) (hr : (w.tape 0).Works) :
    ∃ proc w', exec (d.remote_run (.mv (d.partial_path x.val) (d.final_path x.val))) w =
      (.ok proc, w') := by
  have hnone : (w.tree (some d.host)).kind (P ++ [x]) = none := by
    have h := hfree []
    rwa [List.append_nil] at h
  have hapart : ¬ P ++ [partialName x] <+: P ++ [x] := by
    intro hle
    have heq := hle.eq_of_length (by simp)
    exact partialName_ne x (List.singleton_inj.mp (List.append_cancel_left heq))
  have hvacant : (w.tree (some d.host)).vacant (P ++ [x]) = true := by
    refine FileTree.vacant_iff.mpr ⟨by rw [FileTree.isFile, hnone], ?_⟩
    rintro m ⟨r, rfl⟩ -
    exact hfree r
  have hway := (FileTree.isDir_iff _ _).mp hI.way
  rw [List.dropLast_concat] at hway
  have hnotdir : (w.tree (some d.host)).isDir (P ++ [x]) = false := by
    rw [FileTree.isDir, hnone]
  have htarget : mvTarget (w.tree (some d.host)) (P ++ [partialName x]) (P ++ [x]) = P ++ [x] := by
    rw [mvTarget_eq, hnotdir]
    rfl
  have hrenamable : renamable (w.tree (some d.host)) (P ++ [partialName x]) (P ++ [x]) = true :=
    renamable_iff.mpr ⟨(FileTree.isDir_iff _ _).mp hthere, hapart,
      by rw [List.dropLast_concat, hway], hvacant⟩
  have hfull : (RemoteCommand.full d.node d.host w.next (w.tape 0).stamp
      (.mv (d.partial_path x.val) (d.final_path x.val))).status = 0 := by
    rw [mv_full ha.path, World.tree_next, htarget, if_pos hrenamable]
  obtain ⟨proc, hrun⟩ := remote_run_answered (hlaunch.commands _ (by simp [commands]))
    ha.literal_mv hr hfull
  exact ⟨proc, _, hrun⟩

/-- With up to `retries` failures of the bulk transfer a store comes to the manifest. -/
theorem store_sends (ha : d.Addresses P x) (hlaunch : d.Launchable src x.val)
    (hsrc : SourceDir w.fs S src) (hvacant : Vacant d.host P x w) {j : ℕ} (hj : j ≤ d.retries)
    (htested : (w.tape 0).Works) (hmade : (w.tape 1).Works)
    (hsending : ∀ i < j, (w.tape (2 + i)).Fails) (hsent : (w.tape (2 + j)).Works) :
    ∃ v, exec (d.store src x.val) w = exec (do
        d.send_meta src x.val
        let _ ← d.remote_run (.mv (d.partial_path x.val) (d.final_path x.val))) v ∧
      Receptive d.host (P ++ [partialName x]) w v ∧
      (v.tree (some d.host)).isDir (P ++ [partialName x]) = true ∧
      (∀ r, (v.tree (some d.host)).kind (P ++ [x] ++ r) = none) ∧
      ∀ m, v.tape m = w.tape (3 + j + m) := by
  obtain ⟨u, htest, ⟨proc, hmkdir⟩, hI, -, htape⟩ :=
    store_begins ha hlaunch hvacant htested hmade
  have hI' : Receptive d.host (P ++ [partialName x]) u u := ⟨rfl, hI.way, hI.place⟩
  obtain ⟨v, hsend, hv, hthere, hspent⟩ := rsync_directory_survives ha hlaunch hsrc.leads
    (by rw [hI.fs, hsrc.dir]) hI' hj (fun i hi => by rw [htape]; exact hsending i hi)
    (by rw [htape]; exact hsent)
  refine ⟨v, ?_, ⟨hv.fs.trans hI.fs, hv.way, hv.place⟩, hthere, fun r => ?_, fun m => ?_⟩
  · rw [store, exec_bind_ok htest, if_neg (by simp), transfer, exec_bind_ok hmkdir,
      exec_bind_ok hsend]
  · have hout : (some d.host, P ++ [x] ++ r) ∉ building d.host P x :=
      other_notMem_building (partialName_ne x).symm r
    rw [((rsync_directory_moves ha hsrc.leads).of_exec hsend).kind _ _ (fun h => hout (.inr h)),
      ((mkdir_p_moves ha).of_exec hmkdir).kind _ _ (fun h => hout (.inl h))]
    exact hvacant.rooted _ hvacant.final r
  · rw [hspent, htape]
    congr 1
    omega

theorem send_meta_leaves (ha : d.Addresses P x) (hS : src.At S) {res : Except Exn Unit}
    (h : exec (d.send_meta src x.val) w = (res, w')) (r : Loc) :
    (w'.tree (some d.host)).kind (P ++ [x] ++ r) =
      (w.tree (some d.host)).kind (P ++ [x] ++ r) := by
  have hout : (some d.host, P ++ [x] ++ r) ∉ building d.host P x :=
    other_notMem_building (partialName_ne x).symm r
  exact ((send_meta_moves ha hS).of_exec h).kind _ _ (fun hq => hout (.inr hq))

/-- Up to `retries` failures of each of the two transfers, whatever they left behind, cost a
store nothing: it returns, and the generation is there as the source has it. -/
theorem store_survives_failed_transfers (hd : d.Reached P) (hx : Literal x.val)
    (hlaunch : d.Launchable src x.val) (hsrc : SourceDir w.fs S src)
    (hvacant : Vacant d.host P x w) {j k : ℕ} (hj : j ≤ d.retries) (hk : k ≤ d.retries)
    (hanswers : Answers w j k) :
    ∃ w', exec (d.store src x.val) w = (.ok (), w') ∧
      ∀ r, (w'.tree (some d.host)).kind (P ++ [x] ++ r) = copyOf w.fs S r := by
  have ha : d.Addresses P x := hd.addresses hx
  obtain ⟨data, hdata⟩ := hsrc.manifest
  obtain ⟨v, hbegun, hI, hthere, hname, htape⟩ := store_sends ha hlaunch hsrc hvacant hj
    hanswers.tested hanswers.made hanswers.sending hanswers.sent
  have hI' : Receptive d.host (P ++ [partialName x]) v v := ⟨rfl, hI.way, hI.place⟩
  obtain ⟨u, hmeta, hu, hthere', hspent⟩ := send_meta_survives ha hlaunch hsrc.leads
    (by rw [hI.fs, hdata]) hI' hthere hk (by rw [htape]; exact hanswers.looked)
    (fun i hi => by
      have h := hanswers.sending_meta i hi
      rw [htape]
      convert h using 2
      omega)
    (by
      have h := hanswers.sent_meta
      rw [htape]
      convert h using 2
      omega)
  have hmoved : (u.tape 0).Works := by
    have h := hanswers.moved
    rw [hspent, htape]
    convert h using 2
    omega
  obtain ⟨proc, w', hmv⟩ := mv_answered ha hlaunch hu hthere'
    (fun r => (send_meta_leaves ha hsrc.leads hmeta r).trans (hname r)) hmoved
  have hstore : exec (d.store src x.val) w = (.ok (), w') := by
    rw [hbegun, exec_bind_ok hmeta, exec_bind_ok hmv]
    rfl
  exact ⟨w', hstore, store_copies ha hsrc hvacant.rooted hvacant.final hvacant.building hstore⟩

/-- All `retries + 1` attempts of one of the two transfers of a store fail, the last with the reply
number `last`. -/
inductive Exhausted (w : World) (retries : ℕ) : ℕ → Prop where
  | directory (hfails : ∀ i ≤ retries, (w.tape (2 + i)).Fails) : Exhausted w retries (2 + retries)
  | manifest {j : ℕ} (hj : j ≤ retries) (hsending : ∀ i < j, (w.tape (2 + i)).Fails)
      (hsent : (w.tape (2 + j)).Works) (hlooked : (w.tape (3 + j)).fault = none)
      (hfails : ∀ i ≤ retries, (w.tape (4 + j + i)).Fails) :
      Exhausted w retries (4 + j + retries)

/-- With one failure more a transfer is given up: `retries + 1` attempts have been made of it and
nothing else after them, the store fails with the text of the last, and nothing has the name of the
generation. -/
theorem store_gives_up (hd : d.Reached P) (hx : Literal x.val)
    (hlaunch : d.Launchable src x.val) (hsrc : SourceDir w.fs S src)
    (hvacant : Vacant d.host P x w) (htested : (w.tape 0).Works) (hmade : (w.tape 1).Works)
    {last : ℕ} (hexhausted : Exhausted w d.retries last) :
    ∃ w', exec (d.store src x.val) w = (.error (d.givenUp (w.tape last)), w') ∧
      (∀ m, w'.tape m = w.tape (last + 1 + m)) ∧
      ∀ r, (w'.tree (some d.host)).kind (P ++ [x] ++ r) = none := by
  have ha : d.Addresses P x := hd.addresses hx
  cases hexhausted with
  | directory hfails =>
    obtain ⟨v, htest, ⟨proc, hmkdir⟩, hI, hfree, htape⟩ :=
      store_begins ha hlaunch hvacant htested hmade
    have hI' : Receptive d.host (P ++ [partialName x]) v v := ⟨rfl, hI.way, hI.place⟩
    obtain ⟨u, hsend, hspent⟩ := rsync_directory_gives_up ha hlaunch hsrc.leads
      (by rw [hI.fs, hsrc.dir]) hI' (fun i hi => by rw [htape]; exact hfails i hi)
    refine ⟨u, ?_, fun m => ?_, fun r => ?_⟩
    · rw [store, exec_bind_ok htest, if_neg (by simp), transfer, exec_bind_ok hmkdir,
        exec_bind_error hsend, htape]
    · rw [hspent, htape]
      congr 1
      omega
    · have hout : (some d.host, P ++ [x] ++ r) ∉ building d.host P x :=
        other_notMem_building (partialName_ne x).symm r
      rw [((rsync_directory_moves ha hsrc.leads).of_exec hsend).kind _ _
          (fun h => hout (.inr h)),
        ((mkdir_p_moves ha).of_exec hmkdir).kind _ _ (fun h => hout (.inl h))]
      exact hvacant.rooted _ hvacant.final r
  | @manifest j hj hsending hsent hlooked hfails =>
    obtain ⟨data, hdata⟩ := hsrc.manifest
    obtain ⟨v, hbegun, hI, hthere, hname, htape⟩ :=
      store_sends ha hlaunch hsrc hvacant hj htested hmade hsending hsent
    have hI' : Receptive d.host (P ++ [partialName x]) v v := ⟨rfl, hI.way, hI.place⟩
    have hreply (i : ℕ) : v.tape (1 + i) = w.tape (4 + j + i) := by
      rw [htape]
      congr 1
      omega
    obtain ⟨u, hmeta, hspent⟩ := send_meta_gives_up ha hlaunch hsrc.leads
      (by rw [hI.fs, hdata]) hI' hthere (by rw [htape]; exact hlooked)
      (fun i hi => by rw [hreply]; exact hfails i hi)
    refine ⟨u, ?_, fun m => ?_, fun r => ?_⟩
    · rw [hbegun, exec_bind_error hmeta, hreply]
    · rw [hspent, htape]
      congr 1
      omega
    · exact (send_meta_leaves ha hsrc.leads hmeta r).trans (hname r)

/-- The destination of `smallRemote` with one retry. -/
def patientRemote : SSHDestination := { smallRemote with retries := 1 }

/-- The calls with these numbers lose the connection, when `rsync` has made the building
directory. -/
def flakyWorld (lost : List ℕ) : World := { freshWorld with
  tape := fun n => if lost.contains n then { Reply.good 1700000000000000 with
    fault := some (.subprocess "connection lost"), paths := [[entry "b", entry "x.partial"]] }
    else Reply.good 1700000000000000 }

theorem flakyWorld_vacant (lost : List ℕ) : Vacant "vault" [entry "b"] (entry "x")
    (flakyWorld lost) := by
  have hrooted : ∀ l, smallTree.Rooted l := FileTree.rooted_of_locs (by decide)
  have hfile : ∀ q ∈ [[], [entry "b"]], smallTree.isFile q = false := by decide
  refine ⟨fun q hq => ?_, hrooted, ?_, ?_⟩
  · exact hfile q ((List.mem_inits q [entry "b"]).mpr hq)
  · exact (by decide : smallTree.kind [entry "b", entry "x"] = none)
  · exact (by decide : smallTree.kind [entry "b", entry "x.partial"] = none)

theorem flakyWorld_lost {lost : List ℕ} {n : ℕ} (hn : lost.contains n = true) :
    ((flakyWorld lost).tape n).Fails := by
  refine .inl ⟨"connection lost", .inr ?_⟩
  rw [flakyWorld]
  dsimp only
  rw [if_pos hn]

theorem smallRemote_launchable :
    smallRemote.Launchable (Path.configured [] (PurePath.parse "/w/x")) "x" := by
  refine ⟨fun cmd hcmd => ?_, starts_of_strings rfl (by decide), starts_of_strings rfl (by decide)⟩
  simp only [commands, List.mem_cons, List.not_mem_nil, or_false] at hcmd
  rcases hcmd with rfl | rfl | rfl | rfl | rfl | rfl
  all_goals exact smallRemote_launches (by decide)

theorem patientRemote_reached : patientRemote.Reached [entry "b"] :=
  ⟨⟨⟨[], rfl, by decide⟩, rfl⟩, by decide, by decide⟩

/-- One attempt of each transfer loses the connection. -/
theorem store_survives_failed_transfers_once : ∃ w',
    exec (patientRemote.store (Path.configured [] (PurePath.parse "/w/x")) "x")
      (flakyWorld [2, 5]) = (.ok (), w') ∧
    ∀ r, (w'.tree (some "vault")).kind ([entry "b"] ++ [entry "x"] ++ r) =
      copyOf (flakyWorld [2, 5]).fs [entry "w", entry "x"] r := by
  have hlaunch : patientRemote.Launchable (Path.configured [] (PurePath.parse "/w/x")) "x" :=
    ⟨smallRemote_launchable.commands, smallRemote_launchable.directory,
      smallRemote_launchable.manifest⟩
  have hanswers : Answers (flakyWorld [2, 5]) 1 1 := by
    refine ⟨⟨rfl, rfl⟩, ⟨rfl, rfl⟩, fun i hi => ?_, ⟨rfl, rfl⟩, rfl, fun i hi => ?_, ⟨rfl, rfl⟩,
      ⟨rfl, rfl⟩⟩
    · obtain rfl : i = 0 := by omega
      exact flakyWorld_lost (by decide)
    · obtain rfl : i = 0 := by omega
      exact flakyWorld_lost (by decide)
  exact store_survives_failed_transfers (w := flakyWorld [2, 5]) (x := entry "x")
    patientRemote_reached (by decide) hlaunch freshWorld_source (flakyWorld_vacant _)
    (by decide : 1 ≤ patientRemote.retries) (by decide : 1 ≤ patientRemote.retries) hanswers

/-- The manifest loses it twice, after one loss of the bulk transfer. -/
theorem store_gives_up_once : ∃ w',
    exec (patientRemote.store (Path.configured [] (PurePath.parse "/w/x")) "x")
      (flakyWorld [2, 5, 6]) = (.error (.destination
        "destination 'vault': rsync failed after retries: connection lost"), w') ∧
    ∀ r, (w'.tree (some "vault")).kind ([entry "b"] ++ [entry "x"] ++ r) = none := by
  have hlaunch : patientRemote.Launchable (Path.configured [] (PurePath.parse "/w/x")) "x" :=
    ⟨smallRemote_launchable.commands, smallRemote_launchable.directory,
      smallRemote_launchable.manifest⟩
  have hexhausted : Exhausted (flakyWorld [2, 5, 6]) patientRemote.retries 6 := by
    refine Exhausted.manifest (j := 1) (by decide) (fun i hi => ?_) ⟨rfl, rfl⟩ rfl
      (fun i hi => ?_)
    · obtain rfl : i = 0 := by omega
      exact flakyWorld_lost (by decide)
    · have hi' : i ≤ 1 := hi
      rcases Nat.le_one_iff_eq_zero_or_eq_one.mp hi' with rfl | rfl
      · exact flakyWorld_lost (by decide)
      · exact flakyWorld_lost (by decide)
  obtain ⟨w', hstore, -, hnone⟩ := store_gives_up (w := flakyWorld [2, 5, 6]) (x := entry "x")
    patientRemote_reached (by decide) hlaunch freshWorld_source (flakyWorld_vacant _) ⟨rfl, rfl⟩
    ⟨rfl, rfl⟩ hexhausted
  exact ⟨w', hstore, hnone⟩

end SSHDestination

end MbKeeper
