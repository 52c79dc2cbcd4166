import MbKeeper.Retention

/-!
# The local destination

`Destination` is the contract every backend meets. `LocalDestination` keeps a
generation as a directory of its own: it copies into `<id>.partial`, copies
`meta.json` last and renames. The effect lemmas say which spots a call may
touch, what holds when it returns, and when a generation was committed.
-/
namespace MbKeeper

/-- The operations of a destination, one of them after the other. -/
structure Destination where
  name : String
  keep : ℕ
  store : Path → String → Io Unit
  list_backups : Io (List StoredBackup)
  delete : String → Io Unit
  check : Io Unit

def PARTIAL_SUFFIX : String := ".partial"

def CHECK_PROBE_FILENAME : Name := ⟨".mbkeeper-check", by decide⟩

/-- `datetime.fromtimestamp(…, tz=timezone.utc)` -/
def fromtimestamp (t : Instant) : Io Datetime :=
  if Representable t then pure (Datetime.utc t) else throw (.value "year is out of range")

/-- `except OSError as exc: raise DestinationError(…) from exc` -/
def asDestinationError {α : Type} (context : String) : Exn → Io α
  | .os m => throw (.destination (context ++ m))
  | e => throw e

def guarded {α : Type} (context : String) (m : Io α) : Io α :=
  tryCatch m (asDestinationError context)

theorem guarded_state {α : Type} (context : String) (m : Io α) (w : World) :
    (exec (guarded context m) w).2 = (exec m w).2 := by
  rw [guarded, exec_tryCatch]
  rcases exec m w with ⟨e | a, w'⟩
  · cases e <;> rfl
  · rfl

theorem guarded_ok {α : Type} {context : String} {m : Io α} {w w' : World} {a : α} :
    exec (guarded context m) w = (.ok a, w') ↔ exec m w = (.ok a, w') := by
  rw [guarded, exec_tryCatch]
  rcases exec m w with ⟨e | b, u⟩
  · cases e <;> simp [asDestinationError]
  · rfl

theorem guarded_moves {α : Type} {R : World → World → Prop} (context : String) {m : Io α}
    (h : Moves R m) : Moves R (guarded context m) := fun w => by
  rw [guarded_state]
  exact h w

/-- The name of the directory a generation is built in. -/
def partialName (x : Name) : Name :=
  ⟨x.val ++ PARTIAL_SUFFIX, Legal.append x.property.2.2.2 (by decide) (by decide)⟩

theorem partialName_injective : Function.Injective partialName := fun _ _ h =>
  Subtype.ext (append_suffix_injective PARTIAL_SUFFIX (congrArg Subtype.val h))

theorem stripSuffix_partialName (x : Name) :
    stripSuffix PARTIAL_SUFFIX (partialName x).val = some x.val := stripSuffix_append _ _

structure LocalDestination where
  name : String
  path : Path
  keep : ℕ

namespace LocalDestination

variable (d : LocalDestination)

abbrev final_dir (backup_id : String) : Path := d.path.join backup_id

abbrev partial_dir (backup_id : String) : Path := d.path.join (backup_id ++ PARTIAL_SUFFIX)

/-- What an earlier attempt left is removed. -/
def clear_stale (backup_id : String) : Io Unit := do
  let stale ← path_exists (d.partial_dir backup_id)
  if stale then rmtree (d.partial_dir backup_id) false else pure ()

def copy_meta (local_dir : Path) (backup_id : String) : Io Unit := do
  let has_meta ← is_file (local_dir.child META_FILENAME)
  if has_meta then
    copy2 (local_dir.child META_FILENAME) ((d.partial_dir backup_id).child META_FILENAME)
  else pure ()

/-- The part of `store` whose errors are wrapped. -/
def transfer (local_dir : Path) (backup_id : String) : Io Unit := do
  mkdir d.path
  d.clear_stale backup_id
  copytree local_dir (d.partial_dir backup_id) (· = META_FILENAME)
  d.copy_meta local_dir backup_id
  rename (d.partial_dir backup_id) (d.final_dir backup_id)

def store (local_dir : Path) (backup_id : String) : Io Unit := do
  let complete ← is_file ((d.final_dir backup_id).child META_FILENAME)
  if complete then pure ()
  else guarded s!"destination '{d.name}': store failed: " (d.transfer local_dir backup_id)

/-- The record of a directory of the listing: a name with the suffix is incomplete, any
other is complete when it holds the manifest. -/
def stored_backup (x : Name) : Io StoredBackup :=
  let entry := d.path.child x
  match stripSuffix PARTIAL_SUFFIX x.val with
  | some backup_id => do
    let mtime ← st_mtime entry
    let stored_at ← fromtimestamp mtime
    pure ⟨backup_id, false, stored_at⟩
  | none => do
    let complete ← is_file (entry.child META_FILENAME)
    let mtime ← st_mtime entry
    let stored_at ← fromtimestamp mtime
    pure ⟨x.val, complete, stored_at⟩

/-- What one entry of the directory contributes to the listing. -/
def list_entry (x : Name) : Io (List StoredBackup) := do
  let dir ← is_dir (d.path.child x)
  if dir then do
    let backup ← d.stored_backup x
    pure [backup]
  else pure []

def list_entries : List Name → Io (List StoredBackup)
  | [] => pure []
  | x :: xs => do
    let first ← d.list_entry x
    let rest ← list_entries xs
    pure (first ++ rest)

def list_backups : Io (List StoredBackup) := do
  let there ← is_dir d.path
  if there then do
    let names ← iterdir d.path
    d.list_entries names
  else throw (.destination s!"destination '{d.name}': path does not exist: {d.path.str}")

/-- One of the two names that `delete` tries. -/
def delete_name (name : String) : Io Unit := do
  let there ← path_exists (d.path.join name)
  if there then
    guarded s!"destination '{d.name}': delete failed: " (rmtree (d.path.join name) false)
  else pure ()

def delete (backup_id : String) : Io Unit := do
  d.delete_name backup_id
  d.delete_name (backup_id ++ PARTIAL_SUFFIX)

def check : Io Unit :=
  guarded s!"destination '{d.name}': check failed: " do
    mkdir d.path
    write_text (d.path.child CHECK_PROBE_FILENAME) "ok" false
    unlink_file (d.path.child CHECK_PROBE_FILENAME)

def toDestination : Destination :=
  ⟨d.name, d.keep, d.store, d.list_backups, d.delete, d.check⟩

/-- The time of modification of what is at `l`. -/
def mtimeAt (t : Fs) (l : Loc) : Instant := ((t.lookup l).map Node.mtime).getD 0

/-- How the directory `x` of the directory `P` is listed. -/
def recordOf (t : Fs) (P : Loc) (x : Name) : StoredBackup :=
  match stripSuffix PARTIAL_SUFFIX x.val with
  | some backup_id => ⟨backup_id, false, Datetime.utc (mtimeAt t (P ++ [x]))⟩
  | none => ⟨x.val, t.isFile (P ++ [x] ++ [META_FILENAME]), Datetime.utc (mtimeAt t (P ++ [x]))⟩

/-- The directories among the entries of `P`. -/
def dirsIn (t : Fs) (P : Loc) : List Name := (t.children P).filter (fun x => t.isDir (P ++ [x]))

/-- Every directory of `P` has a time that has a reading. -/
def Dated (t : Fs) (P : Loc) : Prop := ∀ x ∈ dirsIn t P, Representable (mtimeAt t (P ++ [x]))

instance (t : Fs) (P : Loc) : Decidable (Dated t P) :=
  inferInstanceAs (Decidable (∀ x ∈ dirsIn t P, _))

/-- The listing of the directory `P`. -/
def records (t : Fs) (P : Loc) : List StoredBackup := (dirsIn t P).map (recordOf t P)

def undated : Exn := .value "year is out of range"

variable {d} {P : Loc}

theorem fromtimestamp_reads (s : Instant) : Reads (fromtimestamp s)
    (fun _ => if Representable s then .ok (Datetime.utc s) else .error undated) := by
  unfold fromtimestamp
  split_ifs
  · exact Reads.pure _
  · exact Reads.throw _

theorem is_dir_reads {p : Path} {l : Loc} (h : p.At l) :
    Reads (is_dir p) (fun t => .ok ((t none).isDir l)) :=
  (Reads.ask (fun t => p.isDirIn (t none))).of_eq (fun t => by simp [Path.isDirIn, h.find])

theorem is_file_reads {p : Path} {l : Loc} (h : p.At l) :
    Reads (is_file p) (fun t => .ok ((t none).isFile l)) :=
  (Reads.ask (fun t => p.isFileIn (t none))).of_eq (fun t => by simp [Path.isFileIn, h.find])

theorem path_exists_reads {p : Path} {l : Loc} (h : p.At l) :
    Reads (path_exists p) (fun t => .ok ((t none).present l)) :=
  (Reads.ask (fun t => p.presentIn (t none))).of_eq (fun t => by simp [Path.presentIn, h.find])

theorem st_mtime_reads {p : Path} {l : Loc} (h : p.At l) :
    Reads (st_mtime p) (fun t => .ok (mtimeAt (t none) l)) :=
  (Reads.ask (fun t => (((p.find (t none)).bind (t none).lookup).map Node.mtime).getD 0)).of_eq
    (fun t => by rw [h.find]; rfl)

theorem iterdir_reads {p : Path} {l : Loc} (h : p.At l) :
    Reads (iterdir p) (fun t => .ok ((t none).children l)) :=
  (Reads.ask (fun t => ((p.find (t none)).map (t none).children).getD [])).of_eq
    (fun t => by simp [h.find])

theorem stored_backup_reads (hp : d.path.At P) (x : Name) :
    Reads (d.stored_backup x) (fun t =>
      if Representable (mtimeAt (t none) (P ++ [x])) then .ok (recordOf (t none) P x)
      else .error undated) := by
  have hx := hp.child x
  unfold stored_backup recordOf
  cases stripSuffix PARTIAL_SUFFIX x.val with
  | some backup_id =>
    refine ((st_mtime_reads hx).bind (fun s => (fromtimestamp_reads s).bind
      (fun stored_at => Reads.pure _))).of_eq (fun t => ?_)
    simp only [Bind.bind, Except.bind]
    split_ifs <;> rfl
  | none =>
    refine ((is_file_reads (hx.child META_FILENAME)).bind (fun complete =>
      (st_mtime_reads hx).bind (fun s => (fromtimestamp_reads s).bind
        (fun stored_at => Reads.pure _)))).of_eq (fun t => ?_)
    simp only [Bind.bind, Except.bind]
    split_ifs <;> rfl

theorem list_entry_reads (hp : d.path.At P) (x : Name) :
    Reads (d.list_entry x) (fun t =>
      if (t none).isDir (P ++ [x]) then
        if Representable (mtimeAt (t none) (P ++ [x])) then .ok [recordOf (t none) P x]
        else .error undated
      else .ok []) := by
  refine ((is_dir_reads (hp.child x)).bind (fun dir => Reads.ite
    ((stored_backup_reads hp x).bind (fun backup => Reads.pure _)) (Reads.pure _))).of_eq
    (fun t => ?_)
  simp only [Bind.bind, Except.bind]
  split_ifs <;> rfl

theorem list_entries_reads (hp : d.path.At P) (xs : List Name) :
    Reads (d.list_entries xs) (fun t =>
      if ∀ x ∈ xs.filter (fun x => (t none).isDir (P ++ [x])),
          Representable (mtimeAt (t none) (P ++ [x])) then
        .ok ((xs.filter (fun x => (t none).isDir (P ++ [x]))).map (recordOf (t none) P))
      else .error undated) := by
  induction xs with
  | nil => exact (Reads.pure []).of_eq (fun t => by simp)
  | cons x xs ih =>
    refine ((list_entry_reads hp x).bind (fun first => ih.bind
      (fun rest => Reads.pure _))).of_eq (fun t => ?_)
    by_cases hdir : (t none).isDir (P ++ [x]) = true
    · simp only [List.filter_cons, hdir, if_true, List.forall_mem_cons]
      by_cases hx : Representable (mtimeAt (t none) (P ++ [x]))
      · simp only [hx, if_true, true_and, Bind.bind, Except.bind]
        split_ifs <;> rfl
      · simp only [hx, if_false, false_and, Bind.bind, Except.bind]
    · simp only [List.filter_cons, if_neg hdir, Bind.bind, Except.bind]
      split_ifs <;> rfl

/-- The listing of a directory that is there, when every time in it has a reading. -/
theorem list_backups_reads (hp : d.path.At P) :
    Reads d.list_backups (fun t =>
      if (t none).isDir P then
        if Dated (t none) P then .ok (records (t none) P) else .error undated
      else .error (.destination
        s!"destination '{d.name}': path does not exist: {d.path.str}")) := by
  refine ((is_dir_reads hp).bind (fun there => Reads.ite ((iterdir_reads hp).bind
    (fun names => list_entries_reads hp names)) (Reads.throw _))).of_eq (fun t => ?_)
  simp only [Bind.bind, Except.bind]
  split_ifs with hP hin hdated hdated
  · rfl
  · exact absurd hin hdated
  · exact absurd hdated hin
  · rfl
  · rfl

/-- A listing that returned is the listing of the directory. -/
theorem list_backups_ok (hp : d.path.At P) {w w' : World} {stored : List StoredBackup}
    (h : exec d.list_backups w = (.ok stored, w')) :
    Same w w' ∧ w.fs.isDir P = true ∧ Dated w.fs P ∧ stored = records w.fs P := by
  have hsame := (list_backups_reads hp).same w
  have hval := (list_backups_reads hp).ok w stored (by rw [h])
  rw [h] at hsame
  refine ⟨hsame, ?_⟩
  split_ifs at hval with hdir hdated
  exact ⟨hdir, hdated, (Except.ok.inj hval).symm⟩

theorem mem_dirsIn {t : Fs} {x : Name} : x ∈ dirsIn t P ↔ t.kind (P ++ [x]) = some .dir := by
  rw [dirsIn, List.mem_filter, FileTree.mem_children, FileTree.isDir_iff]
  exact ⟨fun h => h.2, fun h => ⟨by rw [h]; simp, h⟩⟩

theorem mem_records {t : Fs} {b : StoredBackup} :
    b ∈ records t P ↔ ∃ x, t.kind (P ++ [x]) = some .dir ∧ recordOf t P x = b := by
  simp [records, mem_dirsIn]

/-- Without the suffix a directory is listed under its own name. -/
theorem recordOf_plain {t : Fs} {x : Name} (h : stripSuffix PARTIAL_SUFFIX x.val = none) :
    recordOf t P x = ⟨x.val, t.isFile (P ++ [x] ++ [META_FILENAME]),
      Datetime.utc (mtimeAt t (P ++ [x]))⟩ := by
  rw [recordOf, h]

/-- With the suffix it is listed as incomplete. -/
theorem recordOf_suffixed {t : Fs} {x : Name} {s : String}
    (h : stripSuffix PARTIAL_SUFFIX x.val = some s) :
    recordOf t P x = ⟨s, false, Datetime.utc (mtimeAt t (P ++ [x]))⟩ := by
  rw [recordOf, h]

theorem recordOf_complete {t : Fs} {x : Name} (h : (recordOf t P x).complete = true) :
    stripSuffix PARTIAL_SUFFIX x.val = none ∧ (recordOf t P x).backup_id = x.val ∧
      t.isFile (P ++ [x] ++ [META_FILENAME]) = true := by
  cases hs : stripSuffix PARTIAL_SUFFIX x.val with
  | some s =>
    rw [recordOf_suffixed hs] at h
    cases h
  | none =>
    rw [recordOf_plain hs] at h ⊢
    exact ⟨rfl, rfl, h⟩

/-- The id a directory is listed under. -/
def listedId (x : Name) : String := (stripSuffix PARTIAL_SUFFIX x.val).getD x.val

theorem recordOf_id (t : Fs) (P : Loc) (x : Name) : (recordOf t P x).backup_id = listedId x := by
  unfold recordOf listedId
  cases stripSuffix PARTIAL_SUFFIX x.val <;> rfl

theorem listedId_partialName (x : Name) : listedId (partialName x) = x.val := by
  rw [listedId, stripSuffix_partialName]
  rfl

/-- A directory is listed under its name or under what the suffix leaves of it. -/
theorem listedId_cases (x : Name) :
    x.val = listedId x ∨ x.val = listedId x ++ PARTIAL_SUFFIX := by
  unfold listedId
  cases h : stripSuffix PARTIAL_SUFFIX x.val with
  | none => exact .inl rfl
  | some s => exact .inr (stripSuffix_eq_some.mp h)

/-- No id of a listing has a slash. -/
theorem listedId_slash (x : Name) : '/' ∉ (listedId x).toList := by
  intro hc
  apply x.slash_notMem
  rcases listedId_cases x with h | h
  · rwa [h]
  · rw [h, String.toList_append]
    exact List.mem_append_left _ hc

/-- Three ids are no names. -/
theorem listedId_legal_or (x : Name) :
    Legal (listedId x) ∨ listedId x = "" ∨ listedId x = "." ∨ listedId x = ".." := by
  by_cases h₁ : listedId x = ""
  · exact .inr (.inl h₁)
  by_cases h₂ : listedId x = "."
  · exact .inr (.inr (.inl h₂))
  by_cases h₃ : listedId x = ".."
  · exact .inr (.inr (.inr h₃))
  refine .inl ⟨h₁, h₂, h₃, fun c hc => x.property.2.2.2 c ?_⟩
  rcases listedId_cases x with h | h
  · rwa [h]
  · rw [h, String.toList_append]
    exact List.mem_append_left _ hc

theorem aware_records (t : Fs) (P : Loc) : Aware (records t P) := by
  intro b hb
  obtain ⟨x, -, rfl⟩ := mem_records.mp hb
  cases hs : stripSuffix PARTIAL_SUFFIX x.val with
  | some s =>
    rw [recordOf_suffixed hs]
    simp [Datetime.utc, Datetime.instant]
  | none =>
    rw [recordOf_plain hs]
    simp [Datetime.utc, Datetime.instant]

/-- The complete ids of a listing are the names of the directories that hold a manifest. -/
theorem mem_completeIds_records {t : Fs} {s : String} :
    s ∈ completeIds (records t P) ↔ ∃ x : Name, x.val = s ∧
      stripSuffix PARTIAL_SUFFIX x.val = none ∧ t.kind (P ++ [x]) = some .dir ∧
      t.isFile (P ++ [x] ++ [META_FILENAME]) = true := by
  rw [mem_completeIds]
  constructor
  · rintro ⟨b, hb, hc, rfl⟩
    obtain ⟨x, hx, rfl⟩ := mem_records.mp hb
    obtain ⟨hs, hid, hmeta⟩ := recordOf_complete hc
    exact ⟨x, hid.symm, hs, hx, hmeta⟩
  · rintro ⟨x, rfl, hs, hx, hmeta⟩
    exact ⟨_, mem_records.mpr ⟨x, hx, rfl⟩, by rw [recordOf_plain hs]; exact hmeta,
      by rw [recordOf_plain hs]⟩

theorem nodup_complete_records (t : Fs) (P : Loc) :
    (((records t P).filter (·.complete)).map (·.backup_id)).Nodup := by
  have hnames : ((dirsIn t P).filter (fun x => (recordOf t P x).complete)).Nodup :=
    ((FileTree.children_nodup t P).filter _).filter _
  rw [records, List.filter_map, List.map_map]
  refine List.Nodup.map_on (fun x hx y hy hxy => Subtype.ext ?_) hnames
  have hx' := (recordOf_complete (List.mem_filter.mp hx).2).2.1
  have hy' := (recordOf_complete (List.mem_filter.mp hy).2).2.1
  exact hx'.symm.trans (hxy.trans hy')

end LocalDestination

end MbKeeper
