import MbKeeper.SshEffects
import Mathlib.Data.Multiset.Filter
import Mathlib.Data.List.Sort

/-!
# The listing of an ssh destination

The list script writes a line for every directory that holds the manifest, and
one for every other directory whose name has the suffix; `parse_list_output`
reads the lines back. Over names without white space nothing is lost in the
text, so the two together are a function of the directory, which is compared
with the listing of the local backend.
-/
namespace MbKeeper

namespace SSHDestination

open LocalDestination

variable {d : SSHDestination} {shell : Shell} {t : Fs} {P : Loc} {x : Name}

/-- The seconds that the script prints of a directory. -/
def reading (shell : Shell) (t : Fs) (P : Loc) (x : Name) : ℤ :=
  (shell.stat x (mtimeAt t (P ++ [x]))).getD 0

/-- The first word of a directory's line and the id in it; no line for a directory with neither
the manifest nor the suffix. -/
def classified (t : Fs) (P : Loc) (x : Name) : Option (Bool × String) :=
  if t.isFile (P ++ [x] ++ [META_FILENAME]) then some (true, x.val)
  else (stripSuffix PARTIAL_SUFFIX x.val).map (fun backup_id => (false, backup_id))

def statusWord (complete : Bool) : List Char :=
  if complete then "COMPLETE".toList else "PARTIAL".toList

def lineText (c : Bool × String) (seconds : ℤ) : List Char :=
  statusWord c.1 ++ ' ' :: (c.2.toList ++ ' ' :: intText seconds)

/-- What the script says of the directory `x`. -/
def reported (shell : Shell) (t : Fs) (P : Loc) (x : Name) : Option StoredBackup :=
  (classified t P x).map (fun c =>
    ⟨c.2, c.1, Datetime.utc (reading shell t P x * 1000000)⟩)

/-- The shell's `echo` writes the line of the directory `x` as it is. -/
def Echoes (shell : Shell) (t : Fs) (P : Loc) (x : Name) : Prop :=
  ∀ c, classified t P x = some c →
    shell.echo (String.ofList (lineText c (reading shell t P x))) =
      String.ofList (lineText c (reading shell t P x)) ++ "\n"

theorem listLine_eq (shell : Shell) (t : Fs) (P : Loc) (x : Name) : listLine shell t P x =
    if t.isFile (P ++ [x] ++ [META_FILENAME]) then
      shell.echo ("COMPLETE " ++ x.val ++ " " ++ String.ofList (intText (reading shell t P x)))
    else match stripSuffix PARTIAL_SUFFIX x.val with
      | some backup_id =>
        shell.echo ("PARTIAL " ++ backup_id ++ " " ++ String.ofList (intText (reading shell t P x)))
      | none => "" := by
  rw [listLine, reading]
  cases shell.stat x (mtimeAt t (P ++ [x])) <;> rfl

theorem line_eq_ofList {word : String} (complete : Bool) (hword : word.toList =
    statusWord complete ++ [' ']) (backup_id : String) (seconds : ℤ) :
    word ++ backup_id ++ " " ++ String.ofList (intText seconds) =
      String.ofList (lineText (complete, backup_id) seconds) := by
  apply String.toList_injective
  simp [String.toList_append, hword, lineText]

theorem listLine_toList (hecho : Echoes shell t P x) : (listLine shell t P x).toList =
    ((classified t P x).map (fun c => lineText c (reading shell t P x))).toList.flatMap
      (· ++ ['\n']) := by
  rw [Echoes] at hecho
  rw [listLine_eq]
  unfold classified at hecho ⊢
  split_ifs with hfile
  · rw [if_pos hfile] at hecho
    rw [line_eq_ofList true (by decide), hecho _ rfl]
    simp [String.toList_append]
  · rw [if_neg hfile] at hecho
    cases hs : stripSuffix PARTIAL_SUFFIX x.val with
    | none => simp
    | some backup_id =>
      rw [hs] at hecho
      dsimp only
      rw [line_eq_ofList false (by decide), hecho _ rfl]
      simp [String.toList_append]

/-- The output of the script is the lines of the directories that have one. -/
theorem listOutput_toList (hecho : ∀ x ∈ globbed t P, Echoes shell t P x) :
    (listOutput shell t P).toList =
      ((globbed t P).filterMap (fun x =>
        (classified t P x).map (fun c => lineText c (reading shell t P x)))).flatMap
        (· ++ ['\n']) := by
  rw [listOutput]
  generalize globbed t P = xs at hecho
  induction xs with
  | nil => rfl
  | cons x xs ih =>
    rw [List.map_cons, String.join_cons, String.toList_append,
      listLine_toList (hecho x List.mem_cons_self),
      ih (fun y hy => hecho y (List.mem_cons_of_mem _ hy)),
      List.filterMap_cons]
    cases (classified t P x).map (fun c => lineText c (reading shell t P x)) <;> simp

theorem statusWord_oneField (complete : Bool) : OneField (statusWord complete) :=
  oneField_of_no_space (by cases complete <;> decide)

theorem intText_oneField (z : ℤ) : OneField (intText z) :=
  oneField_of_no_space (intText_not_space z)

/-- A line of three words is split into them. -/
theorem parse_list_line_text {c : Bool × String} (hid : OneField c.2.toList)
    (seconds : ℤ) : parse_list_line (lineText c seconds) = (do
      let seconds ← pyIntText (String.ofList (intText seconds))
      let stored_at ← stampOf seconds
      pure (some ⟨c.2, c.1, stored_at⟩)) := by
  have hsplit : (lineText c seconds).splitOn ' ' =
      [statusWord c.1, c.2.toList, intText seconds] := by
    rw [lineText, List.splitOn_append_cons_of_beq _ _ (by rfl),
      List.splitOn_append_cons_of_beq _ _ (by rfl),
      splitOn_of_notMem (statusWord_oneField c.1).1, splitOn_of_notMem hid.1,
      splitOn_of_notMem (intText_oneField seconds).1]
    rfl
  have hstatus : decide (statusWord c.1 = "COMPLETE".toList) = c.1 := by
    cases c.1 <;> decide
  rw [parse_list_line, hsplit]
  simp only [hstatus, String.ofList_toList]

theorem second_scaled (z : ℤ) : second (z * 1000000) = z := by
  rw [second]
  omega

theorem representable_scaled {i : Instant} :
    Representable (second i * 1000000) ↔ Representable i := by
  rw [Representable, Representable, second_scaled]

theorem pyIntText_seconds {z : ℤ} (h : Representable (z * 1000000)) :
    pyIntText (String.ofList (intText z)) = .ok z := by
  rw [Representable, second_scaled, epochSecond] at h
  have hlt : z.natAbs < 10 ^ 12 := by omega
  have hlen : (natText z.natAbs).length ≤ maxStrDigits :=
    ((Nat.length_toDigits_le_iff (by omega) (by omega)).mpr hlt).trans (by decide)
  rw [pyIntText, String.toList_ofList, pyInt_intText hlen]

/-- A line with a time that has a reading is read back as it was written. -/
theorem parse_list_line_dated {c : Bool × String} (hid : OneField c.2.toList)
    {seconds : ℤ} (h : Representable (seconds * 1000000)) :
    parse_list_line (lineText c seconds) =
      .ok (some ⟨c.2, c.1, Datetime.utc (seconds * 1000000)⟩) := by
  have hstamp : stampOf seconds = .ok (Datetime.utc (seconds * 1000000)) := if_pos h
  rw [parse_list_line_text hid, pyIntText_seconds h]
  simp only [Bind.bind, Except.bind, hstamp]
  rfl

/-- The id of a directory's line is part of its name. -/
theorem mem_classified {c : Bool × String} (h : classified t P x = some c) {a : Char}
    (ha : a ∈ c.2.toList) : a ∈ x.val.toList := by
  rw [classified] at h
  split_ifs at h
  · rwa [← Option.some.inj h] at ha
  · obtain ⟨s, hs, rfl⟩ := Option.map_eq_some_iff.mp h
    rw [stripSuffix_eq_some.mp hs, String.toList_append]
    exact List.mem_append_left _ ha

theorem lineText_oneLine {c : Bool × String} (hid : OneField c.2.toList)
    (seconds : ℤ) : OneLine (lineText c seconds) := by
  have hspace : ∀ b ∈ [' '], b ≠ '\r' ∧ isLineBreak b = false := by decide
  intro a ha
  simp only [lineText, List.mem_append, List.mem_cons] at ha
  rcases ha with ha | rfl | ha | rfl | ha
  · exact (statusWord_oneField c.1).2 a ha
  · exact hspace _ (by simp)
  · exact hid.2 a ha
  · exact hspace _ (by simp)
  · exact (intText_oneField seconds).2 a ha

/-- The line of a directory without a backslash in its name is written as it is. -/
theorem echoes_of_no_backslash (hx : '\\' ∉ x.val.toList) : Echoes shell t P x := by
  intro c hc
  apply shell.echo_plain
  rw [String.toList_ofList]
  intro hslash
  have hword : ∀ b ∈ statusWord c.1, b ≠ '\\' := by
    cases c.1 <;> decide
  simp only [lineText, List.mem_append, List.mem_cons] at hslash
  rcases hslash with h | h | h | h | h
  · exact hword _ h rfl
  · cases h
  · exact hx (mem_classified hc h)
  · cases h
  · exact intText_not_backslash _ h

/-- The id of the line of a directory is one field, when the directory's name is. -/
theorem classified_oneField {c : Bool × String} (h : classified t P x = some c)
    (hx : OneField x.val.toList) : OneField c.2.toList :=
  ⟨fun ha => hx.1 (mem_classified h ha), fun a ha => hx.2 a (mem_classified h ha)⟩

/-- The lines that `parse_list_output` sees. -/
theorem splitlines_listOutput (hecho : ∀ x ∈ globbed t P, Echoes shell t P x)
    (hfield : ∀ x ∈ globbed t P, OneField x.val.toList) :
    splitlines (listOutput shell t P).toList = (globbed t P).filterMap (fun x =>
      (classified t P x).map (fun c => lineText c (reading shell t P x))) := by
  rw [listOutput_toList hecho]
  apply splitlines_flatMap
  intro l hl
  obtain ⟨x, hx, hmap⟩ := List.mem_filterMap.mp hl
  obtain ⟨c, hc, rfl⟩ := Option.map_eq_some_iff.mp hmap
  exact lineText_oneLine (classified_oneField hc (hfield x hx)) _

/-- What is read back of a listing whose times have a reading. -/
theorem parse_list_output_dated (hecho : ∀ x ∈ globbed t P, Echoes shell t P x)
    (hfield : ∀ x ∈ globbed t P, OneField x.val.toList)
    (hdated : ∀ x ∈ globbed t P, (classified t P x).isSome = true →
      Representable (reading shell t P x * 1000000)) :
    parse_list_output (listOutput shell t P) =
      .ok ((globbed t P).filterMap (reported shell t P)) := by
  rw [parse_list_output, splitlines_listOutput hecho hfield]
  generalize globbed t P = xs at hfield hdated
  induction xs with
  | nil => rfl
  | cons x xs ih =>
    have htail := ih (fun y hy => hfield y (List.mem_cons_of_mem _ hy))
      (fun y hy => hdated y (List.mem_cons_of_mem _ hy))
    rw [List.filterMap_cons, List.filterMap_cons, reported]
    cases hc : classified t P x with
    | none => simpa using htail
    | some c =>
      have hline := parse_list_line_dated (c := c)
        (classified_oneField hc (hfield x List.mem_cons_self))
        (hdated x List.mem_cons_self (by rw [hc]; rfl))
      simp only [Option.map_some, parse_list_lines, hline, htail, Bind.bind, Except.bind]
      rfl

/-- A listing that returns holds an entry for every line. -/
theorem mem_of_parse_list_lines {ls : List (List Char)} {stored : List StoredBackup}
    (h : parse_list_lines ls = .ok stored) {l : List Char} (hl : l ∈ ls) :
    ∃ r, parse_list_line l = .ok r ∧ ∀ b ∈ r, b ∈ stored := by
  induction ls generalizing stored with
  | nil => cases hl
  | cons l' ls ih =>
    obtain ⟨first, hfirst, h⟩ := except_bind_ok h
    obtain ⟨rest, hrest, h⟩ := except_bind_ok h
    obtain rfl : first.toList ++ rest = stored := Except.ok.inj h
    rcases List.mem_cons.mp hl with rfl | hl
    · exact ⟨first, hfirst, fun b hb => List.mem_append_left _ (Option.mem_toList.mpr hb)⟩
    · obtain ⟨r, hr, hmem⟩ := ih hrest hl
      exact ⟨r, hr, fun b hb => List.mem_append_right _ (hmem b hb)⟩

/-- A line that is read back has a time that has a reading. -/
theorem representable_of_parse {c : Bool × String} (hid : OneField c.2.toList)
    {seconds : ℤ} {r : Option StoredBackup} (h : parse_list_line (lineText c seconds) = .ok r) :
    Representable (seconds * 1000000) := by
  rw [parse_list_line_text hid] at h
  obtain ⟨z, hz, h⟩ := except_bind_ok h
  obtain ⟨stored_at, hstamp, -⟩ := except_bind_ok h
  have hread : pyInt (intText seconds) = some z := by
    rw [pyIntText, String.toList_ofList] at hz
    cases hp : pyInt (intText seconds) with
    | none => simp [hp] at hz
    | some z' => simpa [hp] using hz
  rw [pyInt_intText_eq hread] at hstamp
  by_contra hnot
  rw [stampOf, if_neg hnot] at hstamp
  cases hstamp

/-- A line that is read back has the id and the flag that were written. -/
theorem record_of_parse {c : Bool × String} (hid : OneField c.2.toList)
    {seconds : ℤ} {r : Option StoredBackup} (h : parse_list_line (lineText c seconds) = .ok r) :
    ∃ b ∈ r, b.backup_id = c.2 ∧ b.complete = c.1 := by
  rw [parse_list_line_text hid] at h
  obtain ⟨z, -, h⟩ := except_bind_ok h
  obtain ⟨stored_at, -, h⟩ := except_bind_ok h
  rw [← Except.ok.inj h]
  exact ⟨_, rfl, rfl, rfl⟩

/-- The command line of `ssh` for this command is one that a process can be started with. -/
def Launches (d : SSHDestination) (cmd : RemoteCommand) : Prop :=
  ∃ args, argvStrings (d.ssh_argv ++ [.str d.user_host, .str cmd.text]) = .ok args ∧
    args.any hasNul = false

/-- A command is started when neither its paths nor what comes before it has a NUL. -/
theorem launches_of_paths {cmd : RemoteCommand} {args : List String}
    (hargs : argvStrings (d.ssh_argv ++ [.str d.user_host]) = .ok args)
    (hnul : args.any hasNul = false) (hpaths : ∀ p ∈ cmd.paths, hasNul p.text = false) :
    d.Launches cmd := by
  have htext : hasNul cmd.text = false := by
    rw [RemoteCommand.hasNul_text, List.any_eq_false]
    exact fun p hp => by rw [hpaths p hp]; exact Bool.false_ne_true
  refine ⟨args ++ [cmd.text], ?_, ?_⟩
  · rw [List.append_cons]
    unfold argvStrings at hargs ⊢
    split_ifs at hargs with hstr
    rw [← Except.ok.inj hargs, if_pos (by rw [List.all_append, hstr]; rfl), List.map_append]
    rfl
  · rw [List.any_append, hnul, List.any_cons, htext]
    rfl

theorem Launches.started {cmd : RemoteCommand} (h : d.Launches cmd) :
    started (.ok (d.ssh_argv ++ [.str d.user_host, .str cmd.text])) = pure () := by
  obtain ⟨args, hargs, hnul⟩ := h
  exact started_of_strings hargs hnul

/-- A command that is answered. -/
theorem remote_process_answered {cmd : RemoteCommand} {w : World} (hlaunch : d.Launches cmd)
    (hlit : cmd.Literal) (hfault : (w.tape 0).fault = none) (hstatus : (w.tape 0).status = 0) :
    exec (d.remote_process cmd) w = (.ok
      ⟨(cmd.full d.node d.host w.next (w.tape 0).stamp).status,
        (cmd.full d.node d.host w.next (w.tape 0).stamp).stdout, ""⟩,
      (cmd.full d.node d.host w.next (w.tape 0).stamp).world) := by
  have hstarted : exec (started (.ok (d.ssh_argv ++ [.str d.user_host, .str cmd.text]))) w =
      (.ok (), w) := by
    rw [hlaunch.started]
    rfl
  have hcall : exec (remote_call d.node d.host cmd) w = (.ok
      ⟨(cmd.full d.node d.host w.next (w.tape 0).stamp).status,
        (cmd.full d.node d.host w.next (w.tape 0).stamp).stdout, ""⟩,
      (cmd.full d.node d.host w.next (w.tape 0).stamp).world) := by
    rw [remote_call, exec_primitive, if_pos hlit, hfault, hstatus]
    rfl
  rw [remote_process, exec_tryCatch, exec_bind_ok hstarted, hcall]

/-- The listing of a directory that is there, when `ssh` answers. -/
theorem list_backups_answered {w : World} (hp : d.path.path.At P) (hlit : Literal d.remote_path)
    (hlaunch : d.Launches (.list d.path)) (hfault : (w.tape 0).fault = none)
    (hstatus : (w.tape 0).status = 0) (hdir : (w.tree (some d.host)).isDir P = true) :
    (exec d.list_backups w).1 =
      parse_list_output (listOutput d.node.shell (w.tree (some d.host)) P) := by
  have hlist : (RemoteCommand.list d.path).Literal := fun q hq => by
    rw [List.mem_singleton.mp hq]
    exact hlit
  have hfull : (RemoteCommand.full d.node d.host w.next (w.tape 0).stamp (.list d.path)) =
      ⟨w.next, 0, listOutput d.node.shell (w.tree (some d.host)) P⟩ := by
    simp only [RemoteCommand.full, World.tree_next, hp.find, hdir, if_true]
  have hrun : exec (d.remote_run (.list d.path)) w =
      (.ok ⟨0, listOutput d.node.shell (w.tree (some d.host)) P, ""⟩, w.next) := by
    rw [remote_run, exec_bind_ok (remote_process_answered hlaunch hlist hfault hstatus), hfull]
    rfl
  rw [list_backups, exec_bind_ok hrun]
  cases parse_list_output (listOutput d.node.shell (w.tree (some d.host)) P) <;> rfl

/-- What the listings are compared by: the id, whether it is complete, and the second. -/
def seen (b : StoredBackup) : String × Bool × Option ℤ :=
  (b.backup_id, b.complete, b.stored_at.instant.map second)

/-- Both listings return, and they hold the same entries. -/
def Agree (a b : Except Exn (List StoredBackup)) : Prop :=
  ∃ xs ys, a = .ok xs ∧ b = .ok ys ∧ (xs.map seen).Perm (ys.map seen)

/-- The script and the local backend take a directory for the same: it has the suffix exactly if
it lacks the manifest, and `stat` finds its time. -/
def Alike (shell : Shell) (t : Fs) (P : Loc) (x : Name) : Prop :=
  ((stripSuffix PARTIAL_SUFFIX x.val).isSome = true ↔
      t.isFile (P ++ [x] ++ [META_FILENAME]) = false) ∧
    reading shell t P x = second (mtimeAt t (P ++ [x]))

instance (shell : Shell) (t : Fs) (P : Loc) (x : Name) : Decidable (Alike shell t P x) :=
  inferInstanceAs (Decidable (_ ∧ _))

theorem seen_utc (backup_id : String) (complete : Bool) (i : Instant) :
    seen ⟨backup_id, complete, Datetime.utc i⟩ = (backup_id, complete, some (second i)) := by
  simp [seen, Datetime.utc, Datetime.instant]

/-- What the script says of a directory, as it is compared. -/
theorem reported_seen (shell : Shell) (t : Fs) (P : Loc) (x : Name) :
    (reported shell t P x).map seen =
      (classified t P x).map (fun c => (c.2, c.1, some (reading shell t P x))) := by
  rw [reported, Option.map_map]
  congr 1
  funext c
  rw [Function.comp_apply, seen_utc, second_scaled]

/-- What the local backend says of it. -/
theorem recordOf_seen (t : Fs) (P : Loc) (x : Name) : seen (recordOf t P x) =
    (listedId x, (stripSuffix PARTIAL_SUFFIX x.val).isNone &&
      t.isFile (P ++ [x] ++ [META_FILENAME]), some (second (mtimeAt t (P ++ [x])))) := by
  rw [recordOf, listedId]
  cases stripSuffix PARTIAL_SUFFIX x.val <;> simp [seen_utc]

theorem seen_of_alike (h : Alike shell t P x) :
    (reported shell t P x).map seen = some (seen (recordOf t P x)) := by
  obtain ⟨hiff, hread⟩ := h
  rw [reported_seen, recordOf_seen, hread, classified, listedId]
  cases hs : stripSuffix PARTIAL_SUFFIX x.val with
  | none =>
    rw [hs] at hiff
    have hfile : t.isFile (P ++ [x] ++ [META_FILENAME]) = true := by
      by_contra hf
      exact absurd (hiff.mpr (by simpa using hf)) (by simp)
    rw [if_pos hfile, hfile]
    rfl
  | some s =>
    rw [hs] at hiff
    rw [if_neg (ne_true_of_eq_false (hiff.mp rfl))]
    rfl

/-- Among the elements of a list as many have `q` as have `p`, which implies it: then every one
with `q` has `p`. -/
theorem forall_of_countP_eq {α : Type} {p q : α → Bool} {D : List α}
    (hpq : ∀ a ∈ D, p a = true → q a = true) (h : D.countP q ≤ D.countP p) :
    ∀ a ∈ D, q a = true → p a = true := by
  induction D with
  | nil => simp
  | cons b D ih =>
    have htail : D.countP p ≤ D.countP q :=
      List.countP_mono_left (fun a ha => hpq a (List.mem_cons_of_mem _ ha))
    have hhead := hpq b List.mem_cons_self
    simp only [List.countP_cons] at h
    have hb : q b = true → p b = true := by
      intro hq
      by_contra hp
      simp only [hq, if_true, if_neg hp] at h
      omega
    have hrest : D.countP q ≤ D.countP p := by
      by_cases hq : q b = true
      · simp only [hq, hb hq, if_true] at h
        omega
      · have hp : ¬ p b = true := fun hp => hq (hhead hp)
        simp only [if_neg hq, if_neg hp] at h
        omega
    intro a ha
    rcases List.mem_cons.mp ha with rfl | ha
    · exact hb
    · exact ih (fun a ha => hpq a (List.mem_cons_of_mem _ ha)) hrest a ha

/-- The line of a directory that has one, as it is compared. -/
def lineSeen (shell : Shell) (t : Fs) (P : Loc) (x : Name) : String × Bool × Option ℤ :=
  (if t.isFile (P ++ [x] ++ [META_FILENAME]) then x.val else listedId x,
    t.isFile (P ++ [x] ++ [META_FILENAME]), some (reading shell t P x))

theorem reported_eq_lineSeen (h : ((reported shell t P x).map seen).isSome = true) :
    (reported shell t P x).map seen = some (lineSeen shell t P x) := by
  rw [reported_seen, classified] at h ⊢
  rw [lineSeen, listedId]
  cases hf : t.isFile (P ++ [x] ++ [META_FILENAME]) with
  | true => rfl
  | false =>
    rw [hf] at h
    cases hs : stripSuffix PARTIAL_SUFFIX x.val with
    | none =>
      rw [hs] at h
      cases h
    | some s => rfl

/-- A directory with a line has the manifest or the suffix. -/
theorem isFile_of_reported (h : ((reported shell t P x).map seen).isSome = true)
    (hplain : stripSuffix PARTIAL_SUFFIX x.val = none) :
    t.isFile (P ++ [x] ++ [META_FILENAME]) = true := by
  rw [reported_seen, classified, hplain] at h
  by_contra hf
  rw [if_neg hf] at h
  cases h

/-- Where the suffix and the manifest exclude each other, the id and the flag of an entry tell
its name. -/
theorem entry_eq_of_id {y : Name}
    (hy : (stripSuffix PARTIAL_SUFFIX y.val).isSome = true ↔
      t.isFile (P ++ [y] ++ [META_FILENAME]) = false)
    (hx : (stripSuffix PARTIAL_SUFFIX x.val).isSome = true ↔
      t.isFile (P ++ [x] ++ [META_FILENAME]) = false)
    (hid : (if t.isFile (P ++ [y] ++ [META_FILENAME]) then y.val else listedId y) = listedId x)
    (hflag : t.isFile (P ++ [y] ++ [META_FILENAME]) = ((stripSuffix PARTIAL_SUFFIX x.val).isNone &&
      t.isFile (P ++ [x] ++ [META_FILENAME]))) : y = x := by
  apply Subtype.ext
  rw [listedId, listedId] at hid
  cases hfy : t.isFile (P ++ [y] ++ [META_FILENAME]) with
  | true =>
    rw [hfy] at hid hflag
    have hnone := Option.isNone_iff_eq_none.mp (Bool.and_eq_true_iff.mp hflag.symm).1
    rw [hnone] at hid
    exact hid
  | false =>
    rw [hfy] at hid hflag
    obtain ⟨s, hs⟩ := Option.isSome_iff_exists.mp (hy.mpr hfy)
    cases hsx : stripSuffix PARTIAL_SUFFIX x.val with
    | none =>
      rw [hsx] at hflag hx
      have hfx : t.isFile (P ++ [x] ++ [META_FILENAME]) = false := hflag.symm
      exact absurd (hx.mpr hfx) (by simp)
    | some s' =>
      rw [hs, hsx] at hid
      have hss : s = s' := hid
      rw [stripSuffix_eq_some.mp hs, stripSuffix_eq_some.mp hsx, hss]

/-- What the two listings say of the directories of one list agrees only where it agrees of each
of them. -/
theorem alike_of_perm {D : List Name}
    (h : (D.map (fun x => seen (recordOf t P x))).Perm
      (D.filterMap (fun x => (reported shell t P x).map seen))) :
    ∀ x ∈ D, Alike shell t P x := by
  -- there is a line for every directory
  have hsome : ∀ x ∈ D, ((reported shell t P x).map seen).isSome = true := by
    apply List.filterMap_length_eq_length.mp
    rw [← h.length_eq, List.length_map]
  have hlines : D.filterMap (fun x => (reported shell t P x).map seen) =
      D.map (lineSeen shell t P) := by
    rw [← List.filterMap_eq_map]
    exact List.filterMap_congr (fun x hx => reported_eq_lineSeen (hsome x hx))
  rw [hlines] at h
  -- as many are complete for the one as for the other
  have hcount := h.countP_eq (fun s => s.2.1)
  rw [List.countP_map, List.countP_map] at hcount
  have hcomplete := forall_of_countP_eq (D := D)
    (p := (fun s : String × Bool × Option ℤ => s.2.1) ∘ fun x => seen (recordOf t P x))
    (q := (fun s : String × Bool × Option ℤ => s.2.1) ∘ lineSeen shell t P)
    (fun x _ hx => by
      rw [Function.comp_apply, recordOf_seen] at hx
      exact (Bool.and_eq_true_iff.mp hx).2) hcount.ge
  have hplain : ∀ x ∈ D, t.isFile (P ++ [x] ++ [META_FILENAME]) = true →
      stripSuffix PARTIAL_SUFFIX x.val = none := by
    intro x hx hf
    have hc := hcomplete x hx hf
    rw [Function.comp_apply, recordOf_seen] at hc
    exact Option.isNone_iff_eq_none.mp (Bool.and_eq_true_iff.mp hc).1
  have hiff : ∀ x ∈ D, (stripSuffix PARTIAL_SUFFIX x.val).isSome = true ↔
      t.isFile (P ++ [x] ++ [META_FILENAME]) = false := by
    intro x hx
    constructor
    · intro hs
      by_contra hf
      rw [hplain x hx (by simpa using hf)] at hs
      cases hs
    · intro hf
      by_contra hs
      have hnone : stripSuffix PARTIAL_SUFFIX x.val = none := by simpa using hs
      rw [isFile_of_reported (hsome x hx) hnone] at hf
      cases hf
  intro x hx
  refine ⟨hiff x hx, ?_⟩
  -- the id and the flag tell the directories apart
  have hmem : seen (recordOf t P x) ∈ D.map (lineSeen shell t P) :=
    h.subset (List.mem_map.mpr ⟨x, hx, rfl⟩)
  obtain ⟨y, hy, hyx⟩ := List.mem_map.mp hmem
  rw [recordOf_seen, lineSeen, Prod.mk.injEq, Prod.mk.injEq] at hyx
  obtain ⟨hid, hflag, htime⟩ := hyx
  have hxy : y = x := entry_eq_of_id (hiff y hy) (hiff x hx) hid hflag
  rw [hxy] at htime
  exact Option.some.inj htime

theorem mem_globbed : x ∈ globbed t P ↔
    t.kind (P ++ [x]) = some .dir ∧ x.val.toList.head? ≠ some '.' := by
  rw [globbed, (List.perm_insertionSort _ _).mem_iff, List.mem_filter, mem_dirsIn,
    decide_eq_true_eq]

/-- The glob yields the directories whose name does not begin with a dot. -/
theorem globbed_perm (hdot : ∀ x ∈ dirsIn t P, x.val.toList.head? ≠ some '.') :
    (globbed t P).Perm (dirsIn t P) := by
  have hall : (dirsIn t P).filter (fun x => x.val.toList.head? ≠ some '.') = dirsIn t P := by
    rw [List.filter_eq_self]
    intro x hx
    simpa using hdot x hx
  rw [globbed, hall]
  exact List.perm_insertionSort _ _

/-- A directory's listing over `ssh` that returned had a time with a reading for every line. -/
theorem dated_of_parse {xs : List Name} {stored : List StoredBackup}
    (hfield : ∀ x ∈ xs, OneField x.val.toList)
    (h : parse_list_lines (xs.filterMap (fun x =>
      (classified t P x).map (fun c => lineText c (reading shell t P x)))) = .ok stored) :
    ∀ x ∈ xs, (classified t P x).isSome = true → Representable (reading shell t P x * 1000000) := by
  intro x hx hc
  obtain ⟨c, hc⟩ := Option.isSome_iff_exists.mp hc
  have hl : lineText c (reading shell t P x) ∈ xs.filterMap (fun x =>
      (classified t P x).map (fun c => lineText c (reading shell t P x))) :=
    List.mem_filterMap.mpr ⟨x, hx, by rw [hc]; rfl⟩
  obtain ⟨r, hr, -⟩ := mem_of_parse_list_lines h hl
  exact representable_of_parse (classified_oneField hc (hfield x hx)) hr

/-- A listing that returned holds what the script says of each directory. -/
theorem parse_list_output_ok (hecho : ∀ x ∈ globbed t P, Echoes shell t P x)
    (hfield : ∀ x ∈ globbed t P, OneField x.val.toList) {stored : List StoredBackup}
    (h : parse_list_output (listOutput shell t P) = .ok stored) :
    stored = (globbed t P).filterMap (reported shell t P) := by
  have hlines := h
  rw [parse_list_output, splitlines_listOutput hecho hfield] at hlines
  rw [parse_list_output_dated hecho hfield (dated_of_parse hfield hlines)] at h
  exact (Except.ok.inj h).symm

/-- What is listed as complete is a directory with the manifest, under its own name. -/
theorem complete_reported {b : StoredBackup} (h : reported shell t P x = some b)
    (hb : b.complete = true) :
    x.val = b.backup_id ∧ t.isFile (P ++ [x] ++ [META_FILENAME]) = true := by
  obtain ⟨c, hc, rfl⟩ := Option.map_eq_some_iff.mp h
  rw [classified] at hc
  split_ifs at hc with hfile
  · obtain rfl := Option.some.inj hc
    exact ⟨rfl, hfile⟩
  · obtain ⟨backup_id, -, rfl⟩ := Option.map_eq_some_iff.mp hc
    cases hb

/-- Over names without white space and without a leading dot, and a shell whose `echo` writes the
lines as they are, the two listings of one directory return and agree exactly if every time in it
has a reading and every directory has the suffix or the manifest, but not both, and its time is
what `stat` finds. -/
theorem backends_agree_iff {l : LocalDestination} (hl : l.path.At P) (hd : d.path.path.At P)
    (hlit : Literal d.remote_path) (hlaunch : d.Launches (.list d.path)) {w v : World}
    (hw : w.fs = t) (hv : v.tree (some d.host) = t) (hcalm : Calm w)
    (hfault : (v.tape 0).fault = none) (hstatus : (v.tape 0).status = 0) (hdir : t.isDir P = true)
    (hspace : ∀ x ∈ t.children P, ∀ a ∈ x.val.toList, isSpace a = false)
    (hdot : ∀ x ∈ t.children P, x.val.toList.head? ≠ some '.')
    (hecho : ∀ x ∈ dirsIn t P, Echoes d.node.shell t P x) :
    Agree (exec l.list_backups w).1 (exec d.list_backups v).1 ↔
      Dated t P ∧ ∀ x ∈ dirsIn t P, Alike d.node.shell t P x := by
  have hsub : ∀ x ∈ dirsIn t P, x ∈ t.children P := fun x hx => (List.mem_filter.mp hx).1
  have hperm := globbed_perm (fun x hx => hdot x (hsub x hx))
  have hglob : ∀ x ∈ globbed t P, x ∈ dirsIn t P := fun x hx => hperm.subset hx
  have hfield : ∀ x ∈ globbed t P, OneField x.val.toList := fun x hx =>
    oneField_of_no_space (hspace x (hsub x (hglob x hx)))
  have hecho' : ∀ x ∈ globbed t P, Echoes d.node.shell t P x := fun x hx => hecho x (hglob x hx)
  have hlocal : (exec l.list_backups w).1 = if Dated t P then .ok (records t P)
      else .error undated := by
    rw [((list_backups_reads hl).calm w hcalm).1]
    have hfs : w.tree none = t := hw
    rw [hfs, if_pos hdir]
  have hremote : (exec d.list_backups v).1 = parse_list_output (listOutput d.node.shell t P) := by
    rw [list_backups_answered hd hlit hlaunch hfault hstatus (by rw [hv, hdir]), hv]
  rw [hlocal, hremote]
  have hrecords : ((records t P).map seen) = (dirsIn t P).map (fun x => seen (recordOf t P x)) := by
    rw [records, List.map_map]
    rfl
  have hreported : ((globbed t P).filterMap (reported d.node.shell t P)).map seen =
      (globbed t P).filterMap (fun x => (reported d.node.shell t P x).map seen) := by
    rw [List.map_filterMap]
  constructor
  · rintro ⟨xs, ys, hxs, hys, hagree⟩
    split_ifs at hxs with hdated
    obtain rfl := Except.ok.inj hxs
    have hreadable : ∀ x ∈ globbed t P, (classified t P x).isSome = true →
        Representable (reading d.node.shell t P x * 1000000) := by
      rw [parse_list_output, splitlines_listOutput hecho' hfield] at hys
      exact dated_of_parse hfield hys
    rw [parse_list_output_dated hecho' hfield hreadable] at hys
    rw [← Except.ok.inj hys, hrecords, hreported] at hagree
    exact ⟨hdated, alike_of_perm (hagree.trans (hperm.filterMap _))⟩
  · rintro ⟨hdated, halike⟩
    have hreadable : ∀ x ∈ globbed t P, (classified t P x).isSome = true →
        Representable (reading d.node.shell t P x * 1000000) := by
      intro x hx _
      rw [(halike x (hglob x hx)).2, representable_scaled]
      exact hdated x (hglob x hx)
    refine ⟨_, _, if_pos hdated, parse_list_output_dated hecho' hfield hreadable, ?_⟩
    have hsame : (dirsIn t P).map (fun x => seen (recordOf t P x)) =
        (dirsIn t P).filterMap (fun x => (reported d.node.shell t P x).map seen) := by
      rw [← List.filterMap_eq_map]
      exact List.filterMap_congr (fun x hx => (seen_of_alike (halike x hx)).symm)
    rw [hrecords, hreported, hsame]
    exact hperm.symm.filterMap _

theorem smallRemote_launches {cmd : RemoteCommand} (h : ∀ p ∈ cmd.paths, hasNul p.text = false) :
    smallRemote.Launches cmd := launches_of_paths rfl (by decide +kernel) h

theorem smallRemote_at : smallRemote.path.path.At [entry "b"] := ⟨⟨[], rfl, by decide⟩, rfl⟩

/-- What the small remote destination lists when `ssh` answers. -/
theorem smallRemote_lists {w : World} (hfault : (w.tape 0).fault = none)
    (hstatus : (w.tape 0).status = 0) (hdir : (w.tree (some "vault")).isDir [entry "b"] = true) :
    (exec smallRemote.list_backups w).1 =
      parse_list_output (listOutput Shell.plain (w.tree (some "vault")) [entry "b"]) :=
  list_backups_answered smallRemote_at (by decide) (smallRemote_launches (by decide)) hfault hstatus
    hdir

/-- What a rename that never came leaves: `x.partial` with its manifest. -/
def unrenamed : Fs := smallTree.addGeneration [entry "b", entry "x.partial"]

/-- The local backend lists the incomplete `x`, the script a complete `x.partial`. -/
theorem backends_disagree :
    ¬ Agree (exec smallLocal.list_backups (smallWorld unrenamed)).1
      (exec smallRemote.list_backups (remoteWorld smallTree unrenamed)).1 := by
  have hlocal : (exec smallLocal.list_backups (smallWorld unrenamed)).1 =
      .ok [⟨"x", false, Datetime.utc 0⟩] := by decide +kernel
  have hremote : (exec smallRemote.list_backups (remoteWorld smallTree unrenamed)).1 =
      .ok [⟨"x.partial", true, Datetime.utc 0⟩] := by
    rw [smallRemote_lists rfl rfl (by decide +kernel)]
    decide +kernel
  rw [hlocal, hremote]
  rintro ⟨xs, ys, hxs, hys, hperm⟩
  rw [← Except.ok.inj hxs, ← Except.ok.inj hys] at hperm
  revert hperm
  decide +kernel

/-- Two generations, and one that is being built. -/
def shelvedTree : Fs :=
  ((smallTree.addGeneration [entry "b", entry "p-1"]).addGeneration [entry "b", entry "p-2"]).create
    [entry "b", entry "p-3.partial"] .dir 0

theorem backends_agree_iff_generations :
    Agree (exec smallLocal.list_backups (smallWorld shelvedTree)).1
      (exec smallRemote.list_backups (remoteWorld smallTree shelvedTree)).1 := by
  have hp : smallLocal.path.At [entry "b"] := ⟨⟨[], rfl, by decide⟩, rfl⟩
  have hlaunch : smallRemote.Launches (.list smallRemote.path) := smallRemote_launches (by decide)
  exact (backends_agree_iff (t := shelvedTree) (v := remoteWorld smallTree shelvedTree) hp
    smallRemote_at (by decide) hlaunch (fs_smallWorld _) rfl (smallWorld_calm _) rfl rfl
    (by decide +kernel) (by decide +kernel) (by decide +kernel) (fun _ _ _ _ => rfl)).mpr
      (by decide +kernel)

end SSHDestination

end MbKeeper
