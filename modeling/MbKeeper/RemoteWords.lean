import MbKeeper.RemoteShell
import MbKeeper.ShellWords

/-!
# The words of the remote commands

Every remote command is a text with paths between double quotes, and the shell
of the node reads it. A path is read as it is written exactly when it holds
nothing that has a meaning there. The ids come from the names of directories on
the node, so a directory can be named to make a purge run anything.
-/
namespace MbKeeper

open ShellWords (Inert StandsFor quoted lex emit)

namespace RemoteCommand

/-- The tokens that a command is made of, each path between quotes. -/
def tokens : RemoteCommand → List (List Char)
  | test_f path => ["test".toList, "-f".toList, quoted path.text]
  | mkdir_p path => ["mkdir".toList, "-p".toList, quoted path.text]
  | mv src dst => ["mv".toList, quoted src.text, quoted dst.text]
  | rm_rf final part => ["rm".toList, "-rf".toList, quoted final.text, quoted part.text]
  | list path => ["set", "-e", ";", "cd"].map String.toList ++ [quoted path.text] ++
      ["2", ">", "/dev/null", "||", "exit", "0", ";", "for", "entry", "in", "*/", ";", "do"].map
        String.toList
  | probe path file => ["mkdir".toList, "-p".toList, quoted path.text, "&&".toList,
      "touch".toList, quoted file.text, "&&".toList, "rm".toList, "-f".toList, quoted file.text]

/-- The rest of the list script, from its own first expansion on. -/
def unread : RemoteCommand → List Char
  | list _ => (ShellWords.tokens (LIST_SCRIPT "" META_FILENAME.val PARTIAL_SUFFIX)).2
  | _ => []

/-- The shell reads these tokens, and every path in them stands for itself. -/
structure ReadsLiterally (cmd : RemoteCommand) : Prop where
  tokens : ShellWords.tokens cmd.text = (cmd.tokens, cmd.unread)
  paths : ∀ p ∈ cmd.paths, StandsFor (quoted p.text) p.text

theorem lex_word (word : String) (rest : List Char)
    (hne : word.toList ≠ [] := by decide)
    (h : ∀ c ∈ word.toList, ShellWords.isOrdinary c = true := by decide) :
    lex .between (word.toList ++ ' ' :: rest) = emit word.toList (lex .between rest) :=
  ShellWords.lex_ordinary hne h rest

theorem lex_quoted {s : String} (h : Inert s) (rest : List Char) :
    lex .between ('"' :: (s.toList ++ '"' :: rest)) = lex (.word (quoted s)) rest :=
  ShellWords.lex_double h ['"'] rest

theorem lex_quoted_end {s : String} (h : Inert s) :
    lex .between ('"' :: (s.toList ++ ['"'])) = ([quoted s], []) := lex_quoted h []

theorem lex_quoted_blank {s : String} (h : Inert s) (rest : List Char) :
    lex .between ('"' :: (s.toList ++ '"' :: ' ' :: rest)) =
      emit (quoted s) (lex .between rest) := lex_quoted h (' ' :: rest)

theorem lex_quoted_and {s : String} (h : Inert s) (rest : List Char) :
    lex .between ('"' :: (s.toList ++ '"' :: ' ' :: '&' :: '&' :: ' ' :: rest)) =
      emit (quoted s) (emit "&&".toList (lex .between rest)) :=
  lex_quoted h (' ' :: '&' :: '&' :: ' ' :: rest)

theorem list_script_split (metaName suffix : String) : ∃ tail, ∀ path : String,
    LIST_SCRIPT path metaName suffix = "set -e; cd \"" ++ (path ++ ("\" 2>/dev/null || exit 0; " ++
      ("for entry in */; do " ++ ("name=\"$\x7bentry%/\x7d\"; " ++ tail)))) := by
  have hstr (s : String) : toString s = s := rfl
  refine ⟨?tail, fun path => ?eq⟩
  case eq =>
    unfold LIST_SCRIPT
    simp only [hstr, String.append_assoc]
    rfl

theorem lex_list_head (rest : List Char) : lex .between ("set -e; cd ".toList ++ rest) =
    emit "set".toList (emit "-e".toList (emit ";".toList (emit "cd".toList
      (lex .between rest)))) := rfl

theorem lex_list_guard (rest : List Char) :
    lex .between ("2>/dev/null || exit 0; ".toList ++ rest) =
    emit "2".toList (emit ">".toList (emit "/dev/null".toList (emit "||".toList
      (emit "exit".toList (emit "0".toList (emit ";".toList (lex .between rest))))))) := rfl

theorem lex_list_loop (rest : List Char) : lex .between ("for entry in */; do ".toList ++ rest) =
    emit "for".toList (emit "entry".toList (emit "in".toList (emit "*/".toList
      (emit ";".toList (emit "do".toList (lex .between rest)))))) := rfl

/-- The body of the loop begins with an expansion of its own. -/
theorem lex_list_body (rest : List Char) :
    lex .between ("name=\"$\x7bentry%/\x7d\"; ".toList ++ rest) =
      ([], "name=\"$\x7bentry%/\x7d\"; ".toList ++ rest) := rfl

/-- Up to that expansion the list script has its tokens, and what is left does not depend on the
path. -/
theorem tokens_list : ∃ rest, ∀ path, Inert path →
    ShellWords.tokens (LIST_SCRIPT path META_FILENAME.val PARTIAL_SUFFIX) =
      (["set", "-e", ";", "cd"].map String.toList ++ [quoted path] ++
        ["2", ">", "/dev/null", "||", "exit", "0", ";", "for", "entry", "in", "*/", ";", "do"].map
          String.toList, rest) := by
  obtain ⟨tail, htail⟩ := list_script_split META_FILENAME.val PARTIAL_SUFFIX
  refine ⟨"name=\"$\x7bentry%/\x7d\"; ".toList ++ tail.toList, fun path hpath => ?_⟩
  have htext : (LIST_SCRIPT path META_FILENAME.val PARTIAL_SUFFIX).toList =
      "set -e; cd ".toList ++ '"' :: (path.toList ++ '"' :: ' ' ::
        ("2>/dev/null || exit 0; ".toList ++ ("for entry in */; do ".toList ++
          ("name=\"$\x7bentry%/\x7d\"; ".toList ++ tail.toList)))) := by
    rw [htail path]
    simp only [String.toList_append]
    rfl
  rw [ShellWords.tokens, htext, lex_list_head, lex_quoted_blank hpath, lex_list_guard,
    lex_list_loop, lex_list_body]
  simp only [emit, List.map_cons, List.map_nil, List.cons_append, List.nil_append]

/-- When nothing in its paths has a meaning to the shell, a command has the tokens it is made
of. -/
theorem tokens_text {cmd : RemoteCommand} (h : ∀ p ∈ cmd.paths, Inert p.text) :
    ShellWords.tokens cmd.text = (cmd.tokens, cmd.unread) := by
  cases cmd with
  | test_f path =>
    have hpath := h path (by simp [paths])
    have htext : (text (test_f path)).toList = "test".toList ++ ' ' :: ("-f".toList ++
        ' ' :: '"' :: (path.text.toList ++ ['"'])) := by
      unfold text
      simp [toString]
    rw [ShellWords.tokens, htext, lex_word "test", lex_word "-f", lex_quoted_end hpath]
    rfl
  | mkdir_p path =>
    have hpath := h path (by simp [paths])
    have htext : (text (mkdir_p path)).toList = "mkdir".toList ++ ' ' :: ("-p".toList ++
        ' ' :: '"' :: (path.text.toList ++ ['"'])) := by
      unfold text
      simp [toString]
    rw [ShellWords.tokens, htext, lex_word "mkdir", lex_word "-p", lex_quoted_end hpath]
    rfl
  | mv src dst =>
    have hsrc := h src (by simp [paths])
    have hdst := h dst (by simp [paths])
    have htext : (text (mv src dst)).toList = "mv".toList ++ ' ' :: '"' :: (src.text.toList ++
        '"' :: ' ' :: '"' :: (dst.text.toList ++ ['"'])) := by
      unfold text
      simp [toString]
    rw [ShellWords.tokens, htext, lex_word "mv", lex_quoted_blank hsrc, lex_quoted_end hdst]
    rfl
  | rm_rf final part =>
    have hfinal := h final (by simp [paths])
    have hpart := h part (by simp [paths])
    have htext : (text (rm_rf final part)).toList = "rm".toList ++ ' ' :: ("-rf".toList ++
        ' ' :: '"' :: (final.text.toList ++ '"' :: ' ' :: '"' :: (part.text.toList ++ ['"']))) := by
      unfold text
      simp [toString]
    rw [ShellWords.tokens, htext, lex_word "rm", lex_word "-rf", lex_quoted_blank hfinal,
      lex_quoted_end hpart]
    rfl
  | list path =>
    have hpath := h path (by simp [paths])
    obtain ⟨rest, hrest⟩ := tokens_list
    have hempty := congrArg Prod.snd (hrest "" (by decide))
    rw [tokens, unread, hempty]
    exact hrest path.text hpath
  | probe path file =>
    have hpath := h path (by simp [paths])
    have hfile := h file (by simp [paths])
    have htext : (text (probe path file)).toList = "mkdir".toList ++ ' ' :: ("-p".toList ++
        ' ' :: '"' :: (path.text.toList ++ '"' :: ' ' :: '&' :: '&' :: ' ' :: ("touch".toList ++
          ' ' :: '"' :: (file.text.toList ++ '"' :: ' ' :: '&' :: '&' :: ' ' :: ("rm".toList ++
            ' ' :: ("-f".toList ++ ' ' :: '"' :: (file.text.toList ++ ['"']))))))) := by
      unfold text
      simp [toString]
    rw [ShellWords.tokens, htext, lex_word "mkdir", lex_word "-p", lex_quoted_and hpath,
      lex_word "touch",
      lex_quoted_and hfile, lex_word "rm", lex_word "-f", lex_quoted_end hfile]
    rfl

theorem readsLiterally_iff (cmd : RemoteCommand) :
    ReadsLiterally cmd ↔ ∀ p ∈ cmd.paths, Inert p.text := by
  constructor
  · intro h p hp
    exact (ShellWords.standsFor_quoted p.text).mp (h.paths p hp)
  · intro h
    exact ⟨tokens_text h, fun p hp => (ShellWords.standsFor_quoted p.text).mpr (h p hp)⟩

end RemoteCommand

namespace SSHDestination

variable (d : SSHDestination)

/-- The commands that the operations send, about the generation `backup_id` where they are about
one. -/
def commands (backup_id : String) : List RemoteCommand :=
  [.test_f ((d.final_path backup_id).sub META_FILENAME.val), .mkdir_p d.path,
    .mv (d.partial_path backup_id) (d.final_path backup_id), .list d.path,
    .rm_rf (d.final_path backup_id) (d.partial_path backup_id),
    .probe d.path (d.path.sub CHECK_PROBE_FILENAME.val)]

theorem remote_run_moves {R : World → World → Prop} [Std.Refl R] [IsTrans World R]
    {cmd : RemoteCommand} (h : Moves R (d.remote_process cmd)) : Moves R (d.remote_run cmd) := by
  apply h.bind
  intro proc
  split_ifs
  · exact Moves.throw _
  · exact Moves.pure _

/-- Whatever the commands and the transfers keep, the operations keep: they send no other
command. -/
theorem operations_moves {R : World → World → Prop} [Std.Refl R] [IsTrans World R]
    {backup_id : String} (h : ∀ cmd ∈ d.commands backup_id, Moves R (d.remote_process cmd))
    (hlook : ∀ p, Moves R (is_file p)) (hdirectory : ∀ src dst, Moves R (d.rsync_directory src dst))
    (hfile : ∀ src dst, Moves R (d.rsync_meta_file src dst)) (local_dir : Path) :
    Moves R (d.store local_dir backup_id) ∧ Moves R d.list_backups ∧ Moves R (d.delete backup_id) ∧
      Moves R d.check := by
  have hrun (cmd : RemoteCommand) (hmem : cmd ∈ d.commands backup_id) :
      Moves R (d.remote_run cmd) :=
    d.remote_run_moves (h cmd hmem)
  have hunit {m : Io CompletedProcess} (hm : Moves R m) : Moves R (do let _ ← m) :=
    hm.bind (fun _ => Moves.pure _)
  refine ⟨?_, ?_, ?_, ?_⟩
  · refine Moves.bind (Moves.bind (h _ (by simp [commands])) (fun _ => Moves.pure _)) ?_
    intro complete
    refine Moves.ite (Moves.pure _) ?_
    refine (hrun _ (by simp [commands])).bind (fun _ => (hdirectory _ _).bind (fun _ => ?_))
    refine Moves.bind ?_ (fun _ => hunit (hrun _ (by simp [commands])))
    refine (hlook _).bind (fun has_meta => ?_)
    exact Moves.ite (hfile _ _) (Moves.pure _)
  · refine (hrun _ (by simp [commands])).bind (fun proc => ?_)
    cases parse_list_output proc.stdout with
    | ok stored => exact Moves.pure _
    | error e => exact Moves.throw _
  · exact hunit (hrun _ (by simp [commands]))
  · exact hunit (hrun _ (by simp [commands]))

/-- An id that the list script gives of the remote tree `t`. -/
def Listed (t : Fs) (backup_id : String) : Prop :=
  ∃ l stored, d.path.path.find t = some l ∧
    parse_list_output (listOutput d.node.shell t l) = .ok stored ∧
      ∃ b ∈ stored, b.backup_id = backup_id

/-- Every command about a new id or one that is listed names its paths literally. -/
def ActsLiterally (t : Fs) (new_id : String) : Prop :=
  ∀ backup_id, backup_id = new_id ∨ d.Listed t backup_id →
    ∀ cmd ∈ d.commands backup_id, cmd.ReadsLiterally

theorem inert_final {backup_id : String} (hpath : Inert d.remote_path) :
    Inert (d.final_path backup_id).text ↔ Inert backup_id := by
  have htext : (d.final_path backup_id).text = d.remote_path ++ ("/" ++ backup_id) :=
    String.append_assoc
  have hslash : Inert "/" := by decide
  rw [htext, hpath.append_iff, hslash.append_iff]

/-- The commands about an id are read literally when the path and the id hold nothing that has a
meaning between double quotes, and only then. -/
theorem commands_literal_iff (backup_id : String) :
    (∀ cmd ∈ d.commands backup_id, cmd.ReadsLiterally) ↔
      Inert d.remote_path ∧ Inert backup_id := by
  simp only [RemoteCommand.readsLiterally_iff]
  constructor
  · intro h
    have hpath : Inert d.remote_path :=
      h (.mkdir_p d.path) (by simp [commands]) d.path (by simp [RemoteCommand.paths])
    have hfinal : Inert (d.final_path backup_id).text :=
      h (.mv (d.partial_path backup_id) (d.final_path backup_id)) (by simp [commands]) _
        (by simp [RemoteCommand.paths])
    exact ⟨hpath, (d.inert_final hpath).mp hfinal⟩
  · rintro ⟨hpath, hid⟩
    have hfinal : Inert (d.final_path backup_id).text := (d.inert_final hpath).mpr hid
    have hsuffix : Inert PARTIAL_SUFFIX := by decide
    have hpartial : Inert (d.partial_path backup_id).text :=
      (d.inert_final hpath).mpr (hid.append_iff.mpr hsuffix)
    have hmarker : Inert ((d.final_path backup_id).sub META_FILENAME.val).text := by
      have htext : ((d.final_path backup_id).sub META_FILENAME.val).text =
          (d.final_path backup_id).text ++ ("/" ++ META_FILENAME.val) := String.append_assoc
      have hname : Inert ("/" ++ META_FILENAME.val) := by decide
      rw [htext, hfinal.append_iff]
      exact hname
    have hprobe : Inert (d.path.sub CHECK_PROBE_FILENAME.val).text := by
      have hname : Inert CHECK_PROBE_FILENAME.val := by decide
      exact (d.inert_final hpath).mpr hname
    have hroot : Inert d.path.text := hpath
    intro cmd hcmd
    simp only [commands, List.mem_cons, List.not_mem_nil, or_false] at hcmd
    rcases hcmd with rfl | rfl | rfl | rfl | rfl | rfl
    · simpa [RemoteCommand.paths] using hmarker
    · simpa [RemoteCommand.paths] using hroot
    · simpa [RemoteCommand.paths] using And.intro hpartial hfinal
    · simpa [RemoteCommand.paths] using hroot
    · simpa [RemoteCommand.paths] using And.intro hfinal hpartial
    · simpa [RemoteCommand.paths] using And.intro hroot hprobe

theorem actsLiterally_iff (t : Fs) (new_id : String) :
    d.ActsLiterally t new_id ↔
      Inert d.remote_path ∧
        ∀ backup_id, backup_id = new_id ∨ d.Listed t backup_id → Inert backup_id := by
  unfold ActsLiterally
  simp only [commands_literal_iff]
  constructor
  · intro h
    exact ⟨(h new_id (.inl rfl)).1, fun backup_id hid => (h backup_id hid).2⟩
  · intro h backup_id hid
    exact ⟨h.1, h.2 backup_id hid⟩

end SSHDestination

/-- A complete generation at `/backups` whose name runs a command. -/
def trappedTree : Fs :=
  (FileTree.empty.create [] .dir 0 |>.create [entry "backups"] .dir 0).addGeneration
    [entry "backups", entry "$(reboot)"]

/-- The directory of a remote user becomes an id, and the purge that deletes it hands the shell
a text whose words end where the command in the name begins. -/
theorem trapped_name_expands :
    parse_config (proxyTable "Compression=yes") = .ok (proxyConfig "Compression=yes") ∧
      (SSHDestination.from_config smallNodes (proxyDestination "Compression=yes") .default).Listed
        trappedTree "$(reboot)" ∧
      ShellWords.tokens (RemoteCommand.text (.rm_rf
        ((SSHDestination.from_config smallNodes (proxyDestination "Compression=yes")
          .default).final_path "$(reboot)")
        ((SSHDestination.from_config smallNodes (proxyDestination "Compression=yes")
          .default).partial_path "$(reboot)"))) =
        (["rm".toList, "-rf".toList],
          "\"/backups/$(reboot)\" \"/backups/$(reboot).partial\"".toList) ∧
      ¬ (SSHDestination.from_config smallNodes (proxyDestination "Compression=yes")
        .default).ActsLiterally trappedTree "p-1" := by
  have hlisted : (SSHDestination.from_config smallNodes (proxyDestination "Compression=yes")
      .default).Listed trappedTree "$(reboot)" := by
    refine ⟨[entry "backups"], [⟨"$(reboot)", true, Datetime.utc 0⟩], by decide +kernel,
      by decide +kernel, _, List.mem_cons_self, rfl⟩
  refine ⟨rfl, hlisted, by decide +kernel, ?_⟩
  intro h
  have hinert := ((SSHDestination.actsLiterally_iff _ _ _).mp h).2 "$(reboot)" (.inr hlisted)
  exact absurd hinert (by decide)

end MbKeeper
