import MbKeeper.ConfigFields

/-!
# The remote shell of a transfer

rsync gets the ssh command as one text and splits it into words itself. The
first part is about such a splitter alone: joining words with spaces and
splitting again gives the words back exactly when none is empty or holds a
space or a quote. The second part compares the command of the transfers with
the one the remote commands run.
-/
namespace MbKeeper

def isQuote (c : Char) : Bool := c = '\'' ∨ c = '"'

/-- The words of a text: spaces outside quotes separate them, quotes are removed, and a doubled
quote within quotes of its kind is one. `quote` is the quote that is open and `word` the word
begun; a quote that is never closed is an error. -/
def quotedWords : Option Char → Option (List Char) → List Char → Option (List (List Char))
  | none, word, [] => some word.toList
  | some _, _, [] => none
  | none, word, c :: cs =>
    if c = ' ' then (quotedWords none none cs).map (word.toList ++ ·)
    else if isQuote c then quotedWords (some c) (some (word.getD [])) cs
    else quotedWords none (some (word.getD [] ++ [c])) cs
  | some q, word, [c] => if c = q then some word.toList else none
  | some q, word, c :: d :: cs =>
    if c = q then
      if d = q then quotedWords (some q) (some (word.getD [] ++ [q])) cs
      else quotedWords none word (d :: cs)
    else quotedWords (some q) (some (word.getD [] ++ [c])) (d :: cs)

/-- A word that stands for itself. -/
def PlainWord (w : List Char) : Prop := w ≠ [] ∧ ∀ c ∈ w, c ≠ ' ' ∧ isQuote c = false

instance (w : List Char) : Decidable (PlainWord w) :=
  inferInstanceAs (Decidable (_ ∧ ∀ c ∈ w, _))

example : quotedWords none none "a 'b c'\"d\"\"e\" f".toList =
    some ["a".toList, "b cd\"e".toList, "f".toList] := by decide

/-- The length of words with a separator after each. -/
def spread (words : List (List Char)) : ℕ := (words.map (fun w => w.length + 1)).sum

theorem spread_append (l l' : List (List Char)) : spread (l ++ l') = spread l + spread l' := by
  simp [spread]

theorem spread_toList (word : Option (List Char)) :
    spread word.toList ≤ (word.getD []).length + 1 := by
  cases word with
  | none => exact Nat.zero_le _
  | some w => simp [spread]

/-- Splitting adds nothing: the words and their separators are in the text. -/
theorem spread_le {quote : Option Char} {word : Option (List Char)} {cs : List Char}
    {words : List (List Char)} (h : quotedWords quote word cs = some words) :
    spread words ≤ (word.getD []).length + cs.length + 1 := by
  fun_induction quotedWords quote word cs generalizing words with
  | case1 word =>
    obtain rfl := Option.some.inj h
    have := spread_toList word
    omega
  | case2 => cases h
  | case3 word cs ih =>
    obtain ⟨rest, hrest, rfl⟩ := Option.map_eq_some_iff.mp h
    have hword := spread_toList word
    have hbound := ih hrest
    rw [spread_append]
    simp only [Option.getD_none, List.length_nil, List.length_cons] at hbound ⊢
    omega
  | case4 word c cs hc hq ih =>
    have hbound := ih h
    simp only [Option.getD_some, List.length_cons] at hbound ⊢
    omega
  | case5 word c cs hc hq ih =>
    have hbound := ih h
    simp only [Option.getD_some, List.length_append, List.length_cons, List.length_nil]
      at hbound ⊢
    omega
  | case6 word q =>
    obtain rfl := Option.some.inj h
    have := spread_toList word
    simp only [List.length_cons, List.length_nil]
    omega
  | case7 => cases h
  | case8 q word cs ih =>
    have hbound := ih h
    simp only [Option.getD_some, List.length_append, List.length_cons, List.length_nil]
      at hbound ⊢
    omega
  | case9 q word d cs hd ih =>
    have hbound := ih h
    simp only [List.length_cons] at hbound ⊢
    omega
  | case10 q word c d cs hc ih =>
    have hbound := ih h
    simp only [Option.getD_some, List.length_append, List.length_cons, List.length_nil]
      at hbound ⊢
    omega

/-- A quote is not one of the characters the words have. -/
theorem spread_lt {cs : List Char} {word : Option (List Char)} {words : List (List Char)}
    (h : quotedWords none word cs = some words) (hquote : ∃ c ∈ cs, isQuote c = true) :
    spread words < (word.getD []).length + cs.length + 1 := by
  induction cs generalizing word words with
  | nil =>
    obtain ⟨c, hc, -⟩ := hquote
    cases hc
  | cons c cs ih =>
    rw [quotedWords] at h
    split_ifs at h with hspace hq
    · obtain ⟨rest, hrest, rfl⟩ := Option.map_eq_some_iff.mp h
      have hlater : ∃ d ∈ cs, isQuote d = true := by
        obtain ⟨d, hd, hdq⟩ := hquote
        rcases List.mem_cons.mp hd with rfl | hd
        · rw [hspace] at hdq
          cases hdq
        · exact ⟨d, hd, hdq⟩
      have hword := spread_toList word
      have hbound := ih hrest hlater
      rw [spread_append]
      simp only [Option.getD_none, List.length_nil, List.length_cons] at hbound ⊢
      omega
    · have hbound := spread_le h
      simp only [Option.getD_some, List.length_cons] at hbound ⊢
      omega
    · have hlater : ∃ d ∈ cs, isQuote d = true := by
        obtain ⟨d, hd, hdq⟩ := hquote
        rcases List.mem_cons.mp hd with rfl | hd
        · exact absurd hdq hq
        · exact ⟨d, hd, hdq⟩
      have hbound := ih h hlater
      simp only [Option.getD_some, List.length_append, List.length_cons, List.length_nil]
        at hbound ⊢
      omega

/-- Without quotes only spaces count. -/
theorem plain_of_unquoted {cs : List Char} {word : Option (List Char)}
    (hcs : ∀ c ∈ cs, isQuote c = false) (hword : ∀ w, word = some w → PlainWord w)
    {words : List (List Char)} (h : quotedWords none word cs = some words) :
    ∀ w ∈ words, PlainWord w := by
  induction cs generalizing word words with
  | nil =>
    obtain rfl := Option.some.inj h
    exact fun w hw => hword w (Option.mem_toList.mp hw)
  | cons c cs ih =>
    have hc := hcs c List.mem_cons_self
    have hrest : ∀ d ∈ cs, isQuote d = false := fun d hd => hcs d (List.mem_cons_of_mem _ hd)
    rw [quotedWords] at h
    split_ifs at h with hspace hq
    · obtain ⟨rest, hr, rfl⟩ := Option.map_eq_some_iff.mp h
      intro w hw
      rcases List.mem_append.mp hw with hw | hw
      · exact hword w (Option.mem_toList.mp hw)
      · exact ih hrest (by simp) hr w hw
    · rw [hc] at hq
      cases hq
    · refine ih hrest ?_ h
      intro w hw
      obtain rfl := Option.some.inj hw
      refine ⟨by simp, fun d hd => ?_⟩
      rcases List.mem_append.mp hd with hd | hd
      · cases word with
        | none => cases hd
        | some u => exact (hword u rfl).2 d hd
      · obtain rfl := List.mem_singleton.mp hd
        exact ⟨hspace, hc⟩

/-- A plain word is read as it is. -/
theorem quotedWords_plain {w : List Char} (hw : PlainWord w) (word : Option (List Char))
    (cs : List Char) :
    quotedWords none word (w ++ cs) = quotedWords none (some (word.getD [] ++ w)) cs := by
  induction w generalizing word with
  | nil => exact absurd rfl hw.1
  | cons c w ih =>
    have hc := hw.2 c List.mem_cons_self
    rw [List.cons_append, quotedWords, if_neg hc.1, if_neg (by simp [hc.2])]
    cases w with
    | nil => rfl
    | cons d w =>
      have hrest : PlainWord (d :: w) :=
        ⟨by simp, fun e he => hw.2 e (List.mem_cons_of_mem _ he)⟩
      rw [ih hrest, Option.getD_some, List.append_assoc]
      rfl

theorem quotedWords_join {words : List (List Char)} (h : ∀ w ∈ words, PlainWord w) :
    quotedWords none none ([' '].intercalate words) = some words := by
  induction words with
  | nil => rfl
  | cons w words ih =>
    have hw := h w List.mem_cons_self
    cases words with
    | nil =>
      have hread := quotedWords_plain hw none []
      rw [List.append_nil] at hread
      rw [List.intercalate_singleton, hread]
      rfl
    | cons w' words =>
      have hrest := ih (fun u hu => h u (List.mem_cons_of_mem _ hu))
      rw [List.intercalate_cons_cons, List.append_assoc, quotedWords_plain hw]
      rw [List.singleton_append, quotedWords, if_pos rfl, hrest]
      rfl

theorem spread_join {words : List (List Char)} (h : words ≠ []) :
    spread words = ([' '].intercalate words).length + 1 := by
  induction words with
  | nil => exact absurd rfl h
  | cons w words ih =>
    cases words with
    | nil => simp [spread]
    | cons w' words =>
      have hrest := ih (by simp)
      rw [List.intercalate_cons_cons]
      simp only [spread, List.map_cons, List.sum_cons, List.length_append, List.length_singleton]
        at hrest ⊢
      omega

/-- Words joined with spaces are split back into the same words exactly when they are plain. -/
theorem quotedWords_join_iff {words : List (List Char)} :
    quotedWords none none ([' '].intercalate words) = some words ↔ ∀ w ∈ words, PlainWord w := by
  constructor
  · intro h
    cases words with
    | nil => simp
    | cons w words =>
      have hspread := spread_join (List.cons_ne_nil w words)
      refine plain_of_unquoted (fun c hc => ?_) (by simp) h
      by_contra hq
      have hlt := spread_lt h ⟨c, hc, by simpa using hq⟩
      simp only [Option.getD_none, List.length_nil] at hlt
      omega
  · exact quotedWords_join

/-- The words rsync makes of the text after `-e`. -/
def remoteShellWords (rsh : String) : Option (List String) :=
  (quotedWords none none rsh.toList).map (List.map String.ofList)

/-- A text that is one word of a command and stands for itself. -/
def Plain (s : String) : Prop := PlainWord s.toList

instance (s : String) : Decidable (Plain s) := inferInstanceAs (Decidable (PlainWord _))

theorem remoteShellWords_join (args : List String) :
    remoteShellWords (" ".intercalate args) = some args ↔ ∀ a ∈ args, Plain a := by
  have hargs : args = (args.map String.toList).map String.ofList := by simp
  have hlist : (" ".intercalate args).toList = [' '].intercalate (args.map String.toList) :=
    String.toList_intercalate
  have hplain : (∀ w ∈ args.map String.toList, PlainWord w) ↔ ∀ a ∈ args, Plain a := by
    simp [Plain]
  rw [remoteShellWords, hlist, ← hplain, ← quotedWords_join_iff]
  constructor
  · intro h
    obtain ⟨words, hwords, hmap⟩ := Option.map_eq_some_iff.mp h
    have hsame : words = args.map String.toList := by
      rw [← hmap, List.map_map]
      simp
    rw [hwords, hsame]
  · intro h
    rw [h, Option.map_some, ← hargs]

/-- An ssh command of texts. -/
def sshArgs (ssh_key : String) (port : ℤ) (ssh_options : List String) : List String :=
  ["ssh", "-i", ssh_key, "-p", String.ofList (intText port), "-o", "BatchMode=yes"] ++ ssh_options

theorem build_ssh_argv_texts (ssh_key : String) (port : ℤ) (ssh_options : List String) :
    build_ssh_argv (.str ssh_key) (.int port) (ssh_options.map Toml.str) =
      (sshArgs ssh_key port ssh_options).map Toml.str := by
  simp [build_ssh_argv, sshArgs, Toml.pyStr, Toml.repr]

theorem joinArgv_texts (args : List String) :
    joinArgv (args.map Toml.str) = .ok (" ".intercalate args) := by
  have hstr : (args.map Toml.str).all Toml.isStr = true := by simp [Toml.isStr]
  have hback : (args.map Toml.str).map Toml.pyStr = args := by simp [Toml.pyStr, Function.comp_def]
  rw [joinArgv, argvStrings, if_pos hstr, hback]
  rfl

theorem plain_intText (z : ℤ) : Plain (String.ofList (intText z)) := by
  unfold Plain
  rw [String.toList_ofList]
  refine ⟨intText_ne_nil z, fun c hc => ?_⟩
  have hcode : c.toNat = 45 ∨ 48 ≤ c.toNat := by
    rcases mem_intText hc with rfl | h
    · exact .inl rfl
    · exact .inr h.1
  have hne : ∀ d : Char, d.toNat < 45 → c ≠ d := by
    rintro d hd rfl
    omega
  exact ⟨hne ' ' (by decide), by simp [isQuote, hne '\'' (by decide), hne '"' (by decide)]⟩

/-- Of the words of the command only the key and the options may not be plain. -/
theorem sshArgs_plain (ssh_key : String) (port : ℤ) (ssh_options : List String) :
    (∀ a ∈ sshArgs ssh_key port ssh_options, Plain a) ↔
      Plain ssh_key ∧ ∀ o ∈ ssh_options, Plain o := by
  have hport := plain_intText port
  have hfixed : Plain "ssh" ∧ Plain "-i" ∧ Plain "-p" ∧ Plain "-o" ∧ Plain "BatchMode=yes" := by
    decide
  simp only [sshArgs, List.mem_append, or_imp, forall_and, List.forall_mem_cons, hfixed, hport]
  simp

/-- Both transfers of an accepted ssh destination are given one text after `-e`, and rsync splits
it into the command that the remote commands run exactly when the key and the options hold
neither spaces nor quotes and are not empty. -/
theorem same_ssh_command_iff {raw : Table} {config : Config} (h : parse_config raw = .ok config)
    {dest : DestinationConfig} (hdest : dest ∈ config.destinations) {ssh_key : String}
    (hkey : dest.ssh_key = .str ssh_key) (nodes : String → RemoteNode) :
    ∃ (ssh_options : List String) (rsh : String), dest.ssh_options = ssh_options.map Toml.str ∧
      (∀ rsync_path src dst bwlimit_kbps exclude, build_rsync_argv rsync_path
          (SSHDestination.from_config nodes dest config.transfer).ssh_argv src dst bwlimit_kbps
          exclude =
        .ok ([rsync_path, .str "-a", .str "--partial", .str "--delete"] ++
          (if bwlimit_kbps.truthy then [.str s!"--bwlimit={bwlimit_kbps.pyStr}"] else []) ++
          exclude.map (fun pattern => .str s!"--exclude={pattern}") ++
          [.str "-e", .str rsh, .str (src.str ++ "/"), .str dst])) ∧
      (∀ rsync_path src dst, build_rsync_file_argv rsync_path
          (SSHDestination.from_config nodes dest config.transfer).ssh_argv src dst =
        .ok [rsync_path, .str "-a", .str "-e", .str rsh, .str src.str, .str dst]) ∧
      ((remoteShellWords rsh).map (List.map Toml.str) =
          some (SSHDestination.from_config nodes dest config.transfer).ssh_argv ↔
        Plain ssh_key ∧ ∀ o ∈ ssh_options, Plain o) := by
  obtain ⟨t, hd⟩ := (parse_config_carries h).described hdest
  obtain ⟨z, -, hport, -⟩ := hd.port
  obtain ⟨ssh_options, -, hoptions⟩ := hd.ssh_options
  have hargv : (SSHDestination.from_config nodes dest config.transfer).ssh_argv =
      (sshArgs ssh_key z ssh_options).map Toml.str := by
    rw [← build_ssh_argv_texts]
    simp only [SSHDestination.ssh_argv, SSHDestination.from_config, hkey, hport, hoptions]
  have hjoin := joinArgv_texts (sshArgs ssh_key z ssh_options)
  refine ⟨ssh_options, " ".intercalate (sshArgs ssh_key z ssh_options), hoptions, ?_, ?_, ?_⟩
  · intro rsync_path src dst bwlimit_kbps exclude
    rw [hargv, build_rsync_argv, hjoin]
    rfl
  · intro rsync_path src dst
    rw [hargv, build_rsync_file_argv, hjoin]
    rfl
  · rw [hargv, ← sshArgs_plain ssh_key z ssh_options, ← remoteShellWords_join]
    constructor
    · intro hwords
      obtain ⟨words, hwords, hmap⟩ := Option.map_eq_some_iff.mp hwords
      rw [hwords, List.map_injective_iff.mpr (fun _ _ heq => Toml.str.inj heq) hmap]
    · intro hwords
      rw [hwords]
      rfl

/-- A destination with one option that holds a space. -/
def proxyTable (option : String) : Table :=
  [("schema_version", .int 1), ("backup", .table [("work_dir", .str "/w")]),
    ("destinations", .array [.table [("name", .str "remote"), ("type", .str "ssh"),
      ("path", .str "/backups"), ("keep", .int 3), ("host", .str "db"), ("user", .str "backup"),
      ("ssh_key", .str "/key"), ("ssh_options", .array [.str "-o", .str option])]])]

def proxyDestination (option : String) : DestinationConfig :=
  ⟨"remote", .ssh, 3, "/backups", .str "db", .int 22, .str "backup", .str "/key",
    [.str "-o", .str option], .int 0⟩

def proxyConfig (option : String) : Config where
  schema_version := .int 1
  backup := ⟨PurePath.parse "/w", "full", .str "mariabackup", .str "", .str "", [], true, 0⟩
  destinations := [proxyDestination option]
  replication := .default
  transfer := .default
  retention := .default
  logging := .default
  lock := .default
  hooks := .default

theorem same_ssh_command_plain : ∃ rsh,
    build_rsync_file_argv (.str "rsync") (SSHDestination.from_config smallNodes
        (proxyDestination "Compression=yes") .default).ssh_argv
        (Path.configured [] (PurePath.parse "/m")) "db:/b" =
      .ok [.str "rsync", .str "-a", .str "-e", .str rsh,
        .str (Path.configured [] (PurePath.parse "/m")).str, .str "db:/b"] ∧
    (remoteShellWords rsh).map (List.map Toml.str) = some (SSHDestination.from_config smallNodes
      (proxyDestination "Compression=yes") .default).ssh_argv := by
  have h : parse_config (proxyTable "Compression=yes") = .ok (proxyConfig "Compression=yes") := rfl
  obtain ⟨ssh_options, rsh, hoptions, -, hfile, hsame⟩ :=
    same_ssh_command_iff h List.mem_cons_self rfl smallNodes
  refine ⟨rsh, hfile _ _ _, hsame.mpr ⟨by decide, ?_⟩⟩
  obtain rfl : ssh_options = ["-o", "Compression=yes"] := by
    refine (List.map_injective_iff.mpr (fun _ _ heq => Toml.str.inj heq) ?_).symm
    exact hoptions
  decide

/-- With a proxy command the transfers run another one than the remote commands. -/
theorem other_ssh_command :
    parse_config (proxyTable "ProxyCommand=nc db 22") = .ok (proxyConfig "ProxyCommand=nc db 22") ∧
      joinArgv (SSHDestination.from_config smallNodes (proxyDestination "ProxyCommand=nc db 22")
        .default).ssh_argv =
          .ok "ssh -i /key -p 22 -o BatchMode=yes -o ProxyCommand=nc db 22" ∧
      remoteShellWords "ssh -i /key -p 22 -o BatchMode=yes -o ProxyCommand=nc db 22" =
        some ["ssh", "-i", "/key", "-p", "22", "-o", "BatchMode=yes", "-o", "ProxyCommand=nc",
          "db", "22"] ∧
      (remoteShellWords "ssh -i /key -p 22 -o BatchMode=yes -o ProxyCommand=nc db 22").map
          (List.map Toml.str) ≠
        some (SSHDestination.from_config smallNodes (proxyDestination "ProxyCommand=nc db 22")
          .default).ssh_argv := by
  have hwords : remoteShellWords "ssh -i /key -p 22 -o BatchMode=yes -o ProxyCommand=nc db 22" =
      some ["ssh", "-i", "/key", "-p", "22", "-o", "BatchMode=yes", "-o", "ProxyCommand=nc",
        "db", "22"] := by decide
  refine ⟨rfl, rfl, hwords, fun h => ?_⟩
  rw [hwords] at h
  have hlength := congrArg (Option.map List.length) h
  exact absurd hlength (by decide)

end MbKeeper
