import MbKeeper.ListGrammar
import MbKeeper.Listings

/-!
# What the listing brings back

The list script writes a line for every generation of a remote directory, and
`parse_list_output` reads the lines. The ids between them begin with the
configured prefix, which is any text: what the shell, the fields and the lines
do to it decides whether the generations come back.
-/
namespace MbKeeper

namespace SSHDestination

open LocalDestination

/-- A generation: `<id>` with its manifest, or `<id>.partial` without one. -/
structure GenerationDir where
  backup_id : String
  complete : Bool
  mtime : ℤ
  legal : Legal (if complete then backup_id else backup_id ++ PARTIAL_SUFFIX)

namespace GenerationDir

def directory (g : GenerationDir) : Name := ⟨_, g.legal⟩

/-- What the listing is to say of it. -/
def record (g : GenerationDir) : StoredBackup :=
  ⟨g.backup_id, g.complete, Datetime.utc (g.mtime * 1000000)⟩

end GenerationDir

/-- The directories in `P` are those of the generations `gens`. -/
structure Holds (t : Fs) (P : Loc) (gens : List GenerationDir) : Prop where
  directories : (dirsIn t P).Perm (gens.map GenerationDir.directory)
  manifest : ∀ g ∈ gens, t.isFile (P ++ [g.directory] ++ [META_FILENAME]) = g.complete
  mtime : ∀ g ∈ gens, second (mtimeAt t (P ++ [g.directory])) = g.mtime

/-- The listing of `P` is read back as the generations in it. -/
def RoundTrips (shell : Shell) (t : Fs) (P : Loc) (gens : List GenerationDir) : Prop :=
  ∃ stored, parse_list_output (listOutput shell t P) = .ok stored ∧
    stored.Perm (gens.map GenerationDir.record)

/-- `stat` takes an operand that begins with a dash for an option, and fails. -/
def Getopt (shell : Shell) : Prop :=
  ∀ x i, x.val.toList.head? = some '-' → shell.stat x i = none

/-- The prefix, and the times, that come back from every shell. -/
structure ComesBack (pre : String) (gens : List GenerationDir) : Prop where
  field : OneField pre.toList
  backslash : '\\' ∉ pre.toList
  dot : pre.toList.head? ≠ some '.'
  dash : pre.toList.head? = some '-' → ∀ g ∈ gens, g.mtime = 0
  dated : ∀ g ∈ gens, Representable (g.mtime * 1000000)

variable {shell : Shell} {t : Fs} {P : Loc} {gens : List GenerationDir} {pre : String}

theorem oneField_append {l m : List Char} : OneField (l ++ m) ↔ OneField l ∧ OneField m := by
  simp only [OneField, OneLine, List.mem_append, not_or]
  constructor
  · rintro ⟨⟨hl, hm⟩, hone⟩
    exact ⟨⟨hl, fun c hc => hone c (.inl hc)⟩, ⟨hm, fun c hc => hone c (.inr hc)⟩⟩
  · rintro ⟨⟨hl, hlone⟩, ⟨hm, hmone⟩⟩
    exact ⟨⟨hl, hm⟩, fun c hc => hc.elim (hlone c) (hmone c)⟩

/-- What the tool adds to a prefix is one field, without a backslash. -/
structure PlainTail (tail : List Char) : Prop where
  field : OneField tail
  backslash : '\\' ∉ tail

theorem stamp_plainTail (i : Instant) : PlainTail ('-' :: stamp i) := by
  have hchars : ∀ c ∈ '-' :: stamp i, isSpace c = false ∧ c ≠ '\\' := by
    intro c hc
    rcases List.mem_cons.mp hc with rfl | hc
    · decide
    · rcases mem_stamp hc with rfl | rfl | hd
      · decide
      · decide
      · constructor
        · simp only [isSpace, decide_eq_false_iff_not]
          omega
        · rintro rfl
          exact absurd hd (by decide)
  exact ⟨oneField_of_no_space (fun c hc => (hchars c hc).1), fun hc => (hchars _ hc).2 rfl⟩

/-- An id is the prefix and a plain rest. -/
theorem generate_backup_id_tail {id : String} {now : Datetime}
    (h : generate_backup_id pre now = .ok id) :
    ∃ tail, id.toList = pre.toList ++ tail ∧ PlainTail tail := by
  obtain ⟨i, -, -, rfl⟩ := generate_backup_id_eq_ok.mp h
  exact ⟨'-' :: stamp i, by simp [String.toList_append], stamp_plainTail i⟩

theorem suffix_plainTail : PlainTail PARTIAL_SUFFIX.toList :=
  ⟨oneField_of_no_space (by decide), by decide⟩

namespace GenerationDir

/-- So is the name of its directory. -/
theorem directory_tail {g : GenerationDir} {now : Datetime}
    (h : generate_backup_id pre now = .ok g.backup_id) :
    ∃ tail, g.directory.val.toList = pre.toList ++ tail ∧ PlainTail tail := by
  obtain ⟨tail, hid, htail⟩ := generate_backup_id_tail h
  obtain ⟨backup_id, complete, mtime, legal⟩ := g
  cases complete with
  | true => exact ⟨tail, hid, htail⟩
  | false =>
    have hdir :
        (backup_id ++ PARTIAL_SUFFIX).toList = pre.toList ++ (tail ++ PARTIAL_SUFFIX.toList) := by
      rw [String.toList_append, show backup_id.toList = _ from hid, List.append_assoc]
    refine ⟨_, hdir, oneField_append.mpr ⟨htail.field, suffix_plainTail.field⟩, ?_⟩
    exact fun hc => (List.mem_append.mp hc).elim htail.backslash suffix_plainTail.backslash

theorem directory_head? {g : GenerationDir} {now : Datetime} (hne : pre ≠ "")
    (h : generate_backup_id pre now = .ok g.backup_id) :
    g.directory.val.toList.head? = pre.toList.head? := by
  obtain ⟨tail, hdir, -⟩ := directory_tail h
  rw [hdir]
  cases hp : pre.toList with
  | nil => exact absurd (String.toList_eq_nil_iff.mp hp) hne
  | cons c cs => rfl

end GenerationDir

theorem Holds.classified (h : Holds t P gens) {g : GenerationDir} (hg : g ∈ gens) :
    classified t P g.directory = some (g.complete, g.backup_id) := by
  have hmanifest := h.manifest g hg
  rw [SSHDestination.classified, hmanifest]
  obtain ⟨backup_id, complete, mtime, legal⟩ := g
  cases complete with
  | true => rfl
  | false =>
    have hname : GenerationDir.directory ⟨backup_id, false, mtime, legal⟩ =
        ⟨backup_id ++ PARTIAL_SUFFIX, legal⟩ := rfl
    rw [hname, stripSuffix_append]
    rfl

/-- The record of the line that is written of a generation. -/
def lineOf (shell : Shell) (t : Fs) (P : Loc) (g : GenerationDir) : StoredBackup :=
  ⟨g.backup_id, g.complete, Datetime.utc (reading shell t P g.directory * 1000000)⟩

theorem Holds.globbed_perm (h : Holds t P gens)
    (hdot : ∀ g ∈ gens, g.directory.val.toList.head? ≠ some '.') :
    (globbed t P).Perm (gens.map GenerationDir.directory) := by
  refine (SSHDestination.globbed_perm fun x hx => ?_).trans h.directories
  obtain ⟨g, hg, rfl⟩ := List.mem_map.mp (h.directories.subset hx)
  exact hdot g hg

/-- The lines are those of the generations. -/
theorem Holds.reported (h : Holds t P gens)
    (hdot : ∀ g ∈ gens, g.directory.val.toList.head? ≠ some '.') :
    ((globbed t P).filterMap (reported shell t P)).Perm (gens.map (lineOf shell t P)) := by
  refine ((h.globbed_perm hdot).filterMap _).trans (List.Perm.of_eq ?_)
  rw [List.filterMap_map, ← List.filterMap_eq_map]
  refine List.filterMap_congr fun g hg => ?_
  rw [Function.comp_apply, SSHDestination.reported, h.classified hg]
  rfl

/-- An id that is read back is a field of the text. -/
theorem mem_parse_list_lines {lines : List (List Char)} {stored : List StoredBackup}
    (h : parse_list_lines lines = .ok stored) {b : StoredBackup} (hb : b ∈ stored) :
    ∃ line ∈ lines, b.backup_id.toList ∈ line.splitOn ' ' := by
  induction lines generalizing stored with
  | nil =>
    obtain rfl := Except.ok.inj h
    exact absurd hb List.not_mem_nil
  | cons line lines ih =>
    rw [parse_list_lines] at h
    obtain ⟨first, hfirst, h⟩ := except_bind_ok h
    obtain ⟨rest, hrest, h⟩ := except_bind_ok h
    obtain rfl := Except.ok.inj h
    rcases List.mem_append.mp hb with hb | hb
    · unfold parse_list_line at hfirst
      split at hfirst
      · next status backup_id mtime hfields =>
        obtain ⟨seconds, -, hfirst⟩ := except_bind_ok hfirst
        obtain ⟨stored_at, -, hfirst⟩ := except_bind_ok hfirst
        obtain rfl := Except.ok.inj hfirst
        have hid : b.backup_id.toList = backup_id := by
          rw [List.mem_singleton.mp hb, String.toList_ofList]
        refine ⟨line, List.mem_cons_self, ?_⟩
        rw [hid, hfields]
        simp
      · obtain rfl := Except.ok.inj hfirst
        exact absurd hb List.not_mem_nil
    · obtain ⟨l, hl, hid⟩ := ih hrest hb
      exact ⟨l, List.mem_cons_of_mem _ hl, hid⟩

/-- It is one field, and a part of the text. -/
theorem parsed_id {stdout : String} {stored : List StoredBackup}
    (h : parse_list_output stdout = .ok stored) {b : StoredBackup} (hb : b ∈ stored) :
    OneField b.backup_id.toList ∧ ∀ c ∈ b.backup_id.toList, c ∈ stdout.toList := by
  obtain ⟨line, hline, hid⟩ := mem_parse_list_lines h hb
  obtain ⟨hone, htext⟩ := mem_splitlines hline
  obtain ⟨hspace, hpart⟩ := mem_splitOn hid
  exact ⟨⟨hspace, fun c hc => hone c (hpart c hc)⟩, fun c hc => htext c (hpart c hc)⟩

theorem RoundTrips.field (h : RoundTrips shell t P gens) {g : GenerationDir} (hg : g ∈ gens) :
    OneField g.backup_id.toList ∧
      ∀ c ∈ g.backup_id.toList, c ∈ (listOutput shell t P).toList := by
  obtain ⟨stored, hparse, hperm⟩ := h
  exact parsed_id hparse (hperm.symm.subset (List.mem_map_of_mem hg))

/-- A shell whose `echo` drops the backslashes, and whose `stat` fails on what looks like an
option. -/
def dropping : Shell where
  echo s := String.ofList (s.toList.filter (· ≠ '\\')) ++ "\n"
  stat := Shell.plain.stat
  echo_plain s hs := by
    have hall : s.toList.filter (· ≠ '\\') = s.toList :=
      List.filter_eq_self.mpr (fun c hc => by
        have hne : c ≠ '\\' := fun he => hs (he ▸ hc)
        simpa using hne)
    rw [hall, String.ofList_toList]
  stat_operand := Shell.plain.stat_operand

theorem plain_getopt : Getopt Shell.plain := fun _ _ h => if_pos h

theorem dropping_getopt : Getopt dropping := fun _ _ h => if_pos h

theorem dropping_echo (s : String) : '\\' ∉ (dropping.echo s).toList := by
  simp [dropping, String.toList_append]

theorem dropping_output (t : Fs) (P : Loc) : '\\' ∉ (listOutput dropping t P).toList := by
  rw [listOutput]
  induction globbed t P with
  | nil => exact List.not_mem_nil
  | cons x xs ih =>
    rw [List.map_cons, String.join_cons, String.toList_append, List.mem_append, not_or]
    refine ⟨?_, ih⟩
    rw [listLine_eq]
    split_ifs
    · exact dropping_echo _
    · split
      · exact dropping_echo _
      · exact List.not_mem_nil

/-- The ids are those that the tool makes of the prefix. -/
def Made (pre : String) (gens : List GenerationDir) : Prop :=
  ∀ g ∈ gens, ∃ now, generate_backup_id pre now = .ok g.backup_id

theorem Made.dot (hmade : Made pre gens) (hne : pre ≠ "") (hdot : pre.toList.head? ≠ some '.') :
    ∀ g ∈ gens, g.directory.val.toList.head? ≠ some '.' := by
  intro g hg
  obtain ⟨now, hid⟩ := hmade g hg
  rwa [GenerationDir.directory_head? hne hid]

theorem Made.field (hmade : Made pre gens) (hfield : OneField pre.toList) :
    ∀ g ∈ gens, OneField g.directory.val.toList := by
  intro g hg
  obtain ⟨now, hid⟩ := hmade g hg
  obtain ⟨tail, hdir, htail⟩ := GenerationDir.directory_tail hid
  rw [hdir]
  exact oneField_append.mpr ⟨hfield, htail.field⟩

theorem Made.backslash (hmade : Made pre gens) (hback : '\\' ∉ pre.toList) :
    ∀ g ∈ gens, '\\' ∉ g.directory.val.toList := by
  intro g hg
  obtain ⟨now, hid⟩ := hmade g hg
  obtain ⟨tail, hdir, htail⟩ := GenerationDir.directory_tail hid
  rw [hdir, List.mem_append, not_or]
  exact ⟨hback, htail.backslash⟩

/-- The prefix is in every id. -/
theorem Made.mem (hmade : Made pre gens) {g : GenerationDir} (hg : g ∈ gens) {c : Char}
    (hc : c ∈ pre.toList) : c ∈ g.backup_id.toList := by
  obtain ⟨now, hid⟩ := hmade g hg
  obtain ⟨tail, htail, -⟩ := generate_backup_id_tail hid
  rw [htail]
  exact List.mem_append_left _ hc

/-- The seconds that the script reads of a generation. -/
theorem Holds.reading (h : Holds t P gens) (hmade : Made pre gens) (hne : pre ≠ "")
    (hgetopt : Getopt shell) {g : GenerationDir} (hg : g ∈ gens) :
    reading shell t P g.directory = if pre.toList.head? = some '-' then 0 else g.mtime := by
  obtain ⟨now, hid⟩ := hmade g hg
  have hhead := GenerationDir.directory_head? hne hid
  rw [SSHDestination.reading]
  split_ifs with hdash
  · rw [hgetopt _ _ (hhead.trans hdash)]
    rfl
  · rw [shell.stat_operand _ _ (by rwa [hhead]), Option.getD_some, h.mtime g hg]

theorem ComesBack.roundTrips (hc : ComesBack pre gens) (h : Holds t P gens)
    (hmade : Made pre gens) (hne : pre ≠ "") (hgetopt : Getopt shell) :
    RoundTrips shell t P gens := by
  have hdot := hmade.dot hne hc.dot
  have hglob : ∀ x ∈ globbed t P, ∃ g ∈ gens, g.directory = x := fun x hx =>
    List.mem_map.mp ((h.globbed_perm hdot).subset hx)
  have hread : ∀ g ∈ gens, SSHDestination.reading shell t P g.directory = g.mtime := by
    intro g hg
    rw [h.reading hmade hne hgetopt hg]
    split_ifs with hdash
    · exact (hc.dash hdash g hg).symm
    · rfl
  refine ⟨_, parse_list_output_dated (fun x hx => ?_) (fun x hx => ?_) (fun x hx _ => ?_),
    (h.reported hdot).trans (List.Perm.of_eq (List.map_congr_left fun g hg => ?_))⟩
  · obtain ⟨g, hg, rfl⟩ := hglob x hx
    exact echoes_of_no_backslash (hmade.backslash hc.backslash g hg)
  · obtain ⟨g, hg, rfl⟩ := hglob x hx
    exact hmade.field hc.field g hg
  · obtain ⟨g, hg, rfl⟩ := hglob x hx
    rw [hread g hg]
    exact hc.dated g hg
  · rw [lineOf, hread g hg, GenerationDir.record]

/-- A directory without a line is not read back: the generations have no dot in front. -/
theorem RoundTrips.dot (hr : RoundTrips shell t P gens) (h : Holds t P gens)
    (hmade : Made pre gens) (hne : pre ≠ "") (hgens : gens ≠ []) :
    pre.toList.head? ≠ some '.' := by
  intro hdot
  have hglob : globbed t P = [] := by
    apply List.eq_nil_iff_forall_not_mem.mpr
    intro x hx
    obtain ⟨hdir, hhead⟩ := mem_globbed.mp hx
    obtain ⟨g, hg, rfl⟩ := List.mem_map.mp (h.directories.subset (mem_dirsIn.mpr hdir))
    obtain ⟨now, hid⟩ := hmade g hg
    exact hhead ((GenerationDir.directory_head? hne hid).trans hdot)
  obtain ⟨stored, hparse, hperm⟩ := hr
  rw [listOutput, hglob] at hparse
  obtain rfl : [] = stored := Except.ok.inj hparse
  exact hgens (List.map_eq_nil_iff.mp hperm.symm.eq_nil)

/-- What comes back from a shell that echoes every text has the prefix and the times for it. -/
theorem RoundTrips.plain (hr : RoundTrips Shell.plain t P gens) (h : Holds t P gens)
    (hmade : Made pre gens) (hne : pre ≠ "") (hfield : OneField pre.toList)
    (hdot : pre.toList.head? ≠ some '.') :
    (pre.toList.head? = some '-' → ∀ g ∈ gens, g.mtime = 0) ∧
      ∀ g ∈ gens, Representable (g.mtime * 1000000) := by
  have hdots := hmade.dot hne hdot
  have hperm := h.globbed_perm hdots
  have hfields : ∀ x ∈ globbed t P, OneField x.val.toList := by
    intro x hx
    obtain ⟨g, hg, rfl⟩ := List.mem_map.mp (hperm.subset hx)
    exact hmade.field hfield g hg
  have hecho : ∀ x ∈ globbed t P, Echoes Shell.plain t P x := fun _ _ _ _ => rfl
  obtain ⟨stored, hparse, hstored⟩ := hr
  have hlines := hparse
  rw [parse_list_output, splitlines_listOutput hecho hfields] at hlines
  have hdated := dated_of_parse hfields hlines
  rw [parse_list_output_dated hecho hfields hdated] at hparse
  rw [← Except.ok.inj hparse] at hstored
  have hrecords := (h.reported hdots).symm.trans hstored
  have hdash : pre.toList.head? = some '-' → ∀ g ∈ gens, g.mtime = 0 := by
    intro hdash g hg
    obtain ⟨g', hg', heq⟩ := List.mem_map.mp (hrecords.symm.subset (List.mem_map_of_mem hg))
    rw [lineOf, h.reading hmade hne plain_getopt hg', if_pos hdash] at heq
    have hwall := congrArg (fun b : StoredBackup => b.stored_at.wall) heq
    simp only [GenerationDir.record, Datetime.utc] at hwall
    omega
  refine ⟨hdash, fun g hg => ?_⟩
  have hrep := hdated g.directory (hperm.symm.subset (List.mem_map_of_mem hg))
    (by rw [h.classified hg]; rfl)
  rw [h.reading hmade hne plain_getopt hg] at hrep
  split_ifs at hrep with hd
  · rw [hdash hd g hg]
    exact hrep
  · exact hrep

/-- The generations that the tool made in a remote directory come back from the listing through
every shell exactly if there are none, or the prefix has no space, line break or backslash, no dot
in front, and no dash in front while a time is not the epoch's, and every time has a reading. -/
theorem listing_round_trips_iff {raw : Table} {config : Config}
    (hconfig : parse_config raw = .ok config) (hmade : Made config.backup.name_prefix gens)
    (h : Holds t P gens) :
    (∀ shell : Shell, Getopt shell → RoundTrips shell t P gens) ↔
      gens = [] ∨ ComesBack config.backup.name_prefix gens := by
  have hne := parse_config_name_prefix hconfig
  constructor
  · intro hall
    by_cases hgens : gens = []
    · exact .inl hgens
    · obtain ⟨g, hg⟩ := List.exists_mem_of_ne_nil gens hgens
      have hplain := hall Shell.plain plain_getopt
      have hid := (hplain.field hg).1
      have hfield : OneField config.backup.name_prefix.toList :=
        ⟨fun hc => hid.1 (hmade.mem hg hc), fun c hc => hid.2 c (hmade.mem hg hc)⟩
      have hdot := hplain.dot h hmade hne hgens
      obtain ⟨hdash, hdated⟩ := hplain.plain h hmade hne hfield hdot
      refine .inr ⟨hfield, fun hc => ?_, hdot, hdash, hdated⟩
      exact dropping_output t P
        (((hall dropping dropping_getopt).field hg).2 _ (hmade.mem hg hc))
  · rintro (rfl | hc) shell hgetopt
    · have hnone : dirsIn t P = [] := h.directories.eq_nil
      refine ⟨[], ?_, List.Perm.refl _⟩
      rw [listOutput, globbed, hnone]
      rfl
    · exact hc.roundTrips h hmade hne hgetopt

/-- A generation taken at `2023-11-14T22:13:20Z` under the prefix, complete, and one of the second
after it, incomplete. -/
def lateGeneration (pre : String) (h : Legal (pre ++ "-20231114T221320Z")) : GenerationDir :=
  ⟨pre ++ "-20231114T221320Z", true, 1700000100, h⟩

def laterGeneration (pre : String) (h : Legal (pre ++ "-20231114T221321Z" ++ PARTIAL_SUFFIX)) :
    GenerationDir :=
  ⟨pre ++ "-20231114T221321Z", false, 1700000200, h⟩

def fullGenerations : List GenerationDir :=
  [lateGeneration "full" (by decide), laterGeneration "full" (by decide)]

def spacedGenerations : List GenerationDir :=
  [lateGeneration "my db" (by decide), laterGeneration "my db" (by decide)]

/-- A tree with the generations in the directory `/b`. -/
def generationTree (gens : List GenerationDir) : Fs :=
  gens.foldl (fun t g =>
    let made := t.create [entry "b", g.directory] .dir (g.mtime * 1000000)
    if g.complete then
      made.create [entry "b", g.directory, META_FILENAME] (.file "") (g.mtime * 1000000)
    else made) smallTree

theorem made_two (pre : String) {h h'} :
    Made pre [lateGeneration pre h, laterGeneration pre h'] := by
  intro g hg
  rcases List.mem_pair.mp hg with rfl | rfl
  · exact ⟨Datetime.utc 1700000000000000, rfl⟩
  · exact ⟨Datetime.utc 1700000001000000, rfl⟩

theorem listing_round_trips_full :
    RoundTrips Shell.plain (generationTree fullGenerations) [entry "b"] fullGenerations := by
  have hconfig : parse_config (smallTable "/w" "full" "/b" 1) =
      .ok (smallConfig "/w" "full" "/b" 1) := rfl
  have hholds : Holds (generationTree fullGenerations) [entry "b"] fullGenerations :=
    ⟨by decide +kernel, by decide +kernel, by decide +kernel⟩
  refine (listing_round_trips_iff hconfig (made_two "full") hholds).mpr (.inr ?_) _ plain_getopt
  exact ⟨oneField_of_no_space (by decide), by decide, by decide, by decide, by decide⟩

/-- Under the accepted prefix `my db` the lines have four fields, and nothing comes back. -/
theorem spaced_generations_lost :
    parse_config (smallTable "/w" "my db" "/b" 1) = .ok (smallConfig "/w" "my db" "/b" 1) ∧
      '/' ∉ "my db".toList ∧ hasNul "my db" = false ∧ Made "my db" spacedGenerations ∧
      Holds (generationTree spacedGenerations) [entry "b"] spacedGenerations ∧
      listOutput Shell.plain (generationTree spacedGenerations) [entry "b"] =
        "COMPLETE my db-20231114T221320Z 1700000100\n" ++
          "PARTIAL my db-20231114T221321Z 1700000200\n" ∧
      parse_list_output (listOutput Shell.plain (generationTree spacedGenerations) [entry "b"]) =
        .ok [] ∧
      ¬ RoundTrips Shell.plain (generationTree spacedGenerations) [entry "b"]
        spacedGenerations := by
  have hlost : parse_list_output (listOutput Shell.plain (generationTree spacedGenerations)
      [entry "b"]) = .ok [] := by decide +kernel
  refine ⟨rfl, by decide, by decide, made_two "my db",
    ⟨by decide +kernel, by decide +kernel, by decide +kernel⟩, by decide +kernel, hlost, ?_⟩
  rintro ⟨stored, hparse, hperm⟩
  obtain rfl : [] = stored := Except.ok.inj (hlost.symm.trans hparse)
  exact absurd hperm.length_eq (by decide)

end SSHDestination

end MbKeeper
