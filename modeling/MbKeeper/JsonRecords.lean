import MbKeeper.JsonRoundTrip
import MbKeeper.PostRun
import MbKeeper.Cli

/-!
# What the program prints as JSON

The manifest, the summary that `post_run` reads and the records of a JSON log
are the values they are made of, printed by `dumps`, so whoever parses them has
these values again. A log holds one record a line, whatever stands in the
messages.
-/
namespace MbKeeper

/-- `asdict(self)`, sorted by its keys. -/
def BackupMeta.asDumped (m : BackupMeta) : Dumped := .dict
  [("backup_id", .str m.backup_id), ("finished_at", .str m.finished_at),
    ("hostname", .str m.hostname), ("mariabackup_version", .str m.mariabackup_version),
    ("mariadb_version", .str m.mariadb_version), ("prepared", .bool m.prepared),
    ("schema_version", .int m.schema_version), ("size_bytes", .int m.size_bytes),
    ("started_at", .str m.started_at), ("status", .str m.status),
    ("tool_version", .str m.tool_version), ("type", .str m.type)]

def manifestStyle : JsonStyle := ⟨some 2, true⟩

def lineStyle : JsonStyle := ⟨none, true⟩

theorem jsonString_eq (style : JsonStyle) (h : style.ensure_ascii = true) (s : String) :
    (jsonString s).toList = style.text s := by
  have hchar : style.char = jsonChar := by
    funext c
    rw [JsonStyle.char, h]
    rfl
  rw [jsonString, String.toList_ofList, JsonStyle.text, hchar]
  simp

theorem jsonBool_eq (style : JsonStyle) (level : ℕ) (b : Bool) :
    (jsonBool b).toList = dumpsAt style level (.bool b) := by
  cases b <;> rfl

theorem jsonInt_eq (style : JsonStyle) (level : ℕ) (z : ℤ) :
    (jsonInt z).toList = dumpsAt style level (.int z) := by
  rw [jsonInt, String.toList_ofList]
  rfl

theorem to_json_eq (m : BackupMeta) :
    m.to_json = String.ofList (dumpsAt manifestStyle 0 m.asDumped ++ ['\n']) := by
  apply String.toList_injective
  have hstring := jsonString_eq manifestStyle rfl
  have hint := jsonInt_eq manifestStyle 1
  have hbool := jsonBool_eq manifestStyle 1
  have hfirst : manifestStyle.newline 1 = '\n' :: "  ".toList := rfl
  have hnext : manifestStyle.separator 1 = ",\n".toList ++ "  ".toList := rfl
  have hlast : manifestStyle.newline 0 = ['\n'] := rfl
  simp only [BackupMeta.to_json, BackupMeta.asDumped, String.toList_append, String.toList_ofList,
    String.toList_intercalate, dumpsAt, dumpsMembers, hfirst, hnext, hlast, hstring, hint, hbool,
    List.map_cons, List.map_nil, List.intercalate]
  simp

theorem asDumped_fits {m : BackupMeta} (hversion : Convertible m.schema_version)
    (hsize : Convertible m.size_bytes) : m.asDumped.Fits := by
  have hkeys : ["backup_id", "finished_at", "hostname", "mariabackup_version", "mariadb_version",
      "prepared", "schema_version", "size_bytes", "started_at", "status", "tool_version",
      "type"].Nodup := by decide
  refine ⟨hkeys, ?_⟩
  simp only [MembersFit, Dumped.Fits, and_true, true_and]
  exact ⟨hversion, hsize⟩

theorem json_loads_to_json {m : BackupMeta} (hversion : Convertible m.schema_version)
    (hsize : Convertible m.size_bytes) :
    json_loads m.to_json = .ok (.obj m.asRead.items) := by
  have hspace : Spacing ['\n'] := by
    intro c hc
    rw [List.mem_singleton.mp hc]
    rfl
  rw [to_json_eq, json_loads_dumps manifestStyle _ (asDumped_fits hversion hsize) hspace]
  rfl

/-- The manifest of a run. -/
def recordedMeta (config : Config) (backup_id server_version : String)
    (started_at finished_at : Datetime) (hostname version : String) (size_bytes : ℕ) :
    BackupMeta where
  schema_version := MANIFEST_SCHEMA_VERSION
  backup_id := backup_id
  type := "full"
  status := "complete"
  started_at := isoformat started_at.wall
  finished_at := isoformat finished_at.wall
  hostname := hostname
  mariadb_version := server_version
  mariabackup_version := version
  prepared := config.backup.prepare
  size_bytes := size_bytes
  tool_version := s!"mariabackup-keeper {VERSION}"

/-- What a `json.loads` makes of a text is what the reader of this module makes of it. -/
def LoadsLike (loads : String → Except LoadsError Json) (text : String) : Prop :=
  ∀ value, json_loads text = .ok value → loads text = .ok value

/-- The manifest that a run writes is that of the host, of the version that `mariabackup` reported
and of the size of the files in the target directory, and whoever reads it has all its fields
again, as long as its size has no more digits than `int` converts. -/
theorem recorded_manifest_reads_back {config : Config} {target_dir : Path}
    {backup_id server_version : String} {started_at finished_at : Datetime} {w w' : World}
    (h : exec (record_meta config target_dir backup_id server_version started_at finished_at) w =
      (.ok (), w')) (hsize : Convertible (sizeBelow w.fs target_dir)) :
    ∃ hostname version u u', exec gethostname w = (.ok hostname, u) ∧
      exec (⟨config.backup, config.replication⟩ : MariabackupRunner).get_version u =
        (.ok version, u') ∧
      ∃ m, m = recordedMeta config backup_id server_version started_at finished_at hostname version
          (sizeBelow w.fs target_dir) ∧
        w'.fs.kind (target_dir.child META_FILENAME).loc = some (.file m.to_json) ∧
        ∀ loads, LoadsLike loads m.to_json →
          read_meta loads true (.ok m.to_json.toUTF8) = .ok (some m.asRead) := by
  obtain ⟨hostname, u, hhost, h⟩ := exec_bind_eq_ok h
  obtain ⟨version, u', hget, h⟩ := exec_bind_eq_ok h
  obtain ⟨size_bytes, v, hmeasure, h⟩ := exec_bind_eq_ok h
  have hsame : Same u u' := (MariabackupRunner.get_version_moves _).of_exec hget
  have hmeasured : size_bytes = sizeBelow w.fs target_dir := by
    rw [(exec_ask_ok hmeasure).1, World.fs_next, hsame.fs, (exec_ask_ok hhost).2, World.fs_next]
  have hwrite : exec (write_meta target_dir (recordedMeta config backup_id server_version started_at
      finished_at hostname version size_bytes)) v = (.ok (), w') := h
  rw [hmeasured] at hwrite
  refine ⟨hostname, version, u, u', hhost, hget, _, rfl, write_text_ok hwrite,
    fun loads hloads => ?_⟩
  have hversion : Convertible MANIFEST_SCHEMA_VERSION := by decide
  exact read_meta_to_json (hloads _ (json_loads_to_json hversion hsize))

/-- A target directory with four bytes of data, on a host with a name. -/
def copiedWorld : World :=
  { smallWorld ((smallTree.addGeneration [entry "w", entry "x"]).create
      [entry "w", entry "x", entry "ibdata1"] (.file "data") 0) with
    tape := fun n => { Reply.good 0 with
      stdout := if n = 0 then "db1" else "mariabackup based on MariaDB server 10.11" } }

theorem recorded_manifest_reads_back_small :
    ∃ m : BackupMeta, m = recordedMeta (smallConfig "/w" "p" "/b" 1) "p-20231114T221320Z" ""
        (Datetime.utc 0) (Datetime.utc 1700000000000000) "db1"
        "mariabackup based on MariaDB server 10.11" 4 ∧
      (exec (record_meta (smallConfig "/w" "p" "/b" 1)
        (Path.configured [] (PurePath.parse "/w/x")) "p-20231114T221320Z" "" (Datetime.utc 0)
        (Datetime.utc 1700000000000000)) copiedWorld).2.fs.kind
          [entry "w", entry "x", META_FILENAME] = some (.file m.to_json) ∧
      ∀ loads, LoadsLike loads m.to_json →
        read_meta loads true (.ok m.to_json.toUTF8) = .ok (some m.asRead) := by
  have hrun : (exec (record_meta (smallConfig "/w" "p" "/b" 1)
      (Path.configured [] (PurePath.parse "/w/x")) "p-20231114T221320Z" "" (Datetime.utc 0)
      (Datetime.utc 1700000000000000)) copiedWorld).1 = .ok () := by
    decide +kernel
  have hsize : sizeBelow copiedWorld.fs (Path.configured [] (PurePath.parse "/w/x")) = 4 := by
    decide +kernel
  have hhost : (exec gethostname copiedWorld).1 = .ok "db1" := by decide +kernel
  have hversion : (exec (⟨(smallConfig "/w" "p" "/b" 1).backup,
      (smallConfig "/w" "p" "/b" 1).replication⟩ : MariabackupRunner).get_version
        (exec gethostname copiedWorld).2).1 =
      .ok "mariabackup based on MariaDB server 10.11" := by
    decide +kernel
  obtain ⟨hostname, version, u, u', hhost', hversion', m, hm, hkind, hread⟩ :=
    recorded_manifest_reads_back (exec_of_ok hrun) (by rw [hsize]; decide)
  rw [hhost'] at hhost hversion
  rw [hversion'] at hversion
  rw [Except.ok.inj hhost, Except.ok.inj hversion, hsize] at hm
  exact ⟨m, hm, hkind, hread⟩

theorem intercalate_cons {α : Type} (sep x : List α) (xs : List (List α)) :
    sep.intercalate (x :: xs) = x ++ xs.flatMap (sep ++ ·) := by
  induction xs generalizing x with
  | nil => simp [List.intercalate]
  | cons y ys ih =>
    rw [List.flatMap_cons, List.append_assoc, ← ih y]
    simp [List.intercalate]

theorem dumpsItems_eq (style : JsonStyle) (level : ℕ) (vs : List Dumped) :
    dumpsItems style level vs =
      (vs.map (dumpsAt style level)).flatMap (style.separator level ++ ·) := by
  induction vs with
  | nil => rfl
  | cons v vs ih => rw [dumpsItems, ih, List.map_cons, List.flatMap_cons, List.append_assoc]

/-- An array on one line. -/
theorem dumpsAt_list_line (style : JsonStyle) (h : style.indent = none) (level : ℕ)
    (vs : List Dumped) : dumpsAt style level (.list vs) =
      '[' :: ([',', ' '].intercalate (vs.map (dumpsAt style (level + 1))) ++ [']']) := by
  have hnewline (level : ℕ) : style.newline level = [] := by rw [JsonStyle.newline, h]
  have hseparator : style.separator (level + 1) = [',', ' '] := by rw [JsonStyle.separator, h]
  cases vs with
  | nil => rfl
  | cons v vs =>
    rw [dumpsAt, hnewline, hnewline, dumpsItems_eq, hseparator, List.map_cons, intercalate_cons]
    simp

def DestinationOutcome.asDumped (o : DestinationOutcome) : Dumped :=
  .dict [("name", .str o.name), ("stored", .bool o.stored), ("error", .str o.error)]

def RunSummary.asDumped (summary : RunSummary) : Dumped := .dict
  [("backup_id", .str summary.backup_id), ("exit_code", .int summary.exit_code.toNat),
    ("destinations", .list (summary.destination_outcomes.map DestinationOutcome.asDumped)),
    ("error", .str summary.error)]

theorem outcome_eq (o : DestinationOutcome) :
    ("\x7b\"name\": " ++ jsonString o.name ++ ", \"stored\": " ++ jsonBool o.stored ++ ", " ++
      ("\"error\": " ++ jsonString o.error ++ "\x7d")).toList = dumpsAt lineStyle 2 o.asDumped := by
  have hstring := jsonString_eq lineStyle rfl
  have hname : "\x7b\"name\": ".toList = '{' :: (lineStyle.text "name" ++ [':', ' ']) := rfl
  have hstored : ", \"stored\": ".toList =
      ',' :: ' ' :: (lineStyle.text "stored" ++ [':', ' ']) := rfl
  have herror : "\"error\": ".toList = lineStyle.text "error" ++ [':', ' '] := rfl
  have hcomma : ", ".toList = [',', ' '] := rfl
  have hclose : "\x7d".toList = ['}'] := rfl
  have hnewline (level : ℕ) : lineStyle.newline level = [] := rfl
  have hseparator (level : ℕ) : lineStyle.separator level = [',', ' '] := rfl
  have hbool := jsonBool_eq lineStyle 3
  simp only [DestinationOutcome.asDumped, dumpsAt, dumpsMembers, hnewline, hseparator,
    String.toList_append, hstring, hname, hstored, herror, hcomma, hclose, hbool,
    List.append_assoc, List.cons_append, List.nil_append]

theorem outcomes_eq (outcomes : List DestinationOutcome) :
    (outcomes.map (fun o => "\x7b\"name\": " ++ jsonString o.name ++ ", \"stored\": " ++
      jsonBool o.stored ++ ", " ++
        ("\"error\": " ++ jsonString o.error ++ "\x7d"))).map String.toList =
      (outcomes.map DestinationOutcome.asDumped).map (dumpsAt lineStyle 2) := by
  rw [List.map_map, List.map_map]
  exact List.map_congr_left (fun o _ => outcome_eq o)

theorem payload_eq (summary : RunSummary) :
    summary.payload = String.ofList (dumpsAt lineStyle 0 summary.asDumped) := by
  have happend (a b c d e f x y z u : String) :
      (a ++ x ++ b ++ y ++ c ++ d ++ z ++ (e ++ u ++ f)).toList =
        a.toList ++ (x.toList ++ (b.toList ++ (y.toList ++ (c.toList ++ (d.toList ++ (z.toList ++
          (e.toList ++ (u.toList ++ f.toList)))))))) := by
    simp only [String.toList_append, List.append_assoc]
  have hid : "\x7b\"backup_id\": ".toList = '{' :: (lineStyle.text "backup_id" ++ [':', ' ']) := rfl
  have hcode : ", \"exit_code\": ".toList =
      ',' :: ' ' :: (lineStyle.text "exit_code" ++ [':', ' ']) := rfl
  have hcomma : ", ".toList = [',', ' '] := rfl
  have hlist : "\"destinations\": [".toList =
      lineStyle.text "destinations" ++ [':', ' ', '['] := rfl
  have herror : "], \"error\": ".toList =
      ']' :: ',' :: ' ' :: (lineStyle.text "error" ++ [':', ' ']) := rfl
  have hclose : "\x7d".toList = ['}'] := rfl
  have hnewline (level : ℕ) : lineStyle.newline level = [] := rfl
  have hseparator (level : ℕ) : lineStyle.separator level = [',', ' '] := rfl
  have hstring := jsonString_eq lineStyle rfl
  have hint := jsonInt_eq lineStyle 1
  have hitems := dumpsAt_list_line lineStyle rfl 1
    (summary.destination_outcomes.map DestinationOutcome.asDumped)
  apply String.toList_injective
  unfold RunSummary.payload
  dsimp only [toString]
  rw [happend, String.toList_intercalate, outcomes_eq, hstring, hstring, hint, hid, hcode, hcomma,
    hlist, herror, hclose]
  simp only [RunSummary.asDumped, dumpsAt, dumpsMembers, hitems, hnewline, hseparator,
    String.toList_ofList, List.append_assoc, List.cons_append, List.nil_append]

theorem summary_fits (summary : RunSummary) : summary.asDumped.Fits := by
  have hkeys : ["backup_id", "exit_code", "destinations", "error"].Nodup := by decide
  have hcode : Convertible summary.exit_code.toNat := by
    cases summary.exit_code <;> decide
  have houtcomes (outcomes : List DestinationOutcome) :
      ItemsFit (outcomes.map DestinationOutcome.asDumped) := by
    induction outcomes with
    | nil => trivial
    | cons o outcomes ih =>
      have hnames : ["name", "stored", "error"].Nodup := by decide
      exact ⟨⟨hnames, trivial, trivial, trivial, trivial⟩, ih⟩
  exact ⟨hkeys, trivial, hcode, houtcomes _, trivial, trivial⟩

/-- A run that returns hands its `post_run` hook, once and as its last step, one line that is
JSON and holds the summary. -/
theorem post_run_reads_summary {site : Site} {config : Config} {now : Option Datetime} {w : World}
    {summary : RunSummary} {s' : Pipe}
    (h : exec (run site config now) ⟨w, []⟩ = (.ok summary, s')) :
    ∃ payload before, s'.trace = before ++ [.call (.hook .post_run (some payload)),
        .returned (.hook .post_run (some payload))] ∧ (∀ e ∈ before, e.Unreported) ∧
      '\n' ∉ payload.toList ∧ json_loads payload = .ok summary.asDumped.toJson := by
  obtain ⟨summary', before, hok, htrace, hbefore⟩ := run_reported h
  obtain rfl : summary = summary' := Except.ok.inj hok
  have hline : '\n' ∉ summary.payload.toList := by
    rw [payload_eq, String.toList_ofList]
    exact newline_notMem_dumpsAt rfl 0 _
  have hread : json_loads summary.payload = .ok summary.asDumped.toJson := by
    have hspace : Spacing [] := by simp [Spacing]
    have hloads := json_loads_dumps lineStyle summary.asDumped (summary_fits summary) hspace
    rwa [List.append_nil, ← payload_eq] at hloads
  exact ⟨summary.payload, before, htrace, hbefore, hline, hread⟩

theorem post_run_reads_summary_success :
    ∃ payload before, (exec (run (MbKeeper.site [] smallNodes) reportingConfig
        (some (Datetime.utc 1700000000000000))) ⟨backupWorld, []⟩).2.trace =
        before ++ [.call (.hook .post_run (some payload)),
          .returned (.hook .post_run (some payload))] ∧
      (∀ e ∈ before, e.Unreported) ∧ '\n' ∉ payload.toList ∧
      json_loads payload = .ok (RunSummary.asDumped
        ⟨"p-20231114T221320Z", .SUCCESS, [⟨"disk", true, ""⟩], ""⟩).toJson := by
  have hrun : (exec (run (MbKeeper.site [] smallNodes) reportingConfig
      (some (Datetime.utc 1700000000000000))) ⟨backupWorld, []⟩).1 =
      .ok ⟨"p-20231114T221320Z", .SUCCESS, [⟨"disk", true, ""⟩], ""⟩ := by
    decide +kernel
  exact post_run_reads_summary (exec_of_ok hrun)

inductive LogLevel where
  | DEBUG
  | INFO
  | WARNING
  | ERROR

def LogLevel.levelname : LogLevel → String
  | .DEBUG => "DEBUG"
  | .INFO => "INFO"
  | .WARNING => "WARNING"
  | .ERROR => "ERROR"

def LogLevel.levelno : LogLevel → ℕ
  | .DEBUG => 10
  | .INFO => 20
  | .WARNING => 30
  | .ERROR => 40

/-- What a formatter reads of a record: `message` is `getMessage()`, and `exc_info` is the
formatted traceback. -/
structure LogRecord where
  created : Instant
  level : LogLevel
  message : String
  run_id : Option String
  exc_info : Option String

/-- `formatTime(record, "%Y-%m-%dT%H:%M:%S%z")` in a zone so many seconds east of UTC. -/
def formatTime (utcoffset : ℤ) (created : Instant) : String :=
  let local_time := created + utcoffset * 1000000
  let d := dateOf local_time
  let s := ordinalSecond local_time % 86400
  let east := utcoffset.natAbs
  String.ofList (natText d.year ++ ['-'] ++ pad 2 d.month ++ ['-'] ++ pad 2 d.day ++ ['T'] ++
    pad 2 (s / 3600) ++ [':'] ++ pad 2 (s % 3600 / 60) ++ [':'] ++ pad 2 (s % 60) ++
    [if utcoffset < 0 then '-' else '+'] ++ pad 2 (east / 3600) ++ pad 2 (east % 3600 / 60))

section

variable (utcoffset : ℤ)

/-- The payload of `_JsonFormatter`. -/
def LogRecord.payload (record : LogRecord) : Dumped := .dict
  ([("timestamp", .str (formatTime utcoffset record.created)),
    ("level", .str record.level.levelname.toLower), ("message", .str record.message),
    ("run_id", match record.run_id with
      | some run_id => .str run_id
      | none => .null)] ++
    match record.exc_info with
    | some traceback => [("exc_info", .str traceback)]
    | none => [])

/-- `_JsonFormatter.format` -/
def json_format (record : LogRecord) : String := dumps ⟨none, false⟩ (record.payload utcoffset)

/-- `_TextFormatter.format` -/
def text_format (record : LogRecord) : String :=
  let run_id := record.run_id.getD ""
  let base := formatTime utcoffset record.created
  let level := String.ofList (record.level.levelname.toList.rightpad 7 ' ')
  s!"{base} {level} " ++ (if run_id ≠ "" then s!"[{run_id}] " else "") ++ record.message ++
    match record.exc_info with
    | some traceback => "\n" ++ traceback
    | none => ""

end

/-- The logger of the package: its level, the formatter of its handlers and their filter. -/
structure PackageLogger where
  level : ℕ
  format : LogRecord → String
  run_id : Option String

/-- The logger that `setup_logging` leaves; the filter has no id yet. -/
def package_logger (utcoffset : ℤ) (config : LoggingConfig) : Option PackageLogger :=
  (LEVELS.lookup config.level).map (fun level =>
    ⟨level, if config.format = "json" then json_format utcoffset else text_format utcoffset, none⟩)

/-- `RunIdFilter.filter` -/
def PackageLogger.filter (logger : PackageLogger) (record : LogRecord) : LogRecord :=
  { record with run_id := logger.run_id }

/-- What a handler writes for the records that are logged. -/
def PackageLogger.written (logger : PackageLogger) (records : List LogRecord) : String :=
  String.join ((records.filter (fun record => logger.level ≤ record.level.levelno)).map
    (fun record => logger.format (logger.filter record) ++ "\n"))

/-- A log read line by line, each parsed. -/
def read_log (text : String) : List (Except String Json) :=
  (text.toList.splitOn '\n').dropLast.map (fun line => json_loads (String.ofList line))

theorem log_payload_fits (utcoffset : ℤ) (record : LogRecord) :
    (record.payload utcoffset).Fits := by
  have hkeys : ["timestamp", "level", "message", "run_id"].Nodup := by decide
  have hkeys' : ["timestamp", "level", "message", "run_id", "exc_info"].Nodup := by decide
  obtain ⟨created, level, message, run_id, exc_info⟩ := record
  cases run_id with
  | none =>
    cases exc_info with
    | none => exact ⟨hkeys, trivial, trivial, trivial, trivial, trivial⟩
    | some traceback => exact ⟨hkeys', trivial, trivial, trivial, trivial, trivial, trivial⟩
  | some run_id =>
    cases exc_info with
    | none => exact ⟨hkeys, trivial, trivial, trivial, trivial, trivial⟩
    | some traceback => exact ⟨hkeys', trivial, trivial, trivial, trivial, trivial, trivial⟩

theorem splitOn_lines {lines : List (List Char)} (h : ∀ l ∈ lines, '\n' ∉ l) :
    (lines.flatMap (· ++ ['\n'])).splitOn '\n' = lines ++ [[]] := by
  have hjoin : lines.flatMap (· ++ ['\n']) = ['\n'].intercalate (lines ++ [[]]) := by
    clear h
    induction lines with
    | nil => rfl
    | cons l lines ih =>
      cases lines with
      | nil => simp [List.intercalate]
      | cons l' lines =>
        rw [List.flatMap_cons, ih]
        simp [List.intercalate]
  have hall : ∀ l ∈ lines ++ [[]], '\n' ∉ l := by
    intro l hl
    rcases List.mem_append.mp hl with hl | hl
    · exact h l hl
    · rw [List.mem_singleton.mp hl]
      exact List.not_mem_nil
  rw [hjoin]
  exact List.splitOn_intercalate _ hall (by simp)

theorem read_log_join {format : LogRecord → String} (h : ∀ record, '\n' ∉ (format record).toList)
    (records : List LogRecord) :
    read_log (String.join (records.map (fun record => format record ++ "\n"))) =
      records.map (fun record => json_loads (format record)) := by
  have hjoin : (String.join (records.map (fun record => format record ++ "\n"))).toList =
      (records.map (fun record => (format record).toList)).flatMap (· ++ ['\n']) := by
    simp [String.toList_join, List.flatMap_map]
  have hlines : ∀ l ∈ records.map (fun record => (format record).toList), '\n' ∉ l := by
    intro l hl
    obtain ⟨record, -, rfl⟩ := List.mem_map.mp hl
    exact h record
  rw [read_log, hjoin, splitOn_lines hlines, List.dropLast_concat, List.map_map]
  simp [Function.comp_def]

theorem json_format_line (utcoffset : ℤ) (record : LogRecord) :
    '\n' ∉ (json_format utcoffset record).toList := by
  rw [json_format, dumps, String.toList_ofList]
  exact newline_notMem_dumpsAt rfl 0 _

theorem json_loads_json_format (utcoffset : ℤ) (record : LogRecord) :
    json_loads (json_format utcoffset record) = .ok (record.payload utcoffset).toJson := by
  have hspace : Spacing [] := by simp [Spacing]
  have hloads := json_loads_dumps ⟨none, false⟩ _ (log_payload_fits utcoffset record) hspace
  rwa [List.append_nil] at hloads

/-- Whoever reads a JSON log line by line has the records again, those of the configured level
and above, in order and with the id of the run: no text in a message makes a line of its own. -/
theorem json_log_reads_back {utcoffset : ℤ} {config : LoggingConfig} {logger : PackageLogger}
    (hlogger : package_logger utcoffset config = some logger) (hformat : config.format = "json")
    (run_id : Option String) (records : List LogRecord) :
    read_log ({ logger with run_id := run_id }.written records) =
      (records.filter (fun record => logger.level ≤ record.level.levelno)).map (fun record =>
        .ok (LogRecord.payload utcoffset { record with run_id := run_id }).toJson) := by
  obtain ⟨level, -, rfl⟩ := Option.map_eq_some_iff.mp hlogger
  rw [if_pos hformat]
  have hline (record : LogRecord) :
      '\n' ∉ (json_format utcoffset { record with run_id := run_id }).toList :=
    json_format_line utcoffset _
  have hread := read_log_join hline
    (records.filter (fun record => level ≤ record.level.levelno))
  simp only [json_loads_json_format] at hread
  exact hread

/-- An error with a traceback, after a message that is below the level. -/
theorem json_log_reads_back_error :
    read_log ((⟨30, json_format 3600, some "p-20231114T221320Z"⟩ : PackageLogger).written
      [⟨1700000000000000, .INFO, "starting run", none, none⟩,
        ⟨1700000001000000, .ERROR, "backup failed:\nno space", none, some "Traceback\n  …"⟩]) =
      [.ok (LogRecord.payload 3600 ⟨1700000001000000, .ERROR, "backup failed:\nno space",
        some "p-20231114T221320Z", some "Traceback\n  …"⟩).toJson] := by
  have hlogger : package_logger 3600 ⟨"warning", "json", .str ""⟩ =
      some ⟨30, json_format 3600, none⟩ := rfl
  exact json_log_reads_back hlogger rfl (some "p-20231114T221320Z") _

end MbKeeper
