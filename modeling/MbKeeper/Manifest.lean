import MbKeeper.Files

/-!
# Naming of generations and the manifest

`generate_backup_id` names a generation by the configured prefix and the UTC
second; the name says when it was taken, so the order of the names of one
prefix is the order of time. `BackupMeta` is the manifest `meta.json`, whose
presence marks a generation as complete.
-/
namespace MbKeeper

def MANIFEST_SCHEMA_VERSION : ℤ := 1

def META_FILENAME : Name := ⟨"meta.json", by decide⟩

def generate_backup_id (pre : String) (now : Datetime) : Except Exn String :=
  match now.instant with
  | none => .error (.value "now must be timezone-aware (UTC)")
  | some t =>
    if Representable t then .ok (pre ++ ("-" ++ String.ofList (stamp t)))
    else .error (.overflow "date value out of range")

theorem generate_backup_id_eq_ok {pre id : String} {now : Datetime} :
    generate_backup_id pre now = .ok id ↔ ∃ t, now.instant = some t ∧ Representable t ∧
      id = pre ++ ("-" ++ String.ofList (stamp t)) := by
  unfold generate_backup_id
  cases now.instant with
  | none => simp
  | some t =>
    by_cases ht : Representable t
    · simp [ht, eq_comm]
    · simp [ht]

/-- The characters of a stamp and the dash before it may stand in a name. -/
private theorem dash_stamp_legal (t : Instant) :
    ∀ c ∈ ("-" ++ String.ofList (stamp t)).toList, c ≠ '/' ∧ c ≠ Char.ofNat 0 := by
  intro c hc
  have hstamp : (String.ofList (stamp t)).toList = stamp t := String.toList_ofList
  rw [String.toList_append, List.mem_append, hstamp] at hc
  rcases hc with hc | hc
  · obtain rfl : c = '-' := by simpa using hc
    decide
  · rcases mem_stamp hc with rfl | rfl | hd
    · decide
    · decide
    · exact ⟨fun h => absurd (congrArg Char.toNat h) (by change c.toNat ≠ 47; omega),
        fun h => absurd (congrArg Char.toNat h) (by change c.toNat ≠ 0; omega)⟩

/-- A prefix that may stand in a name. -/
def PlainPrefix (pre : String) : Prop :=
  ∀ c ∈ pre.toList, c ≠ '/' ∧ c ≠ Char.ofNat 0

theorem length_stamp_ge (t : Instant) : 2 ≤ (stamp t).length := by
  simp [stamp]

/-- Under a prefix without a slash an id is the name of one directory. -/
theorem generate_backup_id_legal {pre id : String} {now : Datetime}
    (hp : PlainPrefix pre) (h : generate_backup_id pre now = .ok id) :
    Legal id := by
  obtain ⟨t, -, -, rfl⟩ := generate_backup_id_eq_ok.mp h
  apply Legal.append hp (dash_stamp_legal t)
  have hlen := length_stamp_ge t
  have hdash : "-".toList.length = 1 := rfl
  have hstamp : (String.ofList (stamp t)).toList = stamp t := String.toList_ofList
  rw [String.toList_append, List.length_append, hstamp]
  omega

/-- Under a prefix without a slash an id names a directory, unless the prefix holds a NUL. -/
theorem generate_backup_id_legal_or {pre id : String} {now : Datetime}
    (hp : '/' ∉ pre.toList) (h : generate_backup_id pre now = .ok id) :
    Legal id ∨ hasNul id = true := by
  by_cases hnul : hasNul id = true
  · exact .inr hnul
  · refine .inl (generate_backup_id_legal (fun c hc => ⟨fun he => hp (he ▸ hc), fun he => ?_⟩) h)
    obtain ⟨t, -, -, rfl⟩ := generate_backup_id_eq_ok.mp h
    refine hnul (decide_eq_true ?_)
    rw [String.toList_append]
    exact List.mem_append_left _ (he ▸ hc)

/-- The slashes of an id are those of its prefix. -/
theorem generate_backup_id_slash {pre id : String} {now : Datetime}
    (h : generate_backup_id pre now = .ok id) : '/' ∈ id.toList ↔ '/' ∈ pre.toList := by
  obtain ⟨t, -, -, rfl⟩ := generate_backup_id_eq_ok.mp h
  rw [String.toList_append, List.mem_append, or_iff_left]
  exact fun hc => (dash_stamp_legal t _ hc).1 rfl

/-- An id ends in the Z of its stamp. -/
theorem generate_backup_id_getLast? {pre id : String} {now : Datetime}
    (h : generate_backup_id pre now = .ok id) : id.toList.getLast? = some 'Z' := by
  obtain ⟨t, -, -, rfl⟩ := generate_backup_id_eq_ok.mp h
  simp only [String.toList_append, String.toList_ofList, List.getLast?_append, stamp_getLast?,
    Option.some_or]

/-- Among the four-digit years the ids of one prefix are in the order of their seconds. -/
theorem generate_backup_id_lt {pre id id' : String} {now now' : Datetime} {t t' : Instant}
    (h : generate_backup_id pre now = .ok id)
    (h' : generate_backup_id pre now' = .ok id') (ht : now.instant = some t)
    (ht' : now'.instant = some t') (hy : FourDigitYear t) (hy' : FourDigitYear t')
    (hlt : second t < second t') : id < id' := by
  obtain ⟨u, hu, -, rfl⟩ := generate_backup_id_eq_ok.mp h
  obtain ⟨u', hu', -, rfl⟩ := generate_backup_id_eq_ok.mp h'
  obtain rfl : t = u := Option.some.inj (ht.symm.trans hu)
  obtain rfl : t' = u' := Option.some.inj (ht'.symm.trans hu')
  rw [String.lt_iff_toList_lt]
  simp only [String.toList_append, String.toList_ofList]
  exact List.append_left_lt (List.append_left_lt (stamp_lt_stamp hy hy' hlt))

/-- `\uXXXX` -/
def jsonEscape (n : ℕ) : List Char :=
  let hex := Nat.toDigits 16 n
  ['\\', 'u'] ++ List.replicate (4 - hex.length) '0' ++ hex

def jsonChar (c : Char) : List Char :=
  if c = '"' ∨ c = '\\' then ['\\', c]
  else if c = '\n' then ['\\', 'n']
  else if c = '\r' then ['\\', 'r']
  else if c = '\t' then ['\\', 't']
  else if c.toNat = 8 then ['\\', 'b']
  else if c.toNat = 12 then ['\\', 'f']
  else if 32 ≤ c.toNat ∧ c.toNat < 127 then [c]
  else if c.toNat < 65536 then jsonEscape c.toNat
  else jsonEscape (55296 + (c.toNat - 65536) / 1024) ++
    jsonEscape (56320 + (c.toNat - 65536) % 1024)

/-- `json.dumps` of a string. -/
def jsonString (s : String) : String :=
  String.ofList (['"'] ++ s.toList.flatMap jsonChar ++ ['"'])

def jsonInt (z : ℤ) : String := String.ofList (intText z)

def jsonBool (b : Bool) : String := if b then "true" else "false"

structure BackupMeta where
  schema_version : ℤ
  backup_id : String
  type : String
  status : String
  started_at : String
  finished_at : String
  hostname : String
  mariadb_version : String
  mariabackup_version : String
  prepared : Bool
  size_bytes : ℕ
  tool_version : String

/-- `json.dumps(asdict(self), indent=2, sort_keys=True) + "\n"` -/
def BackupMeta.to_json (m : BackupMeta) : String :=
  let field (k v : String) : String := "  " ++ jsonString k ++ ": " ++ v
  "\x7b\n" ++ ",\n".intercalate
    [field "backup_id" (jsonString m.backup_id),
      field "finished_at" (jsonString m.finished_at),
      field "hostname" (jsonString m.hostname),
      field "mariabackup_version" (jsonString m.mariabackup_version),
      field "mariadb_version" (jsonString m.mariadb_version),
      field "prepared" (jsonBool m.prepared),
      field "schema_version" (jsonInt m.schema_version),
      field "size_bytes" (jsonInt m.size_bytes),
      field "started_at" (jsonString m.started_at),
      field "status" (jsonString m.status),
      field "tool_version" (jsonString m.tool_version),
      field "type" (jsonString m.type)] ++ "\n\x7d\n"

/-- `datetime.isoformat()` of a reading in UTC. -/
def isoformat (t : Instant) : String :=
  let d := dateOf t
  let s := ordinalSecond t % 86400
  let us := (t % 1000000).toNat
  String.ofList (pad 4 d.year ++ ['-'] ++ pad 2 d.month ++ ['-'] ++ pad 2 d.day ++ ['T'] ++
    pad 2 (s / 3600) ++ [':'] ++ pad 2 (s % 3600 / 60) ++ [':'] ++ pad 2 (s % 60) ++
    (if us = 0 then [] else '.' :: pad 6 us) ++ "+00:00".toList)

def write_meta (target_dir : Path) (m : BackupMeta) : Io Unit :=
  write_text (target_dir.child META_FILENAME) m.to_json false

/-- The sum of the sizes of the regular files below `path`. -/
def sizeBelow (t : Fs) (path : Path) : ℕ :=
  match path.find t with
  | none => 0
  | some l => ((t.locs.dedup.filter (l <+: ·)).map (fun q => match t.kind q with
    | some (.file d) => d.utf8ByteSize
    | _ => 0)).sum

def directory_size_bytes (path : Path) : Io ℕ := ask fun _ w => sizeBelow w.fs path

end MbKeeper
