import MbKeeper.Manifest

/-!
# Reading a manifest

`read_meta` decodes `meta.json`, parses it, keeps the keys that are fields of
`BackupMeta` and hands them to the constructor. A text that is no JSON and an
object without a field give nothing. An object with more keys, in any order,
gives the manifest it holds. Bytes that are no text, JSON that is no object and a
text that `json.loads` refuses for another reason than its syntax are not
foreseen. What `json.loads` does is a parameter.
-/
namespace MbKeeper

/-- A Python string: its code points, among which a surrogate may stand alone. -/
abbrev PyStr := List ℕ

def codes (s : String) : PyStr := s.toList.map Char.toNat

theorem codes_injective : Function.Injective codes := by
  intro s t h
  have hchar : Function.Injective Char.toNat := fun c d hcd => Char.toNat_inj.mp hcd
  exact String.toList_injective (List.map_injective_iff.mpr hchar h)

/-- What `json.loads` returns; an object is a `dict`, in the order of its keys. -/
inductive Json where
  | null
  | bool (b : Bool)
  | int (z : ℤ)
  | float (text : String)
  | str (s : PyStr)
  | arr (items : List Json)
  | obj (items : List (PyStr × Json))

/-- `type(value).__name__` -/
def Json.typeName : Json → String
  | .null => "NoneType"
  | .bool _ => "bool"
  | .int _ => "int"
  | .float _ => "float"
  | .str _ => "str"
  | .arr _ => "list"
  | .obj _ => "dict"

/-- What `json.loads` raises. -/
inductive LoadsError where
  /-- `JSONDecodeError` -/
  | decode (message : String)
  /-- The `ValueError` of an integer with more digits than `int` converts. -/
  | value (message : String)
  /-- The `RecursionError` of a value that lies too deep. -/
  | recursion (message : String)

/-- The exceptions that reading a manifest meets. -/
inductive ReadError where
  | os (message : String)
  | unicode (message : String)
  | loads (error : LoadsError)
  /-- The arguments that the constructor misses. -/
  | type (missing : List String)
  | attribute (message : String)

/-- `dataclasses.fields(BackupMeta)` -/
def META_FIELDS : List String :=
  ["schema_version", "backup_id", "type", "status", "started_at", "finished_at", "hostname",
    "mariadb_version", "mariabackup_version", "prepared", "size_bytes", "tool_version"]

/-- A `BackupMeta` as its constructor makes it, which does not look at the types. -/
structure ReadMeta where
  schema_version : Json
  backup_id : Json
  type : Json
  status : Json
  started_at : Json
  finished_at : Json
  hostname : Json
  mariadb_version : Json
  mariabackup_version : Json
  prepared : Json
  size_bytes : Json
  tool_version : Json

/-- `asdict(self)`, in the order in which `to_json` prints it. -/
def ReadMeta.items (m : ReadMeta) : List (PyStr × Json) :=
  [(codes "backup_id", m.backup_id), (codes "finished_at", m.finished_at),
    (codes "hostname", m.hostname), (codes "mariabackup_version", m.mariabackup_version),
    (codes "mariadb_version", m.mariadb_version), (codes "prepared", m.prepared),
    (codes "schema_version", m.schema_version), (codes "size_bytes", m.size_bytes),
    (codes "started_at", m.started_at), (codes "status", m.status),
    (codes "tool_version", m.tool_version), (codes "type", m.type)]

/-- The manifest of a run, as it is read. -/
def BackupMeta.asRead (m : BackupMeta) : ReadMeta where
  schema_version := .int m.schema_version
  backup_id := .str (codes m.backup_id)
  type := .str (codes m.type)
  status := .str (codes m.status)
  started_at := .str (codes m.started_at)
  finished_at := .str (codes m.finished_at)
  hostname := .str (codes m.hostname)
  mariadb_version := .str (codes m.mariadb_version)
  mariabackup_version := .str (codes m.mariabackup_version)
  prepared := .bool m.prepared
  size_bytes := .int m.size_bytes
  tool_version := .str (codes m.tool_version)

/-- `BackupMeta(**kwargs)` -/
def ReadMeta.init (kwargs : List (PyStr × Json)) : Except ReadError ReadMeta :=
  let value (field : String) : Json := (kwargs.lookup (codes field)).getD .null
  match META_FIELDS.filter (fun field => (kwargs.lookup (codes field)).isNone) with
  | [] => .ok {
      schema_version := value "schema_version"
      backup_id := value "backup_id"
      type := value "type"
      status := value "status"
      started_at := value "started_at"
      finished_at := value "finished_at"
      hostname := value "hostname"
      mariadb_version := value "mariadb_version"
      mariabackup_version := value "mariabackup_version"
      prepared := value "prepared"
      size_bytes := value "size_bytes"
      tool_version := value "tool_version" }
  | missing => .error (.type missing)

/-- The keys that are fields, with their values. -/
def knownItems (items : List (PyStr × Json)) : List (PyStr × Json) :=
  items.filter (fun item => item.1 ∈ META_FIELDS.map codes)

section

variable (loads : String → Except LoadsError Json)

/-- `BackupMeta.from_json` -/
def from_json (text : String) : Except ReadError ReadMeta :=
  match loads text with
  | .error error => .error (.loads error)
  | .ok (.obj items) => ReadMeta.init (knownItems items)
  | .ok value => .error (.attribute s!"'{value.typeName}' object has no attribute 'items'")

/-- A text file read with universal newlines. -/
def universalNewlines : List Char → List Char
  | [] => []
  | '\r' :: '\n' :: s => '\n' :: universalNewlines s
  | '\r' :: s => '\n' :: universalNewlines s
  | c :: s => c :: universalNewlines s

/-- `bytes` as `read_text` gives them. -/
def decoded (bytes : ByteArray) : Option String :=
  (String.fromUTF8? bytes).map (fun text => String.ofList (universalNewlines text.toList))

/-- `read_meta`, from what the file system answers about `meta.json`: whether it is a regular
file, and what reading it gives. -/
def read_meta (is_file : Bool) (read_bytes : Except String ByteArray) :
    Except ReadError (Option ReadMeta) :=
  if is_file then
    match read_bytes with
    | .error message => .error (.os message)
    | .ok bytes => match decoded bytes with
      | none => .error (.unicode "'utf-8' codec can't decode the file")
      | some text => match from_json loads text with
        | .ok found => .ok (some found)
        | .error (.loads (.decode _)) | .error (.type _) => .ok none
        | .error e => .error e
  else .ok none

end

theorem ReadMeta.items_nodup (m : ReadMeta) : (m.items.map Prod.fst).Nodup := by
  have h : (m.items.map Prod.fst) = ["backup_id", "finished_at", "hostname", "mariabackup_version",
      "mariadb_version", "prepared", "schema_version", "size_bytes", "started_at", "status",
      "tool_version", "type"].map codes := rfl
  rw [h]
  exact List.Nodup.map codes_injective (by decide)

theorem lookup_eq_some_of_nodup {items : List (PyStr × Json)} {key : PyStr} {value : Json}
    (hnodup : (items.map Prod.fst).Nodup) :
    items.lookup key = some value ↔ (key, value) ∈ items := by
  induction items with
  | nil => simp
  | cons item items ih =>
    rw [List.map_cons, List.nodup_cons] at hnodup
    rw [List.lookup_cons, List.mem_cons]
    by_cases hkey : key = item.1
    · have hnot : (key, value) ∉ items := by
        intro hmem
        exact hnodup.1 (List.mem_map.mpr ⟨(key, value), hmem, hkey⟩)
      subst hkey
      simp [hnot, Prod.ext_iff, eq_comm]
    · have hbeq : (key == item.1) = false := by simpa using hkey
      have hne : (key, value) ≠ item := by
        intro he
        exact hkey (congrArg Prod.fst he)
      rw [hbeq]
      simpa [hne] using ih hnodup.2

/-- The order of a dictionary does not matter to what is looked up. -/
theorem lookup_eq_of_perm {items items' : List (PyStr × Json)} (hperm : items.Perm items')
    (hnodup : (items'.map Prod.fst).Nodup) (key : PyStr) :
    items.lookup key = items'.lookup key := by
  have hnodup' : (items.map Prod.fst).Nodup := (hperm.map Prod.fst).nodup_iff.mpr hnodup
  apply Option.ext
  intro value
  rw [lookup_eq_some_of_nodup hnodup', lookup_eq_some_of_nodup hnodup]
  exact hperm.mem_iff

/-- The object holds the fields of `m`, in whatever order, and other keys that are no fields. -/
def Extends (m : ReadMeta) (items : List (PyStr × Json)) : Prop := (knownItems items).Perm m.items

theorem ReadMeta.init_items (m : ReadMeta) : ReadMeta.init m.items = .ok m := rfl

theorem ReadMeta.init_extends {m : ReadMeta} {items : List (PyStr × Json)} (h : Extends m items) :
    ReadMeta.init (knownItems items) = .ok m := by
  have hlookup := lookup_eq_of_perm h m.items_nodup
  rw [← m.init_items]
  simp only [ReadMeta.init, hlookup]

theorem ReadMeta.extends_items (m : ReadMeta) : Extends m m.items := List.Perm.refl m.items

theorem mem_hexDigits {n : ℕ} {c : Char} (h : c ∈ Nat.toDigits 16 n) :
    ∃ d < 16, c = Nat.digitChar d := by
  induction n using Nat.strong_induction_on with
  | h n ih =>
    rw [Nat.toDigits_eq_if (by decide)] at h
    split_ifs at h with hn
    · exact ⟨n, hn, by simpa using h⟩
    · rcases List.mem_append.mp h with h | h
      · exact ih (n / 16) (by omega) h
      · exact ⟨n % 16, Nat.mod_lt n (by decide), by simpa using h⟩

theorem return_notMem_jsonEscape (n : ℕ) : '\r' ∉ jsonEscape n := by
  have hdigit : ∀ d < 16, '\r' ≠ Nat.digitChar d := by decide
  intro h
  simp only [jsonEscape, List.mem_append, List.mem_replicate] at h
  rcases h with (h | h) | h
  · simp at h
  · simp at h
  · obtain ⟨d, hd, hc⟩ := mem_hexDigits h
    exact hdigit d hd hc

theorem return_notMem_jsonChar (c : Char) : '\r' ∉ jsonChar c := by
  unfold jsonChar
  split_ifs with h₁ h₂ h₃
  · intro h
    rcases h₁ with rfl | rfl
    · simp at h
    · simp at h
  · simp
  · simp
  · simp
  · simp
  · simp
  · intro h
    obtain rfl : '\r' = c := by simpa using h
    exact h₃ rfl
  · exact return_notMem_jsonEscape _
  · rw [List.mem_append, not_or]
    exact ⟨return_notMem_jsonEscape _, return_notMem_jsonEscape _⟩

theorem return_notMem_jsonString (s : String) : '\r' ∉ (jsonString s).toList := by
  rw [jsonString, String.toList_ofList]
  simp [return_notMem_jsonChar]

theorem return_notMem_jsonInt (z : ℤ) : '\r' ∉ (jsonInt z).toList := by
  rw [jsonInt, String.toList_ofList]
  intro h
  rcases mem_intText h with h | h
  · simp at h
  · simp at h

theorem return_notMem_jsonBool (b : Bool) : '\r' ∉ (jsonBool b).toList := by
  cases b <;> simp [jsonBool]

/-- A manifest is printed without the characters that reading a text file translates. -/
theorem return_notMem_to_json (m : BackupMeta) : '\r' ∉ m.to_json.toList := by
  simp [BackupMeta.to_json, return_notMem_jsonString, return_notMem_jsonInt,
    return_notMem_jsonBool]

theorem universalNewlines_eq {s : List Char} (h : '\r' ∉ s) : universalNewlines s = s := by
  fun_induction universalNewlines s with
  | case1 => rfl
  | case2 s ih => simp at h
  | case3 s hs ih => simp at h
  | case4 c s hc hs ih =>
    rw [List.mem_cons, not_or] at h
    rw [ih h.2]

theorem decoded_toUTF8 {text : String} (h : '\r' ∉ text.toList) :
    decoded text.toUTF8 = some text := by
  have hutf8 : String.fromUTF8? text.toUTF8 = some text := by
    simp [String.fromUTF8?, String.fromUTF8, text.isValidUTF8]
  rw [decoded, hutf8, Option.map_some, universalNewlines_eq h, String.ofList_toList]

section

variable {loads : String → Except LoadsError Json} {bytes : ByteArray} {text : String}

theorem read_meta_of_decoded (htext : decoded bytes = some text) :
    read_meta loads true (.ok bytes) = match from_json loads text with
      | .ok found => .ok (some found)
      | .error (.loads (.decode _)) | .error (.type _) => .ok none
      | .error e => .error e := by
  simp only [read_meta, if_true, htext]

theorem read_meta_extends {m : ReadMeta} {items : List (PyStr × Json)}
    (htext : decoded bytes = some text) (hloads : loads text = .ok (.obj items))
    (h : Extends m items) : read_meta loads true (.ok bytes) = .ok (some m) := by
  have hjson : from_json loads text = .ok m := by
    rw [from_json, hloads]
    exact ReadMeta.init_extends h
  rw [read_meta_of_decoded htext, hjson]

theorem read_meta_to_json {m : BackupMeta}
    (hloads : loads m.to_json = .ok (.obj m.asRead.items)) :
    read_meta loads true (.ok m.to_json.toUTF8) = .ok (some m.asRead) :=
  read_meta_extends (decoded_toUTF8 (return_notMem_to_json m)) hloads m.asRead.extends_items

/-- What `write_meta` wrote is read back. -/
theorem read_meta_write_meta {m : BackupMeta} {target_dir : Path} {w w' : World}
    (h : exec (write_meta target_dir m) w = (.ok (), w'))
    (hloads : loads m.to_json = .ok (.obj m.asRead.items)) :
    ∃ written, w'.fs.kind (target_dir.child META_FILENAME).loc = some (.file written) ∧
      read_meta loads true (.ok written.toUTF8) = .ok (some m.asRead) := by
  exact ⟨m.to_json, write_text_ok h, read_meta_to_json hloads⟩

end

/-- `read_meta` on these bytes of `meta.json`, or without a file, gives the manifest that the
text holds, and in any case a manifest or nothing. -/
structure ReadsManifest (loads : String → Except LoadsError Json) (is_file : Bool)
    (bytes : ByteArray) : Prop where
  inverse : ∀ m items text, is_file = true → decoded bytes = some text →
    loads text = .ok (.obj items) → Extends m items →
      read_meta loads is_file (.ok bytes) = .ok (some m)
  written : ∀ m : BackupMeta, is_file = true → bytes = m.to_json.toUTF8 →
    loads m.to_json = .ok (.obj m.asRead.items) →
      read_meta loads is_file (.ok bytes) = .ok (some m.asRead)
  total : ∃ found, read_meta loads is_file (.ok bytes) = .ok found

/-- The bytes are a text, and `json.loads` finds an object in it or no JSON. -/
def ObjectOrNoJson (loads : String → Except LoadsError Json) (bytes : ByteArray) : Prop :=
  ∃ text, decoded bytes = some text ∧
    ((∃ items, loads text = .ok (.obj items)) ∨ ∃ message, loads text = .error (.decode message))

/-- The constructor raises nothing but a `TypeError`. -/
theorem ReadMeta.init_cases (kwargs : List (PyStr × Json)) :
    (∃ m, ReadMeta.init kwargs = .ok m) ∨
      ∃ missing, ReadMeta.init kwargs = .error (.type missing) := by
  unfold ReadMeta.init
  dsimp only
  split
  · exact .inl ⟨_, rfl⟩
  · exact .inr ⟨_, rfl⟩

theorem read_meta_total_iff (loads : String → Except LoadsError Json) (bytes : ByteArray) :
    (∃ found, read_meta loads true (.ok bytes) = .ok found) ↔ ObjectOrNoJson loads bytes := by
  unfold ObjectOrNoJson
  cases htext : decoded bytes with
  | none => simp [read_meta, htext]
  | some text =>
    rw [read_meta_of_decoded htext]
    cases hloads : loads text with
    | error error => cases error <;> simp [from_json, hloads]
    | ok value =>
      cases value with
      | obj items =>
        rcases ReadMeta.init_cases (knownItems items) with ⟨m, hm⟩ | ⟨missing, hm⟩
        · simp [from_json, hloads, hm]
        · simp [from_json, hloads, hm]
      | _ => simp [from_json, hloads]

theorem read_meta_iff (loads : String → Except LoadsError Json) (is_file : Bool)
    (bytes : ByteArray) :
    ReadsManifest loads is_file bytes ↔ (is_file = true → ObjectOrNoJson loads bytes) := by
  constructor
  · intro h hfile
    subst hfile
    exact (read_meta_total_iff loads bytes).mp h.total
  · intro h
    cases is_file with
    | false =>
      exact ⟨by simp, by simp, none, rfl⟩
    | true =>
      refine ⟨?_, ?_, (read_meta_total_iff loads bytes).mpr (h rfl)⟩
      · intro m items text _ htext hloads hextends
        exact read_meta_extends htext hloads hextends
      · intro m _ hbytes hloads
        rw [hbytes]
        exact read_meta_to_json hloads

/-- An empty list is JSON, and this parser knows no other. -/
def loadsList (text : String) : Except LoadsError Json :=
  if text = "[]" then .ok (.arr [])
  else .error (.decode "Expecting value: line 1 column 1 (char 0)")

/-- An empty list and a byte that starts no character: the one raises an `AttributeError`, the
other a `UnicodeDecodeError`. -/
theorem foreign_manifests_raise :
    read_meta loadsList true (.ok "[]".toUTF8) =
        .error (.attribute "'list' object has no attribute 'items'") ∧
      read_meta loadsList true (.ok ⟨#[255]⟩) =
        .error (.unicode "'utf-8' codec can't decode the file") ∧
      ¬ ReadsManifest loadsList true "[]".toUTF8 ∧
      ¬ ReadsManifest loadsList true ⟨#[255]⟩ := by
  have hlist : read_meta loadsList true (.ok "[]".toUTF8) =
      .error (.attribute "'list' object has no attribute 'items'") := by
    rw [read_meta_of_decoded (decoded_toUTF8 (by decide))]
    simp only [from_json, loadsList, if_true, Json.typeName]
    rfl
  have hbytes : read_meta loadsList true (.ok ⟨#[255]⟩) =
      .error (.unicode "'utf-8' codec can't decode the file") := by
    have hdecoded : decoded ⟨#[255]⟩ = none := by
      have hutf8 : String.fromUTF8? ⟨#[255]⟩ = none := by decide +kernel
      rw [decoded, hutf8, Option.map_none]
    simp [read_meta, hdecoded]
  refine ⟨hlist, hbytes, ?_, ?_⟩
  · intro h
    obtain ⟨found, hfound⟩ := h.total
    rw [hlist] at hfound
    cases hfound
  · intro h
    obtain ⟨found, hfound⟩ := h.total
    rw [hbytes] at hfound
    cases hfound

end MbKeeper
