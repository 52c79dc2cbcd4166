import MbKeeper.ConfigErrors
import MbKeeper.RunTrace
import Mathlib.Data.List.Forall2

/-!
# What an accepted configuration holds

Each parser repairs a bad value with a default and goes on, and the loop over the
destinations skips bad entries. When no message is left nothing was repaired or
skipped: every field holds what the document says, and the destinations are the
entries of the document one by one. The fields no check guards hold whatever
stands there.
-/
namespace MbKeeper

theorem natField_exact {table : Table} {key context : String} {default n : ℕ}
    (h : natField table key context default = (n, [])) :
    (getKey table key).getD (.int default) = .int n := by
  unfold natField at h
  split at h
  · next hk =>
    obtain ⟨rfl, -⟩ := Prod.mk.inj h
    rw [hk]
    rfl
  · next z hk =>
    split_ifs at h with hz
    · obtain ⟨rfl, -⟩ := Prod.mk.inj h
      rw [hk]
      exact congrArg Toml.int (by omega)
    · cases (Prod.mk.inj h).2
  · cases (Prod.mk.inj h).2

theorem choiceField_exact {table : Table} {key context default s : String} {valid : List String}
    (h : choiceField table key context valid default = .ok (s, [])) :
    (getKey table key).getD (.str default) = .str s ∧ s ∈ valid := by
  unfold choiceField at h
  dsimp only at h
  split at h
  · next t ht =>
    split_ifs at h with hv
    · obtain ⟨rfl, -⟩ := Prod.mk.inj (Except.ok.inj h)
      exact ⟨ht, hv⟩
    · obtain ⟨got, -, h⟩ := except_bind_ok h
      cases (Prod.mk.inj (Except.ok.inj h)).2
  · obtain ⟨got, -, h⟩ := except_bind_ok h
    cases (Prod.mk.inj (Except.ok.inj h)).2

theorem require_str_exact {table : Table} {key context s : String}
    (h : (require_str table key context).1 = some s) :
    getKey table key = some (.str s) ∧ s ≠ "" := by
  unfold require_str at h
  split at h
  · cases h
  · next t ht =>
    split_ifs at h with hs
    · obtain rfl := Option.some.inj h
      exact ⟨ht, hs⟩
  · cases h

theorem parse_keep_exact {table : Table} {context : String} {k : ℕ}
    (h : (parse_keep table context).1 = some k) : getKey table "keep" = some (.int k) ∧ 1 ≤ k := by
  unfold parse_keep at h
  split at h
  · next z hz =>
    split_ifs at h with h1
    · obtain rfl := Option.some.inj h
      exact ⟨by rw [hz, Int.toNat_of_nonneg (by omega)], by omega⟩
  · cases h

/-- Every key of a table without unknown keys is allowed. -/
theorem allowed_of_known {table : Table} {allowed : List String} {context key : String}
    (h : reject_unknown_keys table allowed context = []) {v : Toml}
    (hv : getKey table key = some v) : key ∈ allowed := by
  obtain ⟨l, l', rfl, -⟩ := List.lookup_eq_some_iff.mp hv
  by_contra hkey
  rw [reject_unknown_keys, List.map_eq_nil_iff, List.filter_eq_nil_iff] at h
  exact h (key, v) (by simp) (by simpa using hkey)

/-- A section as a table: one that is missing is as good as empty. -/
def sectionTable (raw : Table) (name : String) : Table :=
  match getKey raw name with
  | some (.table t) => t
  | _ => []

theorem optionalSection_exact {α : Type} {raw : Table} {name : String} {default c : α}
    {parse : Table → Except Exn (Checked α)} (hdefault : parse [] = .ok (default, []))
    (h : optionalSection (getKey raw name) name default parse = .ok (c, [])) :
    parse (sectionTable raw name) = .ok (c, []) := by
  unfold optionalSection at h
  unfold sectionTable
  split at h
  · next hk =>
    obtain ⟨rfl, -⟩ := Prod.mk.inj (Except.ok.inj h)
    rw [hk]
    exact hdefault
  · next t hk =>
    rw [hk]
    exact h
  · cases (Prod.mk.inj (Except.ok.inj h)).2

theorem parse_replication_exact {raw : Table} {c : ReplicationConfig}
    (h : parse_replication (getKey raw "replication") = .ok (c, [])) :
    (getKey (sectionTable raw "replication") "mode").getD (.str "off") = .str c.mode ∧
      c.mode ∈ VALID_REPLICATION_MODES ∧
      (getKey (sectionTable raw "replication") "max_lag_seconds").getD (.int 0) =
        .int c.max_lag_seconds ∧
      c.client_path =
        (getKey (sectionTable raw "replication") "client_path").getD (.str "mariadb") := by
  have h := optionalSection_exact rfl h
  dsimp only at h
  obtain ⟨mode, hmode, h⟩ := except_bind_ok h
  obtain ⟨rfl, herrors⟩ := Prod.mk.inj (Except.ok.inj h)
  simp only [List.append_eq_nil_iff] at herrors
  obtain ⟨⟨⟨-, hm⟩, hlag⟩, -⟩ := herrors
  obtain ⟨hexact, hvalid⟩ := choiceField_exact (hmode.trans (congrArg Except.ok (Prod.ext rfl hm)))
  exact ⟨hexact, hvalid, natField_exact (Prod.ext rfl hlag), rfl⟩

theorem parse_transfer_exact {raw : Table} {c : TransferConfig}
    (h : parse_transfer (getKey raw "transfer") = .ok (c, [])) :
    (getKey (sectionTable raw "transfer") "on_destination_failure").getD (.str "continue") =
        .str c.on_destination_failure ∧
      c.on_destination_failure ∈ VALID_ON_DESTINATION_FAILURE ∧
      (getKey (sectionTable raw "transfer") "retries").getD (.int 2) = .int c.retries ∧
      c.rsync_path = (getKey (sectionTable raw "transfer") "rsync_path").getD (.str "rsync") := by
  have h := optionalSection_exact rfl h
  dsimp only at h
  obtain ⟨on_failure, hfailure, h⟩ := except_bind_ok h
  obtain ⟨rfl, herrors⟩ := Prod.mk.inj (Except.ok.inj h)
  simp only [List.append_eq_nil_iff] at herrors
  obtain ⟨⟨-, hm⟩, hretries⟩ := herrors
  obtain ⟨hexact, hvalid⟩ :=
    choiceField_exact (hfailure.trans (congrArg Except.ok (Prod.ext rfl hm)))
  exact ⟨hexact, hvalid, natField_exact (Prod.ext rfl hretries), rfl⟩

theorem parse_retention_exact {raw : Table} {c : RetentionConfig}
    (h : parse_retention (getKey raw "retention") = .ok (c, [])) :
    (getKey (sectionTable raw "retention") "incomplete_grace_hours").getD (.int 24) =
      .int c.incomplete_grace_hours := by
  have h := optionalSection_exact rfl h
  obtain ⟨rfl, herrors⟩ := Prod.mk.inj (Except.ok.inj h)
  exact natField_exact (Prod.ext rfl (List.append_eq_nil_iff.mp herrors).2)

theorem parse_logging_exact {raw : Table} {c : LoggingConfig}
    (h : parse_logging (getKey raw "logging") = .ok (c, [])) :
    c.file = (getKey (sectionTable raw "logging") "file").getD (.str "") := by
  have h := optionalSection_exact rfl h
  dsimp only at h
  obtain ⟨level, -, h⟩ := except_bind_ok h
  obtain ⟨fmt, -, h⟩ := except_bind_ok h
  obtain ⟨rfl, -⟩ := Prod.mk.inj (Except.ok.inj h)
  rfl

/-- The fields of an accepted `[backup]` section that are not those of the run's own files. -/
theorem parse_backup_exact {raw : Table} {c : BackupConfig}
    (h : parse_backup (getKey raw "backup") = (some c, [])) :
    (getKey (sectionTable raw "backup") "timeout_seconds").getD (.int 0) =
        .int c.timeout_seconds ∧
      c.mariabackup_path =
        (getKey (sectionTable raw "backup") "mariabackup_path").getD (.str "mariabackup") ∧
      c.defaults_file = (getKey (sectionTable raw "backup") "defaults_file").getD (.str "") ∧
      c.defaults_extra_file =
        (getKey (sectionTable raw "backup") "defaults_extra_file").getD (.str "") := by
  unfold parse_backup at h
  unfold sectionTable
  dsimp only at h
  split at h
  · cases (Prod.mk.inj h).1
  · next table hk =>
    obtain ⟨hc, herrors⟩ := Prod.mk.inj h
    obtain ⟨work_dir, -, rfl⟩ := Option.map_eq_some_iff.mp hc
    simp only [List.append_eq_nil_iff] at herrors
    rw [hk]
    exact ⟨natField_exact (Prod.ext rfl herrors.1.2), rfl, rfl, rfl⟩
  · cases (Prod.mk.inj h).1

def DestinationType.text : DestinationType → String
  | .local => "local"
  | .ssh => "ssh"

/-- The destination holds what its entry says, and the checked fields are within bounds. -/
structure Describes (table : Table) (d : DestinationConfig) : Prop where
  name : getKey table "name" = some (.str d.name) ∧ d.name ≠ ""
  type : getKey table "type" = some (.str d.type.text)
  path : getKey table "path" = some (.str d.path) ∧ d.path ≠ ""
  keep : getKey table "keep" = some (.int d.keep) ∧ 1 ≤ d.keep
  port : ∃ z : ℤ, (getKey table "port").getD (.int 22) = .int z ∧ d.port = .int z ∧
    1 ≤ z ∧ z ≤ 65535
  bwlimit_kbps : ∃ n : ℕ, (getKey table "bwlimit_kbps").getD (.int 0) = .int n ∧
    d.bwlimit_kbps = .int n
  ssh_options : ∃ opts : List String, (getKey table "ssh_options").getD (.array []) =
    .array (opts.map Toml.str) ∧ d.ssh_options = opts.map Toml.str
  host : d.host = (getKey table "host").getD (.str "")
  user : d.user = (getKey table "user").getD (.str "")
  ssh_key : d.ssh_key = (getKey table "ssh_key").getD (.str "")
  /-- the keys of a remote connection stand in an entry of that type only -/
  ssh_keys : d.type = .local → ∀ key ∈ SSH_KEYS, getKey table key = none

theorem parse_type_text {table : Table} {type : DestinationType}
    (h : parse_type table = some type) : getKey table "type" = some (.str type.text) := by
  unfold parse_type at h
  split at h
  · next hk =>
    obtain rfl := Option.some.inj h
    exact hk
  · next hk =>
    obtain rfl := Option.some.inj h
    exact hk
  · cases h

theorem parse_port_exact {context : String} {port : Toml} (h : (parse_port context port).2 = []) :
    ∃ z : ℤ, port = .int z ∧ (parse_port context port).1 = .int z ∧ 1 ≤ z ∧ z ≤ 65535 := by
  unfold parse_port at h ⊢
  split
  · next z =>
    dsimp only at h
    split_ifs at h with hz
    · exact ⟨z, rfl, by rw [if_pos hz], by omega⟩
  · simp_all

theorem parse_bwlimit_exact {context : String} {bwlimit_kbps : Toml}
    (h : (parse_bwlimit_kbps context bwlimit_kbps).2 = []) :
    ∃ n : ℕ, bwlimit_kbps = .int n ∧ (parse_bwlimit_kbps context bwlimit_kbps).1 = .int n := by
  unfold parse_bwlimit_kbps at h ⊢
  split
  · next z =>
    dsimp only at h
    split_ifs at h with hz
    · obtain ⟨n, rfl⟩ := Int.eq_ofNat_of_zero_le hz
      exact ⟨n, rfl, by rw [if_pos hz]⟩
  · simp_all

theorem map_str_pyStr {items : List Toml} (h : items.all Toml.isStr = true) :
    items = (items.map Toml.pyStr).map Toml.str := by
  induction items with
  | nil => rfl
  | cons x items ih =>
    rw [List.all_cons, Bool.and_eq_true] at h
    cases x with
    | str s => exact congrArg (Toml.str s :: ·) (ih h.2)
    | int | float | bool | datetime | array | table => cases h.1

theorem parse_ssh_options_exact {context : String} {ssh_options : Toml}
    (h : (parse_ssh_options context ssh_options).2 = []) :
    ∃ opts : List String, ssh_options = .array (opts.map Toml.str) ∧
      (parse_ssh_options context ssh_options).1 = ssh_options := by
  unfold parse_ssh_options at h ⊢
  split
  · next opts hopts =>
    cases ssh_options with
    | array items =>
      unfold Toml.strings? at hopts
      dsimp only at hopts
      split_ifs at hopts with hall
      · exact ⟨items.map Toml.pyStr, congrArg Toml.array (map_str_pyStr hall), rfl⟩
    | str | int | float | bool | datetime | table => cases hopts
  · next hnone =>
    rw [hnone] at h
    cases h

theorem not_local_of_ssh_key : ∀ key ∈ SSH_KEYS, key ∉ DestinationType.local.allowed := by decide

/-- An entry without a message is described by the destination made of it. -/
theorem parse_destination_exact {index : ℕ} {table : Toml} {seen_names seen : List String}
    {d : DestinationConfig}
    (h : parse_destination index table seen_names = .ok (some d, seen, [])) :
    ∃ t, table = .table t ∧ Describes t d := by
  unfold parse_destination at h
  cases table with
  | table t =>
    refine ⟨t, rfl, ?_⟩
    dsimp only at h
    cases ht : parse_type t with
    | none =>
      simp only [ht] at h
      obtain ⟨got, -, h⟩ := except_bind_ok h
      cases h
    | some type =>
      simp only [ht] at h
      generalize destContext index = context at h
      split at h
      · next name path keep hname hpath hkeep =>
        obtain ⟨options, hoptions, heq⟩ := except_bind_ok h
        obtain ⟨hd, hrest⟩ := Prod.mk.inj (Except.ok.inj heq)
        obtain ⟨-, herrors⟩ := Prod.mk.inj hrest
        simp only [List.append_eq_nil_iff] at herrors
        obtain ⟨⟨⟨⟨⟨hknown, -⟩, -⟩, -⟩, -⟩, hfields⟩ := herrors
        obtain rfl := Option.some.inj hd
        cases type with
        | ssh =>
          simp only [parse_ssh_fields, List.append_eq_nil_iff] at hfields hoptions
          obtain ⟨⟨-, hport⟩, hopts⟩ := hfields.1
          obtain ⟨z, hz, hz', hbounds⟩ := parse_port_exact hport
          obtain ⟨opts, ho, ho'⟩ := parse_ssh_options_exact hopts
          obtain ⟨n, hn, hn'⟩ := parse_bwlimit_exact hfields.2
          rw [ho', ho] at hoptions
          exact
            { name := require_str_exact hname
              type := parse_type_text ht
              path := require_str_exact hpath
              keep := parse_keep_exact hkeep
              port := ⟨z, hz, hz', hbounds⟩
              bwlimit_kbps := ⟨n, hn, hn'⟩
              ssh_options := ⟨opts, ho, (Except.ok.inj hoptions).symm⟩
              host := rfl
              user := rfl
              ssh_key := rfl
              ssh_keys := nofun }
        | «local» =>
          have habsent : ∀ key ∈ SSH_KEYS, getKey t key = none := by
            intro key hkey
            by_contra hne
            obtain ⟨v, hv⟩ := Option.ne_none_iff_exists'.mp hne
            exact not_local_of_ssh_key key hkey (allowed_of_known hknown hv)
          have hport := habsent "port" (by decide)
          have hopts := habsent "ssh_options" (by decide)
          have hbwlimit := habsent "bwlimit_kbps" (by decide)
          dsimp only at hoptions
          rw [hopts] at hoptions
          exact
            { name := require_str_exact hname
              type := parse_type_text ht
              path := require_str_exact hpath
              keep := parse_keep_exact hkeep
              port := ⟨22, by rw [hport]; rfl, by rw [hport]; rfl, by omega, by omega⟩
              bwlimit_kbps := ⟨0, by rw [hbwlimit]; rfl, by rw [hbwlimit]; rfl⟩
              ssh_options := ⟨[], by rw [hopts]; rfl, (Except.ok.inj hoptions).symm⟩
              host := rfl
              user := rfl
              ssh_key := rfl
              ssh_keys := fun _ => habsent }
      · cases h
  | str | int | float | bool | datetime | array => cases h

theorem parse_destination_list_exact {index : ℕ} {raw_list : List Toml}
    {seen_names : List String} {dests : List DestinationConfig}
    (h : parse_destination_list index raw_list seen_names = .ok (dests, [])) :
    List.Forall₂ (fun table d => ∃ t, table = .table t ∧ Describes t d) raw_list dests := by
  induction raw_list generalizing index seen_names dests with
  | nil =>
    obtain rfl : [] = dests := congrArg Prod.fst (Except.ok.inj h)
    exact .nil
  | cons table raw_list ih =>
    rw [parse_destination_list] at h
    obtain ⟨⟨dest, seen, errors⟩, hd, h⟩ := except_bind_ok h
    obtain ⟨⟨rest, errors'⟩, hl, h⟩ := except_bind_ok h
    obtain ⟨hdests, herrors⟩ := Prod.mk.inj (Except.ok.inj h)
    obtain ⟨rfl, rfl⟩ := List.append_eq_nil_iff.mp herrors
    obtain ⟨d, rfl, -⟩ := parse_destination_ok hd
    subst hdests
    exact .cons (parse_destination_exact hd) (ih hl)

theorem parse_destinations_exact {raw_list : Option Toml} {dests : List DestinationConfig}
    (h : parse_destinations raw_list = .ok (dests, [])) :
    ∃ tables, raw_list = some (.array tables) ∧
      List.Forall₂ (fun table d => ∃ t, table = .table t ∧ Describes t d) tables dests := by
  unfold parse_destinations at h
  split at h
  · cases (Prod.mk.inj (Except.ok.inj h)).2
  · cases (Prod.mk.inj (Except.ok.inj h)).2
  · next tables _ => exact ⟨tables, rfl, parse_destination_list_exact h⟩
  · cases (Prod.mk.inj (Except.ok.inj h)).2

/-- The destinations are the entries of the document, and the checked numbers and choices are
those of the document. -/
structure Carries (raw : Table) (config : Config) : Prop where
  nonempty : config.destinations ≠ []
  entries : ∃ tables, getKey raw "destinations" = some (.array tables) ∧
    List.Forall₂ (fun table d => ∃ t, table = .table t ∧ Describes t d) tables config.destinations
  names : (config.destinations.map (·.name)).Nodup
  retries : (getKey (sectionTable raw "transfer") "retries").getD (.int 2) =
    .int config.transfer.retries
  on_failure :
    (getKey (sectionTable raw "transfer") "on_destination_failure").getD (.str "continue") =
      .str config.transfer.on_destination_failure ∧
    config.transfer.on_destination_failure ∈ VALID_ON_DESTINATION_FAILURE
  grace : (getKey (sectionTable raw "retention") "incomplete_grace_hours").getD (.int 24) =
    .int config.retention.incomplete_grace_hours
  timeout : (getKey (sectionTable raw "backup") "timeout_seconds").getD (.int 0) =
    .int config.backup.timeout_seconds
  max_lag : (getKey (sectionTable raw "replication") "max_lag_seconds").getD (.int 0) =
    .int config.replication.max_lag_seconds
  mode : (getKey (sectionTable raw "replication") "mode").getD (.str "off") =
      .str config.replication.mode ∧ config.replication.mode ∈ VALID_REPLICATION_MODES

/-- Every destination is described by an entry. -/
theorem Carries.described {raw : Table} {config : Config} (h : Carries raw config)
    {d : DestinationConfig} (hd : d ∈ config.destinations) : ∃ t, Describes t d := by
  obtain ⟨tables, -, hentries⟩ := h.entries
  clear h
  generalize config.destinations = dests at hd hentries
  induction hentries with
  | nil => cases hd
  | cons hfirst _ ih =>
    rcases List.mem_cons.mp hd with rfl | hd
    · obtain ⟨t, -, ht⟩ := hfirst
      exact ⟨t, ht⟩
    · exact ih hd

theorem parse_config_carries {raw : Table} {config : Config} (h : parse_config raw = .ok config) :
    Carries raw config := by
  have parts := parse_config_parts h
  obtain ⟨hne, hnames, -⟩ := parse_destinations_ok parts.destinations
  obtain ⟨hmode, hmodes, hlag, -⟩ := parse_replication_exact parts.replication
  obtain ⟨hfailure, hfailures, hretries, -⟩ := parse_transfer_exact parts.transfer
  exact
    { nonempty := hne
      entries := parse_destinations_exact parts.destinations
      names := hnames
      retries := hretries
      on_failure := ⟨hfailure, hfailures⟩
      grace := parse_retention_exact parts.retention
      timeout := (parse_backup_exact parts.backup).1
      max_lag := hlag
      mode := ⟨hmode, hmodes⟩ }

section

variable {site : Site} {config : Config}

/-- A store that returned was one of a configured destination. -/
def Event.Known (config : Config) (e : Event) : Prop :=
  ∀ d, e = .returned (.store d) → d ∈ config.destinations

theorem Event.On.known {C : Call → Prop} {e : Event} (he : e.On C)
    (hC : ∀ d, C (.store d) → d ∈ config.destinations) : e.Known config := by
  rintro d rfl
  exact hC d he

theorem perform_known {α : Type} {c : Call} (hc : ∀ d, c ≠ .store d) (m : Io α) :
    Moves (Adds (Event.Known config)) (perform c m) :=
  (perform_adds c m).mono (fun _ _ h => h.mono (fun _ he =>
    he.known (fun d hd => absurd hd.symm (hc d))))

theorem settle_known (target_dir : Path) (backup_id : String) (now : Datetime)
    (outcomes : List DestinationOutcome) :
    Moves (Adds (Event.Known config)) (settle site config target_dir backup_id now outcomes) := by
  refine Moves.bind (perform_known (by simp) _) (fun _ => ?_)
  refine Moves.bind (perform_known (by simp) _) (fun _ => ?_)
  refine Moves.bind ((purge_stored_adds backup_id _).mono (fun _ _ h => h.mono (fun _ he =>
    he.known ?_))) (fun _ => ?_)
  · rintro d ⟨o, -, d', -, hd⟩
    exact hd.elim
  · exact Moves.bind (perform_known (by simp) _) (fun _ => Moves.pure _)

theorem place_known (target_dir : Path) (backup_id server_version : String)
    (now started_at : Datetime) : Moves (Adds (Event.Known config))
      (place site config target_dir backup_id server_version now started_at) := by
  refine Moves.bind (Adds.lift _) (fun _ => ?_)
  refine Moves.bind (perform_known (by simp) _) (fun _ => ?_)
  refine Moves.bind (perform_known (by simp) _) (fun _ => ?_)
  refine Moves.bind ((store_to_destinations_adds target_dir backup_id _).mono (fun _ _ h =>
    h.mono (fun _ he => he.known ?_))) (fun outcomes => ?_)
  · rintro d ⟨d', hd', heq⟩
    obtain rfl := Call.store.inj heq
    exact hd'
  · exact Moves.ite (Moves.bind (perform_known (by simp) _) (fun _ => Moves.pure _))
      (settle_known target_dir backup_id now outcomes)

theorem run_known (now : Option Datetime) :
    Moves (Adds (Event.Known config)) (run site config now) := by
  refine Moves.bind (now_or_adds now) (fun _ => ?_)
  refine Moves.bind (perform_known (by simp) _) (fun _ => ?_)
  refine Moves.bind (perform_known (by simp) _) (fun backup_id => ?_)
  refine Moves.bind ((prepare_run_adds backup_id).mono (fun _ _ h => h.mono (fun _ he =>
    he.known (fun d hd => hd.elim)))) (fun _ => ?_)
  refine Moves.bind (Adds.lift _) (fun _ => ?_)
  refine Moves.bind ((phases_adds _).mono (fun _ _ h => h.mono ?_)) (fun failure => ?_)
  · rintro _ (he | ⟨p, t, code, stderr, rfl⟩)
    · exact he.known (fun d ⟨p, hp⟩ => by cases hp)
    · intro d hd
      cases hd
  · cases failure with
    | some message => exact Moves.bind (perform_known (by simp) _) (fun _ => Moves.pure _)
    | none => exact place_known _ _ _ _ _

/-- The purges of a run go to the destinations that stored its generation. -/
structure LooksUp (site : Site) (config : Config) (now : Option Datetime) (w : World) : Prop where
  /-- whatever became of the run, the name of a destination that stored leads back to it -/
  named : ∀ d, .returned (.store d) ∈ (exec (run site config now) ⟨w, []⟩).2.trace →
    destination_named config (Trial.outcome ⟨d, none⟩).name = .ok d
  /-- only those are listed -/
  listed : ∀ d, .call (.list d) ∈ (exec (run site config now) ⟨w, []⟩).2.trace →
    .returned (.store d) ∈ (exec (run site config now) ⟨w, []⟩).2.trace
  /-- a run that ended has an outcome for each store, and listed each that succeeded once -/
  ended : ∀ summary s', exec (run site config now) ⟨w, []⟩ = (.ok summary, s') →
    summary.exit_code ≠ .BACKUP_FAILED →
    List.Forall₂ (fun o t => o = Trial.outcome t ∧ destination_named config o.name = .ok t.dest)
        summary.destination_outcomes (storeTrials s'.trace) ∧
      listCalls s'.trace = ((storeTrials s'.trace).filter (·.error.isNone)).map (·.dest)

theorem run_looks_up (haccepted : config.Accepted) (now : Option Datetime) (w : World) :
    LooksUp site config now w := by
  refine ⟨fun d hd => ?_, fun d hd => ?_, fun summary s' h hpast => ?_⟩
  · obtain ⟨new, htrace, hnew⟩ := @run_known site config now ⟨w, []⟩
    rw [htrace, List.nil_append] at hd
    exact destination_named_of_mem haccepted.names (hnew _ hd d rfl)
  · obtain ⟨before, after, htrace⟩ := List.append_of_mem hd
    have hjustified := run_ordered haccepted now w before _ after htrace
    rw [htrace]
    exact List.mem_append_left _ hjustified.2.1.returned
  · have hplaced := run_placed haccepted.some_destination haccepted.names h hpast
    refine ⟨?_, hplaced.purged⟩
    rw [hplaced.outcomes, List.forall₂_map_left_iff]
    refine List.forall₂_same.mpr (fun t ht => ⟨rfl, ?_⟩)
    exact destination_named_of_mem haccepted.names
      (hplaced.attempted.dests_prefix.subset (List.mem_map_of_mem ht))

/-- No destination is dropped or altered by validation, and in any run the outcome of a store is
traced back to the destination that stored. -/
theorem nothing_dropped {raw : Table} (h : parse_config raw = .ok config) :
    Carries raw config ∧ ∀ site now w, LooksUp site config now w :=
  ⟨parse_config_carries h, fun _ now w => run_looks_up (parse_config_accepted h) now w⟩

end

/-- A local and a remote destination; the three values are those no check looks at closely. -/
def remoteTable (schema_version mariabackup_path host : Toml) : Table :=
  [("schema_version", schema_version),
    ("backup", .table [("work_dir", .str "/w"), ("mariabackup_path", mariabackup_path)]),
    ("transfer", .table [("retries", .int 0)]),
    ("destinations", .array [
      .table [("name", .str "disk"), ("type", .str "local"), ("path", .str "/b"), ("keep", .int 3)],
      .table [("name", .str "remote"), ("type", .str "ssh"), ("path", .str "/backups"),
        ("keep", .int 14), ("host", host), ("user", .str "backup"), ("ssh_key", .str "/key"),
        ("port", .int 2222), ("ssh_options", .array [.str "-v"])]])]

/-- What `remoteTable` is parsed to. -/
def remoteConfig (schema_version mariabackup_path host : Toml) : Config where
  schema_version := schema_version
  backup := ⟨PurePath.parse "/w", "full", mariabackup_path, .str "", .str "", [], true, 0⟩
  destinations := [
    ⟨"disk", .local, 3, "/b", .str "", .int 22, .str "", .str "", [], .int 0⟩,
    ⟨"remote", .ssh, 14, "/backups", host, .int 2222, .str "backup", .str "/key", [.str "-v"],
      .int 0⟩]
  replication := .default
  transfer := ⟨"continue", 0, .str "rsync"⟩
  retention := .default
  logging := .default
  lock := .default
  hooks := .default

theorem nothing_dropped_remote :
    Carries (remoteTable (.int 1) (.str "mariabackup") (.str "db"))
        (remoteConfig (.int 1) (.str "mariabackup") (.str "db")) ∧
      LooksUp (MbKeeper.site [] smallNodes)
        (remoteConfig (.int 1) (.str "mariabackup") (.str "db")) none backupWorld := by
  have h : parse_config (remoteTable (.int 1) (.str "mariabackup") (.str "db")) =
      .ok (remoteConfig (.int 1) (.str "mariabackup") (.str "db")) := rfl
  exact ⟨(nothing_dropped h).1, (nothing_dropped h).2 _ _ _⟩

/-- Every field has a value of the type it is declared with. -/
structure DestinationConfig.WellTyped (d : DestinationConfig) : Prop where
  host : d.host.isStr = true
  port : ∃ z, d.port = .int z
  user : d.user.isStr = true
  ssh_key : d.ssh_key.isStr = true
  ssh_options : ∀ o ∈ d.ssh_options, o.isStr = true
  bwlimit_kbps : ∃ z, d.bwlimit_kbps = .int z

structure Config.WellTyped (config : Config) : Prop where
  schema_version : ∃ z, config.schema_version = .int z
  mariabackup_path : config.backup.mariabackup_path.isStr = true
  defaults_file : config.backup.defaults_file.isStr = true
  defaults_extra_file : config.backup.defaults_extra_file.isStr = true
  client_path : config.replication.client_path.isStr = true
  rsync_path : config.transfer.rsync_path.isStr = true
  file : config.logging.file.isStr = true
  destinations : ∀ d ∈ config.destinations, d.WellTyped

/-- The key is missing or holds a text. -/
def TextOrAbsent (table : Table) (key : String) : Prop :=
  ∀ v, getKey table key = some v → v.isStr = true

/-- The document has the right type where no check looks. -/
structure PlainTexts (raw : Table) : Prop where
  schema_version : ∃ z, getKey raw "schema_version" = some (.int z)
  mariabackup_path : TextOrAbsent (sectionTable raw "backup") "mariabackup_path"
  defaults_file : TextOrAbsent (sectionTable raw "backup") "defaults_file"
  defaults_extra_file : TextOrAbsent (sectionTable raw "backup") "defaults_extra_file"
  client_path : TextOrAbsent (sectionTable raw "replication") "client_path"
  rsync_path : TextOrAbsent (sectionTable raw "transfer") "rsync_path"
  file : TextOrAbsent (sectionTable raw "logging") "file"
  destinations : ∀ tables, getKey raw "destinations" = some (.array tables) →
    ∀ t, .table t ∈ tables → ∀ key ∈ ["host", "user", "ssh_key"], TextOrAbsent t key

theorem textOrAbsent_iff {table : Table} {key default : String} {v : Toml}
    (h : v = (getKey table key).getD (.str default)) :
    v.isStr = true ↔ TextOrAbsent table key := by
  subst h
  unfold TextOrAbsent
  cases getKey table key with
  | none => simp [Toml.isStr]
  | some v => simp

theorem Describes.wellTyped_iff {table : Table} {d : DestinationConfig} (h : Describes table d) :
    d.WellTyped ↔ ∀ key ∈ ["host", "user", "ssh_key"], TextOrAbsent table key := by
  have hhost := textOrAbsent_iff h.host
  have huser := textOrAbsent_iff h.user
  have hssh_key := textOrAbsent_iff h.ssh_key
  simp only [List.forall_mem_cons, List.not_mem_nil, false_implies, implies_true, and_true]
  rw [← hhost, ← huser, ← hssh_key]
  constructor
  · intro hd
    exact ⟨hd.host, hd.user, hd.ssh_key⟩
  · rintro ⟨h₁, h₂, h₃⟩
    obtain ⟨z, -, hz, -⟩ := h.port
    obtain ⟨n, -, hn⟩ := h.bwlimit_kbps
    obtain ⟨opts, -, hopts⟩ := h.ssh_options
    refine ⟨h₁, ⟨z, hz⟩, h₂, h₃, fun o ho => ?_, ⟨n, hn⟩⟩
    rw [hopts] at ho
    obtain ⟨s, -, rfl⟩ := List.mem_map.mp ho
    rfl

/-- An accepted configuration is well typed exactly when the document is, at the keys that are
read without a check. -/
theorem well_typed_iff {raw : Table} {config : Config} (h : parse_config raw = .ok config) :
    config.WellTyped ↔ PlainTexts raw := by
  have parts := parse_config_parts h
  obtain ⟨-, hmariabackup, hdefaults, hextra⟩ := parse_backup_exact parts.backup
  obtain ⟨-, -, -, hclient⟩ := parse_replication_exact parts.replication
  obtain ⟨-, -, -, hrsync⟩ := parse_transfer_exact parts.transfer
  have hfile := parse_logging_exact parts.logging
  obtain ⟨tables, htables, hentries⟩ := parse_destinations_exact parts.destinations
  have hdests : (∀ d ∈ config.destinations, d.WellTyped) ↔ ∀ t, .table t ∈ tables →
      ∀ key ∈ ["host", "user", "ssh_key"], TextOrAbsent t key := by
    clear htables
    generalize config.destinations = dests at hentries
    induction hentries with
    | nil => simp
    | cons hd _ ih =>
      obtain ⟨t, rfl, hd⟩ := hd
      rw [List.forall_mem_cons, hd.wellTyped_iff, ih]
      simp only [List.mem_cons, Toml.table.injEq]
      constructor
      · rintro ⟨hfirst, hrest⟩ t' (rfl | ht')
        · exact hfirst
        · exact hrest t' ht'
      · intro hall
        exact ⟨hall t (.inl rfl), fun t' ht' => hall t' (.inr ht')⟩
  constructor
  · intro hw
    exact
      { schema_version := hw.schema_version.imp (fun z hz => by rw [parts.schema_version, hz])
        mariabackup_path := (textOrAbsent_iff hmariabackup).mp hw.mariabackup_path
        defaults_file := (textOrAbsent_iff hdefaults).mp hw.defaults_file
        defaults_extra_file := (textOrAbsent_iff hextra).mp hw.defaults_extra_file
        client_path := (textOrAbsent_iff hclient).mp hw.client_path
        rsync_path := (textOrAbsent_iff hrsync).mp hw.rsync_path
        file := (textOrAbsent_iff hfile).mp hw.file
        destinations := fun tables' h' t ht => by
          obtain rfl := Toml.array.inj (Option.some.inj (htables.symm.trans h'))
          exact hdests.mp hw.destinations t ht }
  · intro hp
    exact
      { schema_version := hp.schema_version.imp (fun z hz =>
          Option.some.inj (parts.schema_version.symm.trans hz))
        mariabackup_path := (textOrAbsent_iff hmariabackup).mpr hp.mariabackup_path
        defaults_file := (textOrAbsent_iff hdefaults).mpr hp.defaults_file
        defaults_extra_file := (textOrAbsent_iff hextra).mpr hp.defaults_extra_file
        client_path := (textOrAbsent_iff hclient).mpr hp.client_path
        rsync_path := (textOrAbsent_iff hrsync).mpr hp.rsync_path
        file := (textOrAbsent_iff hfile).mpr hp.file
        destinations := hdests.mpr (hp.destinations tables htables) }

theorem well_typed_remote :
    (remoteConfig (.int 1) (.str "mariabackup") (.str "db")).WellTyped := by
  have h : parse_config (remoteTable (.int 1) (.str "mariabackup") (.str "db")) =
      .ok (remoteConfig (.int 1) (.str "mariabackup") (.str "db")) := rfl
  refine (well_typed_iff h).mpr ⟨⟨1, rfl⟩, ?_, nofun, nofun, nofun, nofun, nofun, ?_⟩
  · intro v hv
    obtain rfl := Option.some.inj hv
    rfl
  · intro tables htables t ht key hkey v hv
    obtain rfl := Toml.array.inj (Option.some.inj htables)
    simp only [List.mem_cons, Toml.table.injEq, List.not_mem_nil, or_false] at ht hkey
    obtain rfl | rfl := ht <;> obtain rfl | rfl | rfl := hkey <;> cases hv <;> rfl

/-- A number for a path, a list for a host and a truth value for the version are accepted. -/
theorem accepted_ill_typed :
    parse_config (remoteTable (.bool true) (.int 5) (.array [.str "db"])) =
        .ok (remoteConfig (.bool true) (.int 5) (.array [.str "db"])) ∧
      ¬ (remoteConfig (.bool true) (.int 5) (.array [.str "db"])).WellTyped := by
  refine ⟨rfl, fun h => ?_⟩
  cases h.mariabackup_path

end MbKeeper
