import MbKeeper.Markers

/-!
# Retention over the history of an ssh destination

`RemoteHistory` is any sequence of stores with rising ids and of purges, each
command of which may be lost before or after its effect. `Retained` is the
invariant: what lies in the directory are committed generations and the
building directories of ids that were never committed, and the newest `keep`
that were committed are as they were committed. The list script counts a
building directory that holds the manifest as a complete generation, so a purge
keeps to the newest only when these do not outrank them.
-/
namespace MbKeeper

namespace SSHDestination

variable {d : SSHDestination} {P S : Loc} {x : Name} {src : Path} {w w' : World}

/-- The names of the directories that the script finds a manifest in. -/
def markedIds (t : Fs) (P : Loc) : Finset String :=
  (((globbed t P).filter (fun x => t.isFile (P ++ [x] ++ [META_FILENAME]))).map (·.val)).toFinset

theorem mem_markedIds {t : Fs} {s : String} : s ∈ markedIds t P ↔ ∃ x ∈ globbed t P, x.val = s ∧
    t.isFile (P ++ [x] ++ [META_FILENAME]) = true := by
  simp only [markedIds, List.mem_toFinset, List.mem_map, List.mem_filter]
  constructor
  · rintro ⟨x, ⟨hx, hfile⟩, rfl⟩
    exact ⟨x, hx, rfl, hfile⟩
  · rintro ⟨x, hx, rfl, hfile⟩
    exact ⟨x, ⟨hx, hfile⟩, rfl⟩

/-- What the script says of a directory with the manifest, and of one without. -/
theorem reported_marked {shell : Shell} {t : Fs} {b : StoredBackup}
    (h : reported shell t P x = some b) :
    (b.complete = true ∧ b.backup_id = x.val ∧ t.isFile (P ++ [x] ++ [META_FILENAME]) = true) ∨
      (b.complete = false ∧ stripSuffix PARTIAL_SUFFIX x.val = some b.backup_id) := by
  obtain ⟨c, hc, rfl⟩ := Option.map_eq_some_iff.mp h
  rw [classified] at hc
  split_ifs at hc with hfile
  · obtain rfl := Option.some.inj hc
    exact .inl ⟨rfl, rfl, hfile⟩
  · obtain ⟨backup_id, hs, rfl⟩ := Option.map_eq_some_iff.mp hc
    exact .inr ⟨rfl, hs⟩

theorem completeIds_reported (shell : Shell) (t : Fs) (P : Loc) :
    completeIds ((globbed t P).filterMap (reported shell t P)) = markedIds t P := by
  ext s
  rw [mem_completeIds, mem_markedIds]
  constructor
  · rintro ⟨b, hb, hc, rfl⟩
    obtain ⟨x, hx, hr⟩ := List.mem_filterMap.mp hb
    obtain ⟨hid, hfile⟩ := complete_reported hr hc
    exact ⟨x, hx, hid, hfile⟩
  · rintro ⟨x, hx, rfl, hfile⟩
    have hr : reported shell t P x =
        some ⟨x.val, true, Datetime.utc (reading shell t P x * 1000000)⟩ := by
      rw [reported, classified, if_pos hfile]
      rfl
    exact ⟨_, List.mem_filterMap.mpr ⟨x, hx, hr⟩, rfl, rfl⟩

theorem globbed_nodup (t : Fs) (P : Loc) : (globbed t P).Nodup := by
  rw [globbed, (List.perm_insertionSort _ _).nodup_iff]
  exact ((FileTree.children_nodup t P).filter _).filter _

/-- No name is listed as complete twice. -/
theorem nodup_complete_reported (shell : Shell) (t : Fs) (P : Loc) :
    ((((globbed t P).filterMap (reported shell t P)).filter (·.complete)).map
      (·.backup_id)).Nodup := by
  rw [List.Nodup, List.pairwise_map, List.pairwise_filter, List.pairwise_filterMap]
  refine (globbed_nodup t P).imp (fun hxy b hb b' hb' hbc hbc' he => hxy (Subtype.ext ?_))
  rw [(complete_reported hb hbc).1, (complete_reported hb' hbc').1]
  exact he

section

variable (cwd : Loc) (nodes : String → RemoteNode) (config : Config) (dest : DestinationConfig)

/-- The backend of the destination. -/
def remoteOf : SSHDestination := from_config nodes dest config.transfer

/-- The worlds reached from an empty remote directory, each with the last id stored. The ids have
`Id` and rise, and a purge begins in a world with `Fair`; what happens in between happens
elsewhere. -/
inductive RemoteHistory (P : Loc) (Id : Name → Prop) (Fair : World → Prop) :
    World → Option Name → Prop where
  | start {w : World}
      (hempty : ∀ q, P <+: q → q ≠ P →
        (w.tree (some (remoteOf nodes config dest).host)).kind q = none)
      (hnone : committed (some (remoteOf nodes config dest).host) P w = []) :
      RemoteHistory P Id Fair w none
  | store {w : World} {last : Option Name} (h : RemoteHistory P Id Fair w last) {x : Name}
      (hx : Id x) (hlater : ∀ l, last = some l → l.val < x.val) {S : Loc} {src : Path}
      (hsrc : src.At S) :
      RemoteHistory P Id Fair (exec ((remoteOf nodes config dest).store src x.val) w).2 (some x)
  | purge {s : Pipe} {last : Option Name} (h : RemoteHistory P Id Fair s.world last)
      (hfair : Fair s.world) (now : Datetime) (in_progress_id : Option String) :
      RemoteHistory P Id Fair (exec (purge_one_destination (site cwd nodes) config dest now false
        in_progress_id) s).2.world last
  | elsewhere {w w' : World} {last : Option Name} (h : RemoteHistory P Id Fair w last)
      (hkind : ∀ q, P <+: q → (w'.tree (some (remoteOf nodes config dest).host)).kind q =
        (w.tree (some (remoteOf nodes config dest).host)).kind q)
      (hcommits : committed (some (remoteOf nodes config dest).host) P w' =
        committed (some (remoteOf nodes config dest).host) P w)
      (hsub : w.commits ⊆ w'.commits) : RemoteHistory P Id Fair w' last

end

/-- A generation is where it was committed, as it was committed. -/
def Standing (h : String) (P : Loc) (w : World) (x : Name) : Prop :=
  ∃ content, ⟨some h, P ++ [x], content⟩ ∈ w.commits ∧ content [] = some .dir ∧
    ∀ r, (w.tree (some h)).kind (P ++ [x] ++ r) = content r

structure Retained (h : String) (keep : ℕ) (P : Loc) (last : Option Name) (w : World) : Prop where
  entries : ∀ y r, (w.tree (some h)).kind (P ++ [y] ++ r) ≠ none →
    y ∈ committed (some h) P w ∨
      ∃ x, PlainId x ∧ x ∉ committed (some h) P w ∧ y = partialName x
  plain : ∀ x ∈ committed (some h) P w, PlainId x
  bound : ∀ x ∈ committed (some h) P w, ∃ l, last = some l ∧ x.val ≤ l.val
  ascending : (committed (some h) P w).Pairwise (fun x y => x.val < y.val)
  whole : ∀ x ∈ committed (some h) P w, x.val ∈ newest keep (committedIds (some h) P w) →
    Standing h P w x

/-- What the tool adds to a prefix means nothing to the shell. -/
theorem literal_stamp (i : Instant) : Literal ("-" ++ String.ofList (stamp i)) := by
  refine literal_append.mpr ⟨by decide, fun c hc => ?_⟩
  rw [String.toList_ofList] at hc
  rcases mem_stamp hc with rfl | rfl | hdigit
  · decide
  · decide
  · simp only [isLive, decide_eq_false_iff_not]
    rintro (rfl | rfl | rfl | htick)
    · exact absurd hdigit (by decide)
    · exact absurd hdigit (by decide)
    · exact absurd hdigit (by decide)
    · omega

theorem plainId_of_generated {pre : String} {now : Datetime} (hfield : OneField pre.toList)
    (hpre : Literal pre) (h : generate_backup_id pre now = .ok x.val) : PlainId x := by
  obtain ⟨tail, hid, htail⟩ := generate_backup_id_tail h
  obtain ⟨i, -, -, hstamp⟩ := generate_backup_id_eq_ok.mp h
  refine ⟨?_, ?_, ?_⟩
  · exact stripSuffix_of_last_ne (generate_backup_id_getLast? h) (d := 'l') (by decide) (by decide)
  · rw [hstamp]
    exact literal_append.mpr ⟨hpre, literal_stamp i⟩
  · rw [hid]
    exact oneField_append.mpr ⟨hfield, htail.field⟩

/-- Of the newest `keep` generations, those that hold the manifest are among the first `keep` of
the names that the script counts. -/
def Ranked (h : String) (keep : ℕ) (P : Loc) (w : World) : Prop :=
  ∀ s ∈ newest keep (committedIds (some h) P w), s ∈ markedIds (w.tree (some h)) P →
    above (markedIds (w.tree (some h)) P) s < keep

namespace Retained

variable {h : String} {keep : ℕ} {last : Option Name}

theorem congr (hk : Retained h keep P last w)
    (hkind : ∀ y r, (w'.tree (some h)).kind (P ++ [y] ++ r) =
      (w.tree (some h)).kind (P ++ [y] ++ r))
    (hcommitted : committed (some h) P w' = committed (some h) P w)
    (hsub : w.commits ⊆ w'.commits) : Retained h keep P last w' := by
  refine ⟨fun y r hy => ?_, fun x hx => hk.plain x (hcommitted ▸ hx),
    fun x hx => hk.bound x (hcommitted ▸ hx), ?_, fun x hx hnew => ?_⟩
  · rw [hkind] at hy
    rw [hcommitted]
    exact hk.entries y r hy
  · rw [hcommitted]
    exact hk.ascending
  · rw [committedIds, hcommitted] at hnew
    obtain ⟨content, hc, hdir, hr⟩ := hk.whole x (hcommitted ▸ hx) hnew
    exact ⟨content, hsub hc, hdir, fun r => by rw [hkind, hr]⟩

theorem start (hempty : ∀ q, P <+: q → q ≠ P → (w.tree (some h)).kind q = none)
    (hnone : committed (some h) P w = []) : Retained h keep P none w where
  entries y r hy := absurd (hempty _ ⟨[y] ++ r, by simp⟩ (by simp)) hy
  plain x hx := by simp [hnone] at hx
  bound x hx := by simp [hnone] at hx
  ascending := by simp [hnone]
  whole x hx := by simp [hnone] at hx

/-- While a store is building, nothing but the directory of its own id changes. -/
theorem building (hk : Retained h keep P last w) (hx : PlainId x)
    (hlater : ∀ l, last = some l → l.val < x.val)
    (hb : Confined (SSHDestination.building h P x) w w') : Retained h keep P (some x) w' := by
  have hcommitted := committed_congr (h := some h) (P := P) hb.commits
  have hxw : x ∉ committed (some h) P w := by
    intro hmem
    obtain ⟨l, hl, hle⟩ := hk.bound x hmem
    exact absurd (hlater l hl) (not_lt.mpr hle)
  have hkind : ∀ y r, y ≠ partialName x → (w'.tree (some h)).kind (P ++ [y] ++ r) =
      (w.tree (some h)).kind (P ++ [y] ++ r) := fun y r hy =>
    hb.kind _ _ (other_notMem_building hy r)
  refine ⟨fun y r hy => ?_, fun y hy => hk.plain y (hcommitted ▸ hy), fun y hy => ?_, ?_,
    fun y hy hnew => ?_⟩
  · rw [hcommitted]
    by_cases hyx : y = partialName x
    · exact .inr ⟨x, hx, hxw, hyx⟩
    · rw [hkind y r hyx] at hy
      exact hk.entries y r hy
  · obtain ⟨l, hl, hle⟩ := hk.bound y (hcommitted ▸ hy)
    exact ⟨x, rfl, hle.trans (hlater l hl).le⟩
  · rw [hcommitted]
    exact hk.ascending
  · rw [committedIds, hcommitted] at hnew
    rw [hcommitted] at hy
    obtain ⟨content, hc, hdir, hr⟩ := hk.whole y hy hnew
    exact ⟨content, hb.commits ▸ hc, hdir, fun r => by
      rw [hkind y r (plain_ne_partialName (hk.plain y hy).plain), hr]⟩

/-- Nothing has the name of an id that is yet to come. -/
theorem free (hk : Retained h keep P last w) (hx : PlainId x)
    (hlater : ∀ l, last = some l → l.val < x.val) (r : Loc) :
    (w.tree (some h)).kind (P ++ [x] ++ r) = none := by
  by_contra hne
  rcases hk.entries x r hne with hmem | ⟨y, -, -, hy⟩
  · obtain ⟨l, hl, hle⟩ := hk.bound x hmem
    exact absurd (hlater l hl) (not_lt.mpr hle)
  · exact plain_ne_partialName hx.plain hy

/-- The `mv` takes the new id from its building directory to its place. -/
theorem commit (hk : Retained h keep P last w) (hx : PlainId x)
    (hlater : ∀ l, last = some l → l.val < x.val) {u : World}
    (hb : Confined (SSHDestination.building h P x) w u) (ht : Takes h P x u w') :
    Retained h keep P (some x) w' := by
  have hu := hk.building hx hlater hb
  have hcu := committed_congr (h := some h) (P := P) hb.commits
  have hcommitted := committed_append ht.commits
  have hnew : ∀ y ∈ committed (some h) P u, y.val < x.val := by
    intro y hy
    obtain ⟨l, hl, hle⟩ := hk.bound y (hcu ▸ hy)
    exact hle.trans_lt (hlater l hl)
  refine ⟨fun y r hy => ?_, fun y hy => ?_, fun y hy => ?_, ?_, fun y hy hnewest => ?_⟩
  · rw [hcommitted]
    by_cases hyx : y = x
    · exact .inl (by simp [hyx])
    · by_cases hyp : y = partialName x
      · -- what was built has moved away
        rw [hyp, ht.kind_partial] at hy
        exact absurd rfl hy
      · rw [ht.kind_other hyx hyp] at hy
        rcases hu.entries y r hy with hmem | ⟨z, hz, hzu, rfl⟩
        · exact .inl (List.mem_append_left _ hmem)
        · refine .inr ⟨z, hz, fun hmem => ?_, rfl⟩
          rcases List.mem_append.mp hmem with hmem | hmem
          · exact hzu hmem
          · exact hyp (by rw [List.mem_singleton.mp hmem])
  · rw [hcommitted] at hy
    rcases List.mem_append.mp hy with hy | hy
    · exact hu.plain y hy
    · rwa [List.mem_singleton.mp hy]
  · rw [hcommitted] at hy
    rcases List.mem_append.mp hy with hy | hy
    · exact ⟨x, rfl, (hnew y hy).le⟩
    · exact ⟨x, rfl, by rw [List.mem_singleton.mp hy]⟩
  · rw [hcommitted]
    refine List.pairwise_append.mpr ⟨hu.ascending, List.pairwise_singleton _ _, fun y hy z hz => ?_⟩
    rw [List.mem_singleton.mp hz]
    exact hnew y hy
  · rw [hcommitted] at hy
    by_cases hyx : y = x
    · subst hyx
      refine ⟨fun l => (u.tree (some h)).kind (P ++ [partialName y] ++ l), by rw [ht.commits]; simp,
        ?_, fun r => ht.kind_final r⟩
      simpa using ht.built
    · have hyu : y ∈ committed (some h) P u :=
        (List.mem_append.mp hy).resolve_right (by simpa using hyx)
      have hids : committedIds (some h) P w' = insert x.val (committedIds (some h) P u) := by
        ext z
        simp [committedIds, hcommitted]
      rw [hids] at hnewest
      have hmem := (Finset.mem_insert.mp (newest_insert_subset hnewest)).resolve_left
        (fun he => hyx (Subtype.ext he))
      obtain ⟨content, hcont, hdir, hr⟩ := hu.whole y hyu hmem
      refine ⟨content, ?_, hdir, fun r => ?_⟩
      · rw [ht.commits]
        exact List.mem_append_left _ hcont
      · rw [ht.kind_other hyx (plain_ne_partialName (hu.plain y hyu).plain), hr]

theorem store (ha : d.Addresses P x) (hk : Retained d.host keep P last w) (hx : PlainId x)
    (hlater : ∀ l, last = some l → l.val < x.val) (hS : src.At S) :
    Retained d.host keep P (some x) (exec (d.store src x.val) w).2 := by
  rcases store_cases ha src (Prod.eta (exec (d.store src x.val) w)).symm with
    ⟨hsame, -⟩ | ⟨v, hv, htransfer, -⟩
  · exact hk.building hx hlater (hsame.confined _)
  · rcases transfer_cases ha hS htransfer with ⟨hc, -⟩ | ⟨u, hc, htakes | hnests, -⟩
    · exact hk.building hx hlater (trans_of _ (hv.confined _) hc)
    · exact hk.commit hx hlater (trans_of _ (hv.confined _) hc) htakes
    · -- there is no directory of the new name to nest in
      have hcu := trans_of (Confined (SSHDestination.building d.host P x)) (hv.confined _) hc
      have htaken := hnests.taken
      have hnone := hk.free hx hlater []
      rw [← hcu.kind _ _ (other_notMem_building (partialName_ne x).symm []),
        List.append_nil] at hnone
      rw [FileTree.isDir, hnone] at htaken
      cases htaken

/-- The spots of the names outside the newest. -/
def Condemned (h : String) (keep : ℕ) (P : Loc) (w : World) : Set Spot :=
  {q | ∃ z : Name, z.val ∉ newest keep (committedIds (some h) P w) ∧ q ∈ spots h P z}

theorem removes (hk : Retained h keep P last w) (hr : Removes (Condemned h keep P w) w w') :
    Retained h keep P last w' := by
  have hcommitted := committed_congr (h := some h) (P := P) hr.commits
  have hids : committedIds (some h) P w' = committedIds (some h) P w := by
    rw [committedIds, hcommitted, committedIds]
  refine ⟨fun y r hy => ?_, fun y hy => hk.plain y (hcommitted ▸ hy),
    fun y hy => hk.bound y (hcommitted ▸ hy), ?_, fun y hy hnew => ?_⟩
  · rw [hcommitted]
    exact hk.entries y r (hr.ne_none hy)
  · rw [hcommitted]
    exact hk.ascending
  · rw [hcommitted] at hy
    rw [hids] at hnew
    obtain ⟨content, hc, hdir, hkind⟩ := hk.whole y hy hnew
    refine ⟨content, hr.commits ▸ hc, hdir, fun r => ?_⟩
    rw [hr.kind, hkind]
    rintro ⟨z, hz, ⟨-, hq⟩ | ⟨-, hq⟩⟩
    · obtain rfl := prefix_entry_iff.mp hq
      exact hz hnew
    · exact plain_ne_partialName (hk.plain y hy).plain (prefix_entry_iff.mp hq).symm

theorem entry (hk : Retained h keep P last w) {y : Name}
    (hy : (w.tree (some h)).kind (P ++ [y]) = some .dir) : Entry y := by
  rcases hk.entries y [] (by simp [hy]) with hmem | ⟨x, hx, -, rfl⟩
  · exact ⟨y, hk.plain y hmem, .inl rfl⟩
  · exact ⟨x, hx, .inr rfl⟩

/-- A listing that returned is what the script says of the directories, or is empty. -/
theorem listed (hp : d.path.path.At P) (hpath : Literal d.remote_path)
    (hk : Retained d.host keep P last w) {stored : List StoredBackup}
    (h : exec d.list_backups w = (.ok stored, w')) :
    stored = (globbed (w.tree (some d.host)) P).filterMap
        (reported d.node.shell (w.tree (some d.host)) P) ∨ stored = [] := by
  by_cases hdir : (w.tree (some d.host)).isDir P = true
  · have hentry : ∀ z ∈ globbed (w.tree (some d.host)) P, Entry z := fun z hz =>
      hk.entry (mem_globbed.mp hz).1
    exact .inl (parse_list_output_ok (fun z hz => echoes_of_no_backslash (hentry z hz).backslash)
      (fun z hz => (hentry z hz).field) (list_backups_ok hp hpath h hdir))
  · exact .inr (list_backups_absent hp hpath h hdir)

/-- Every id of a plan is a name that the shell takes as it is written and that is outside the
newest. -/
theorem planned (hk : Retained h keep P last w) (hfair : Ranked h keep P w) {shell : Shell}
    {grace_hours : ℕ} {now : Datetime} {in_progress_id : Option String} {plan : PurgePlan}
    (hplan : select_purge ((globbed (w.tree (some h)) P).filterMap
      (reported shell (w.tree (some h)) P)) keep grace_hours now in_progress_id = .ok plan)
    {i : String} (hi : i ∈ plan.delete) :
    ∃ z : Name, z.val = i ∧ Literal z.val ∧ z.val ∉ newest keep (committedIds (some h) P w) := by
  have hliteral : ∀ {z : Name}, Entry z → Literal z.val := by
    rintro z ⟨x, hx, rfl | rfl⟩
    · exact hx.literal
    · exact literal_append.mpr ⟨hx.literal, literal_suffix⟩
  rcases (mem_delete_cases (nodup_complete_reported _ _ _) hplan).2 i hi with
    ⟨hmem, hrank⟩ | ⟨b, hb, hinc, rfl⟩
  · rw [completeIds_reported] at hmem hrank
    obtain ⟨z, hz, rfl, -⟩ := mem_markedIds.mp hmem
    refine ⟨z, rfl, hliteral (hk.entry (mem_globbed.mp hz).1), fun hnew => ?_⟩
    exact absurd (hfair z.val hnew hmem) (by omega)
  · obtain ⟨z, hz, hr⟩ := List.mem_filterMap.mp hb
    rcases reported_marked hr with ⟨hc, -⟩ | ⟨-, hs⟩
    · rw [hinc] at hc
      cases hc
    · -- an incomplete entry is the building directory of an id that was never committed
      rcases hk.entries z [] (by simp [(mem_globbed.mp hz).1]) with hy | ⟨x, hx, hxw, rfl⟩
      · rw [(hk.plain z hy).plain] at hs
        cases hs
      · rw [stripSuffix_partialName] at hs
        refine ⟨x, Option.some.inj hs, hx.literal, fun hnew => ?_⟩
        exact hxw (mem_committedIds.mp (newest_subset _ _ hnew))

theorem purge_removes {site : Site} {config : Config} {dest : DestinationConfig} {now : Datetime}
    {in_progress_id : Option String} {s s' : Pipe}
    {res : Except Exn (DestinationPurgeResult × Bool)}
    (hp : d.path.path.At P) (hpath : Literal d.remote_path)
    (hbuild : site.build_destination dest config.transfer = d.toDestination)
    (hk : Retained d.host dest.keep P last s.world) (hfair : Ranked d.host dest.keep P s.world)
    (hrun : exec (purge_one_destination site config dest now false in_progress_id) s = (res, s')) :
    Removes (Condemned d.host dest.keep P s.world) s.world s'.world := by
  have hlit : (RemoteCommand.list d.path).Literal := fun p hq => by
    rw [List.mem_singleton.mp hq]
    exact hpath
  have hsame : Moves Same d.list_backups := by
    refine Moves.bind (fun w => (remote_run_left hlit (Prod.eta _).symm).list) (fun proc => ?_)
    exact liftExcept_moves _
  rcases purge_one_cases hrun with ⟨r, hlist, -⟩ | ⟨stored, plan, u, r, hlist, hplan, hdel, -⟩
  · rw [hbuild] at hlist
    exact (hsame.of_exec hlist).removes _
  · rw [hbuild] at hlist hdel
    have hmoves : ∀ i ∈ plan.delete,
        Moves (Removes (Condemned d.host dest.keep P s.world)) (d.delete i) := by
      intro i hi
      rcases hk.listed hp hpath hlist with rfl | rfl
      · obtain ⟨z, rfl, hz, hnew⟩ := hk.planned hfair hplan hi
        have ha : d.Addresses P z := ⟨hp, hpath, hz⟩
        exact (delete_removes ha).mono (fun _ _ hr => hr.mono (fun q hq => ⟨z, hnew, hq⟩))
      · rcases (mem_delete_cases (by simp) hplan).2 i hi with ⟨hmem, -⟩ | ⟨b, hb, -⟩
        · simp [completeIds] at hmem
        · cases hb
    exact trans_of _ ((hsame.of_exec hlist).removes _)
      ((delete_planned_moves hmoves false).of_exec hdel)

end Retained

section

variable {cwd : Loc} {nodes : String → RemoteNode} {config : Config} {dest : DestinationConfig}

theorem builds_remote (htype : dest.type = .ssh) :
    (site cwd nodes).build_destination dest config.transfer =
      (remoteOf nodes config dest).toDestination := by
  simp [site, build_destination, htype, remoteOf]

theorem RemoteHistory.retained (htype : dest.type = .ssh)
    (hp : (remoteOf nodes config dest).path.path.At P) (hpath : Literal dest.path)
    {last : Option Name} (h : RemoteHistory cwd nodes config dest P PlainId
      (Ranked (remoteOf nodes config dest).host dest.keep P) w last) :
    Retained (remoteOf nodes config dest).host dest.keep P last w := by
  induction h with
  | start hempty hnone => exact Retained.start hempty hnone
  | store _ hx hlater hsrc ih => exact ih.store ⟨hp, hpath, hx.literal⟩ hx hlater hsrc
  | purge _ hfair now in_progress_id ih =>
    exact ih.removes (ih.purge_removes hp hpath (builds_remote htype) hfair rfl)
  | elsewhere _ hkind hcommits hsub ih =>
    exact ih.congr (fun y r => hkind _ ⟨[y] ++ r, by simp⟩) hcommits hsub

theorem RemoteHistory.purge_commits (htype : dest.type = .ssh)
    (hp : (remoteOf nodes config dest).path.path.At P) (hpath : Literal dest.path)
    {last : Option Name} {s : Pipe} (h : RemoteHistory cwd nodes config dest P PlainId
      (Ranked (remoteOf nodes config dest).host dest.keep P) s.world last)
    (hfair : Ranked (remoteOf nodes config dest).host dest.keep P s.world) (now : Datetime)
    (in_progress_id : Option String) :
    (exec (purge_one_destination (site cwd nodes) config dest now false in_progress_id)
      s).2.world.commits = s.world.commits :=
  ((h.retained htype hp hpath).purge_removes hp hpath (builds_remote htype) hfair rfl).commits

/-- In every world of a history whose purges begin with the newest generations ranked first, the
newest `min keep n` of the `n` committed generations are as they were committed. -/
theorem newest_remote_generations_survive (htype : dest.type = .ssh)
    (hp : (remoteOf nodes config dest).path.path.At P) (hpath : Literal dest.path)
    {last : Option Name} (h : RemoteHistory cwd nodes config dest P PlainId
      (Ranked (remoteOf nodes config dest).host dest.keep P) w last) :
    (newest dest.keep (committedIds (some (remoteOf nodes config dest).host) P w)).card =
        min dest.keep (committed (some (remoteOf nodes config dest).host) P w).length ∧
      ∀ x ∈ committed (some (remoteOf nodes config dest).host) P w,
        x.val ∈ newest dest.keep (committedIds (some (remoteOf nodes config dest).host) P w) →
          Standing (remoteOf nodes config dest).host P w x := by
  have hk := h.retained htype hp hpath
  refine ⟨?_, hk.whole⟩
  rw [card_newest, committedIds, List.toFinset_card_of_nodup, List.length_map]
  exact (List.pairwise_map.mpr hk.ascending).imp (fun hxy => ne_of_lt hxy)

end

/-- One ssh destination of which one generation is kept. -/
def vaultTable : Table :=
  [("schema_version", .int 1),
    ("backup", .table [("work_dir", .str "/w"), ("name_prefix", .str "p")]),
    ("destinations", .array [.table [("name", .str "vault"), ("type", .str "ssh"),
      ("path", .str "/b"), ("keep", .int 1), ("host", .str "vault"), ("user", .str "keeper"),
      ("ssh_key", .str "/key")]])]

def vaultDestination : DestinationConfig :=
  ⟨"vault", .ssh, 1, "/b", .str "vault", .int 22, .str "keeper", .str "/key", [], .int 0⟩

def vaultConfig : Config := { smallConfig "/w" "p" "/b" 1 with destinations := [vaultDestination] }

def vault : SSHDestination := remoteOf smallNodes vaultConfig vaultDestination

/-- The same world, with `ssh` failing before the call `n` takes effect. -/
def failingAt (n : ℕ) (w : World) : World :=
  { w with tape := fun k =>
      if k = n then { Reply.good 0 with status := 255 } else Reply.good 1700000000000000 }

def vaultStore (x : Name) (w : World) : World :=
  (exec (vault.store (Path.configured [] (PurePath.parse "/w/x")) x.val) w).2

/-- Where a program leaves the world. -/
def worldAfter {α : Type} (m : Pipeline α) (w : World) : World := (exec m ⟨w, []⟩).2.world

theorem worldAfter_eq {α : Type} (m : Pipeline α) (w : World) :
    worldAfter m w = (exec m ⟨w, []⟩).2.world := rfl

def vaultPurge (w : World) : World :=
  worldAfter (purge_one_destination (site [] smallNodes) vaultConfig vaultDestination
    (Datetime.utc 1700200000000000) false none) w

abbrev VaultHistory (Fair : World → Prop) : World → Option Name → Prop :=
  RemoteHistory [] smallNodes vaultConfig vaultDestination [entry "b"] PlainId Fair

theorem VaultHistory.failingAt {Fair : World → Prop} {last : Option Name}
    (h : VaultHistory Fair w last) (n : ℕ) : VaultHistory Fair (failingAt n w) last :=
  h.elsewhere (fun _ _ => rfl) rfl (List.Subset.refl _)

theorem VaultHistory.store {Fair : World → Prop} {last : Option Name} (h : VaultHistory Fair w last)
    (hx : PlainId x) (hlater : ∀ l, last = some l → l.val < x.val) :
    VaultHistory Fair (vaultStore x w) (some x) :=
  RemoteHistory.store h hx hlater freshWorld_source.leads

theorem VaultHistory.purge {Fair : World → Prop} {last : Option Name} (h : VaultHistory Fair w last)
    (hfair : Fair w) : VaultHistory Fair (vaultPurge w) last := by
  rw [vaultPurge, worldAfter_eq]
  exact RemoteHistory.purge (s := ⟨w, []⟩) h hfair (Datetime.utc 1700200000000000) none

theorem vaultHistory_start (Fair : World → Prop) : VaultHistory Fair freshWorld none :=
  RemoteHistory.start freshWorld_empty rfl

def tuesday : Name := entry "p-20231114T221320Z"

def wednesday : Name := entry "p-20231115T221320Z"

theorem tuesday_plain : PlainId tuesday := by
  have hid : generate_backup_id "p" (Datetime.utc 1700000000000000) = .ok tuesday.val := rfl
  exact plainId_of_generated (oneField_of_no_space (by decide)) (by decide) hid

theorem wednesday_plain : PlainId wednesday := by
  have hid : generate_backup_id "p" (Datetime.utc 1700086400000000) = .ok wednesday.val := rfl
  exact plainId_of_generated (oneField_of_no_space (by decide)) (by decide) hid

/-- A lone manifest has nothing above it. -/
theorem ranked_alone {h : String} (hmarked : markedIds (w.tree (some h)) P = {x.val}) :
    Ranked h 1 P w := by
  intro s _ hs
  rw [hmarked] at hs ⊢
  obtain rfl := Finset.mem_singleton.mp hs
  have hnone : above {x.val} x.val = 0 := by
    rw [above, Finset.filter_singleton, if_neg (lt_irrefl _), Finset.card_empty]
  omega

theorem tuesday_ranked : Ranked "vault" 1 [entry "b"] (vaultStore tuesday freshWorld) :=
  ranked_alone (x := tuesday) (by decide +kernel)

theorem vault_at : vault.path.path.At [entry "b"] := ⟨⟨[], rfl, by decide⟩, rfl⟩

theorem VaultHistory.purge_commits {last : Option Name}
    (h : VaultHistory (Ranked "vault" 1 [entry "b"]) w last)
    (hranked : Ranked "vault" 1 [entry "b"] w) : (vaultPurge w).commits = w.commits := by
  rw [vaultPurge, worldAfter_eq]
  exact RemoteHistory.purge_commits rfl vault_at (by decide) (s := ⟨w, []⟩) h hranked _ none

theorem tuesday_committed :
    committed (some "vault") [entry "b"] (vaultPurge (vaultStore tuesday freshWorld)) =
      [tuesday] := by
  have hstored := (vaultHistory_start (Ranked "vault" 1 [entry "b"])).store tuesday_plain (by simp)
  have hcommits := hstored.purge_commits tuesday_ranked
  exact (committed_congr hcommits).trans (by decide +kernel)

/-- After a store and a purge the generation is there. -/
theorem newest_remote_generation_survives_purge :
    (newest 1 (committedIds (some "vault") [entry "b"]
        (vaultPurge (vaultStore tuesday freshWorld)))).card = 1 ∧
      Standing "vault" [entry "b"] (vaultPurge (vaultStore tuesday freshWorld)) tuesday := by
  have hstored := (vaultHistory_start (Ranked "vault" 1 [entry "b"])).store tuesday_plain (by simp)
  have hmem : tuesday ∈
      committed (some "vault") [entry "b"] (vaultPurge (vaultStore tuesday freshWorld)) := by
    rw [tuesday_committed]
    exact List.mem_singleton_self _
  have hids : tuesday.val ∈ newest 1 (committedIds (some "vault") [entry "b"]
      (vaultPurge (vaultStore tuesday freshWorld))) := by
    rw [newest_eq_self (by rw [committedIds, tuesday_committed]; rfl)]
    exact mem_committedIds.mpr hmem
  have hpurged := hstored.purge tuesday_ranked
  have hlength := congrArg List.length tuesday_committed
  generalize vaultPurge (vaultStore tuesday freshWorld) = w at *
  have h := newest_remote_generations_survive rfl vault_at (by decide) hpurged
  refine ⟨h.1.trans ?_, h.2 tuesday hmem hids⟩
  change min 1 (committed (some "vault") [entry "b"] w).length = 1
  rw [hlength]
  rfl

theorem vault_launches : vault.Launches (.list vault.path) :=
  launches_of_paths rfl (by decide +kernel) (by decide)

/-- A store, and a store that loses its `mv`. -/
def unrenamedWorld : World :=
  failingAt 99 (vaultStore wednesday (failingAt 5 (vaultStore tuesday freshWorld)))

theorem unrenamed_history : VaultHistory (fun _ => True) unrenamedWorld (some wednesday) := by
  have hlater : ∀ l, some tuesday = some l → l.val < wednesday.val := by
    intro l hl
    rw [← Option.some.inj hl]
    decide
  have hfirst := (vaultHistory_start (fun _ => True)).store tuesday_plain (by simp)
  exact ((hfirst.failingAt 5).store wednesday_plain hlater).failingAt 99

theorem unrenamed_purged :
    committed (some "vault") [entry "b"] (vaultPurge unrenamedWorld) = [tuesday] ∧
      ((vaultPurge unrenamedWorld).tree (some "vault")).kind ([entry "b"] ++ [tuesday] ++ []) =
        none := by
  have hbuild : (site [] smallNodes).build_destination vaultDestination vaultConfig.transfer =
      vault.toDestination := builds_remote rfl
  simp only [vaultPurge, purge_one_destination, hbuild, toDestination, list_backups, remote_run,
    remote_process, vault_launches.started]
  decide +kernel

/-- The building directory of the second generation takes the place of the first one. -/
theorem lost_mv_outranks :
    parse_config vaultTable = .ok vaultConfig ∧
      (∃ last, VaultHistory (fun _ => True) (vaultPurge unrenamedWorld) last) ∧
      committed (some "vault") [entry "b"] (vaultPurge unrenamedWorld) = [tuesday] ∧
      tuesday.val ∈ newest 1 (committedIds (some "vault") [entry "b"] (vaultPurge unrenamedWorld)) ∧
      ¬ Standing "vault" [entry "b"] (vaultPurge unrenamedWorld) tuesday := by
  obtain ⟨hcommitted, hgone⟩ := unrenamed_purged
  refine ⟨rfl, ⟨_, unrenamed_history.purge trivial⟩, hcommitted, ?_, ?_⟩
  · rw [newest_eq_self (by rw [committedIds, hcommitted]; rfl)]
    exact mem_committedIds.mpr (by rw [hcommitted]; exact List.mem_singleton_self _)
  · rintro ⟨content, -, hdir, hkind⟩
    rw [← hkind [], hgone] at hdir
    cases hdir

end SSHDestination

end MbKeeper
