import MbKeeper.Destinations
import MbKeeper.LocalEffects
import MbKeeper.PurgeEffects

/-!
# Retention over the history of a local destination

`LocalHistory` is any sequence of stores with rising ids and of purges, each of
them cut short wherever the environment likes. `Kept` is the invariant: what
lies in the directory are committed generations, the leftovers of uncommitted
ones and a file left by a check, and the newest `keep` that were committed are
as they were committed. A purge only removes ids outside the newest, since the generations
it ranks lie between the newest and all committed ones.
-/
namespace MbKeeper

/-- The id of a generation taken at or before the second `last`. -/
def Made (pre : String) (last : Option ℤ) (x : Name) : Prop :=
  ∃ now t l, generate_backup_id pre now = .ok x.val ∧ now.instant = some t ∧
    FourDigitYear t ∧ last = some l ∧ second t ≤ l

theorem Made.plain {pre : String} {last : Option ℤ} {x : Name}
    (h : Made pre last x) : stripSuffix PARTIAL_SUFFIX x.val = none := by
  obtain ⟨now, t, l, hid, -⟩ := h
  exact stripSuffix_of_last_ne (generate_backup_id_getLast? hid)
    (show PARTIAL_SUFFIX.toList.getLast? = some 'l' by decide) (by decide)

/-- No generation has the name of the probe of a check. -/
theorem Made.ne_probe {pre : String} {last : Option ℤ} {x : Name} (h : Made pre last x) :
    x ≠ CHECK_PROBE_FILENAME := by
  rintro rfl
  obtain ⟨now, t, l, hid, -⟩ := h
  exact absurd (generate_backup_id_getLast? hid) (by decide)

theorem Made.mono {pre : String} {last last' : Option ℤ} {x : Name}
    (h : Made pre last x) (hl : ∀ l, last = some l → ∃ l', last' = some l' ∧ l ≤ l') :
    Made pre last' x := by
  obtain ⟨now, t, l, hid, ht, hy, hlast, hle⟩ := h
  obtain ⟨l', hl', hll⟩ := hl l hlast
  exact ⟨now, t, l', hid, ht, hy, hl', hle.trans hll⟩

theorem plain_ne_partialName {x y : Name} (h : stripSuffix PARTIAL_SUFFIX x.val = none) :
    x ≠ partialName y := by
  rintro rfl
  rw [stripSuffix_partialName] at h
  cases h

theorem probe_ne_partialName (x : Name) : CHECK_PROBE_FILENAME ≠ partialName x :=
  plain_ne_partialName (by decide)

/-- Different entries of a directory lie apart. -/
theorem prefix_entry_iff {P r : Loc} {x y : Name} : P ++ [x] <+: P ++ [y] ++ r ↔ x = y := by
  rw [List.append_assoc, List.prefix_append_right_inj]
  simp

section

variable (cwd : Loc) (nodes : String → RemoteNode) (config : Config) (dest : DestinationConfig)

/-- A destination on this node, at a path the system accepts. -/
structure DestinationConfig.IsLocal (dest : DestinationConfig) : Prop where
  type : dest.type = .local
  path : ∀ s ∈ (PurePath.parse dest.path).parts, hasNul s = false

/-- Where the destination keeps its generations. -/
def localRoot (dest : DestinationConfig) : Loc := (LocalDestination.from_config cwd dest).path.loc

/-- A directory with a manifest, apart from `P`. -/
structure Source (P : Loc) (w : World) (src : Path) : Prop where
  leads : ∃ S, src.At S ∧ ¬ P <+: S ∧ ¬ S <+: P ∧
    ∃ data, w.fs.kind (S ++ [META_FILENAME]) = some (.file data)

/-- The worlds reached from an empty destination directory, each with the second of the last
store. A run is a store and, when that returned, a purge with the stored id in progress; a
purge of its own has none. What happens in between happens elsewhere. -/
inductive LocalHistory : World → Option ℤ → Prop where
  | start {w : World} (hempty : ∀ q, localRoot cwd dest <+: q → q ≠ localRoot cwd dest →
      w.fs.kind q = none) (hnone : committed none (localRoot cwd dest) w = []) :
      LocalHistory w none
  | store {w : World} {last : Option ℤ} (h : LocalHistory w last) {now : Datetime} {t : Instant}
      {backup_id : String} (ht : now.instant = some t) (hyear : FourDigitYear t)
      (hlater : ∀ l, last = some l → l < second t)
      (hid : generate_backup_id config.backup.name_prefix now = .ok backup_id) {src : Path}
      (hsrc : Source (localRoot cwd dest) w src) :
      LocalHistory (exec ((LocalDestination.from_config cwd dest).store src backup_id) w).2
        (some (second t))
  | purge {s : Pipe} {last : Option ℤ} (h : LocalHistory s.world last) (now : Datetime)
      (in_progress_id : Option String) :
      LocalHistory (exec (purge_one_destination (site cwd nodes) config dest now false
        in_progress_id) s).2.world last
  | elsewhere {w w' : World} {last : Option ℤ} (h : LocalHistory w last)
      (hkind : ∀ q, localRoot cwd dest <+: q → w'.fs.kind q = w.fs.kind q)
      (hcommits : committed none (localRoot cwd dest) w' = committed none (localRoot cwd dest) w)
      (hsub : w.commits ⊆ w'.commits) : LocalHistory w' last

end

/-- A generation is where it was committed, as it was committed, with its manifest. -/
def Intact (P : Loc) (w : World) (x : Name) : Prop :=
  ∃ content, ⟨none, P ++ [x], content⟩ ∈ w.commits ∧ content [] = some .dir ∧
    (∃ data, content [META_FILENAME] = some (.file data)) ∧
    ∀ r, w.fs.kind (P ++ [x] ++ r) = content r

structure Kept (pre : String) (keep : ℕ) (P : Loc) (last : Option ℤ) (w : World) :
    Prop where
  entries : ∀ y r, w.fs.kind (P ++ [y] ++ r) ≠ none →
    y ∈ committed none P w ∨ (∃ x, x ∉ committed none P w ∧ Made pre last x ∧ y = partialName x) ∨
      y = CHECK_PROBE_FILENAME ∧ w.fs.isDir (P ++ [y]) = false
  made : ∀ x ∈ committed none P w, Made pre last x
  ascending : (committed none P w).Pairwise (fun x y => x.val < y.val)
  intact : ∀ x ∈ committed none P w, x.val ∈ newest keep (committedIds none P w) → Intact P w x

namespace Kept

variable {pre : String} {keep : ℕ} {P : Loc} {last last' : Option ℤ} {w w' : World}

/-- A directory is a generation or a leftover of one. -/
theorem directory (h : Kept pre keep P last w) {y : Name}
    (hdir : w.fs.kind (P ++ [y]) = some .dir) :
    y ∈ committed none P w ∨ ∃ x, x ∉ committed none P w ∧ Made pre last x ∧ y = partialName x := by
  rcases h.entries y [] (by simp [hdir]) with hmem | hpartial | ⟨-, hfile⟩
  · exact .inl hmem
  · exact .inr hpartial
  · rw [(FileTree.isDir_iff _ _).mpr hdir] at hfile
    cases hfile

/-- The probe of a check is no directory. -/
theorem probe (h : Kept pre keep P last w) :
    w.fs.isDir (P ++ [CHECK_PROBE_FILENAME]) = false := by
  by_contra hdir
  rcases h.directory ((FileTree.isDir_iff _ _).mp (eq_true_of_ne_false hdir)) with
    hmem | ⟨x, -, -, he⟩
  · exact (h.made _ hmem).ne_probe rfl
  · exact probe_ne_partialName x he

/-- Generations stay where they are, and a check may leave or remove its probe. -/
theorem congr (h : Kept pre keep P last w)
    (hkind : ∀ y r, y ≠ CHECK_PROBE_FILENAME →
      w'.fs.kind (P ++ [y] ++ r) = w.fs.kind (P ++ [y] ++ r))
    (hprobe : w.fs.isDir (P ++ [CHECK_PROBE_FILENAME]) = false →
      w'.fs.isDir (P ++ [CHECK_PROBE_FILENAME]) = false)
    (hcommitted : committed none P w' = committed none P w) (hsub : w.commits ⊆ w'.commits)
    (hl : ∀ l, last = some l → ∃ l', last' = some l' ∧ l ≤ l') :
    Kept pre keep P last' w' where
  entries y r hy := by
    rw [hcommitted]
    by_cases hprobed : y = CHECK_PROBE_FILENAME
    · subst hprobed
      exact .inr (.inr ⟨rfl, hprobe h.probe⟩)
    · rw [hkind y r hprobed] at hy
      rcases h.entries y r hy with hmem | ⟨x, hx, hmade, he⟩ | ⟨he, -⟩
      · exact .inl hmem
      · exact .inr (.inl ⟨x, hx, hmade.mono hl, he⟩)
      · exact absurd he hprobed
  made x hx := (h.made x (hcommitted ▸ hx)).mono hl
  ascending := by
    rw [hcommitted]
    exact h.ascending
  intact x hx hnew := by
    rw [committedIds, hcommitted] at hnew
    have hx' : x ∈ committed none P w := hcommitted ▸ hx
    obtain ⟨content, hc, hdir, hmeta, hr⟩ := h.intact x hx' hnew
    exact ⟨content, hsub hc, hdir, hmeta, fun r => by rw [hkind x r (h.made x hx').ne_probe, hr]⟩

/-- What changes nothing in the directory keeps what is kept. -/
theorem unchanged (h : Kept pre keep P last w)
    (hkind : ∀ y r, w'.fs.kind (P ++ [y] ++ r) = w.fs.kind (P ++ [y] ++ r))
    (hcommitted : committed none P w' = committed none P w) (hsub : w.commits ⊆ w'.commits)
    (hl : ∀ l, last = some l → ∃ l', last' = some l' ∧ l ≤ l') :
    Kept pre keep P last' w' := by
  refine h.congr (fun y r _ => hkind y r) (fun hfile => ?_) hcommitted hsub hl
  have hsame := hkind CHECK_PROBE_FILENAME []
  rw [List.append_nil] at hsame
  exact (FileTree.isDir_congr hsame).trans hfile

theorem start (hempty : ∀ q, P <+: q → q ≠ P → w.fs.kind q = none)
    (hnone : committed none P w = []) : Kept pre keep P none w where
  entries y r hy := absurd (hempty _ ⟨[y] ++ r, by simp⟩ (by simp)) hy
  made x hx := by simp [hnone] at hx
  ascending := by simp [hnone]
  intact x hx := by simp [hnone] at hx

/-- While a store is building, nothing but the directory of its own id changes. -/
theorem building (h : Kept pre keep P last w) {x : Name} (hx : x ∉ committed none P w)
    (hmade : Made pre last' x)
    (hb : Confined (LocalDestination.building P x) w w')
    (hl : ∀ l, last = some l → ∃ l', last' = some l' ∧ l ≤ l') :
    Kept pre keep P last' w' := by
  have hcommitted := committed_congr (h := none) (P := P) hb.commits
  have hkind : ∀ y r, y ≠ partialName x →
      w'.fs.kind (P ++ [y] ++ r) = w.fs.kind (P ++ [y] ++ r) := by
    intro y r hy
    apply hb.fs_kind
    rintro (⟨-, hq⟩ | ⟨-, hq⟩)
    · have := hq.length_le
      simp only [List.length_append, List.length_singleton] at this
      omega
    · exact hy (prefix_entry_iff.mp hq).symm
  refine ⟨fun y r hy => ?_, fun y hy => ?_, ?_, fun y hy hnew => ?_⟩
  · rw [hcommitted]
    by_cases hyx : y = partialName x
    · exact .inr (.inl ⟨x, hx, hmade, hyx⟩)
    · rw [hkind y r hyx] at hy
      rcases h.entries y r hy with hmem | ⟨z, hz, hzmade, he⟩ | ⟨he, hfile⟩
      · exact .inl hmem
      · exact .inr (.inl ⟨z, hz, hzmade.mono hl, he⟩)
      · have hsame := hkind y [] hyx
        rw [List.append_nil] at hsame
        exact .inr (.inr ⟨he, (FileTree.isDir_congr hsame).trans hfile⟩)
  · exact (h.made y (hcommitted ▸ hy)).mono hl
  · rw [hcommitted]
    exact h.ascending
  · rw [committedIds, hcommitted] at hnew
    rw [hcommitted] at hy
    obtain ⟨content, hc, hdir, hmeta, hr⟩ := h.intact y hy hnew
    exact ⟨content, hb.commits ▸ hc, hdir, hmeta, fun r => by
      rw [hkind y r (plain_ne_partialName (h.made y hy).plain), hr]⟩

/-- The rename takes the new id from its building directory to its place. -/
theorem commit (h : Kept pre keep P last w) {x : Name} {u : World}
    (hx : Made pre last' x) (hnew : ∀ y ∈ committed none P w, y.val < x.val)
    (hl : ∀ l, last = some l → ∃ l', last' = some l' ∧ l ≤ l')
    (hc : LocalDestination.Commits P x w u w')
    (hmeta : ∃ data, u.fs.kind (P ++ [partialName x] ++ [META_FILENAME]) = some (.file data)) :
    Kept pre keep P last' w' := by
  have hxw : x ∉ committed none P w := fun hmem => lt_irrefl _ (hnew x hmem)
  have hu := h.building hxw hx hc.building hl
  have hcu := committed_congr (h := none) (P := P) hc.building.commits
  have hcommitted := committed_append hc.commits
  obtain ⟨s, htree⟩ := hc.tree
  have hfs : w'.fs = u.fs.move (P ++ [partialName x]) (P ++ [x]) s := by
    rw [World.fs, htree]
    rfl
  have hmoved :
      ∀ r, w'.fs.kind (P ++ [x] ++ r) = u.fs.kind (P ++ [partialName x] ++ r) := fun r => by
    rw [hfs, FileTree.kind_move_append]
  have hother : ∀ y r, y ≠ x → y ≠ partialName x →
      w'.fs.kind (P ++ [y] ++ r) = u.fs.kind (P ++ [y] ++ r) := by
    intro y r hyx hyp
    rw [hfs, FileTree.kind_move_of_outside]
    · exact fun hpre => hyx (prefix_entry_iff.mp hpre).symm
    · exact fun hpre => hyp (prefix_entry_iff.mp hpre).symm
  refine ⟨fun y r hy => ?_, fun y hy => ?_, ?_, fun y hy hnewest => ?_⟩
  · rw [hcommitted]
    by_cases hyx : y = x
    · exact .inl (by simp [hyx])
    · by_cases hyp : y = partialName x
      · -- what was built has moved away
        refine absurd ?_ hy
        rw [hfs, hyp]
        refine FileTree.kind_move_source _ _ (fun hpre => ?_) (List.prefix_append _ _)
        exact partialName_ne x (prefix_entry_iff.mp hpre).symm
      · rw [hother y r hyx hyp] at hy
        rcases hu.entries y r hy with hmem | ⟨z, hz, hzmade, rfl⟩ | ⟨he, hfile⟩
        · exact .inl (List.mem_append_left _ (hcu ▸ hmem))
        · refine .inr (.inl ⟨z, fun hmem => ?_, hzmade, rfl⟩)
          rcases List.mem_append.mp hmem with hmem | hmem
          · exact hz (hcu ▸ hmem)
          · exact hyp (by rw [List.mem_singleton.mp hmem])
        · have hsame := hother y [] hyx hyp
          rw [List.append_nil] at hsame
          exact .inr (.inr ⟨he, (FileTree.isDir_congr hsame).trans hfile⟩)
  · rw [hcommitted] at hy
    rcases List.mem_append.mp hy with hy | hy
    · exact (h.made y hy).mono hl
    · rwa [List.mem_singleton.mp hy]
  · rw [hcommitted]
    refine List.pairwise_append.mpr ⟨h.ascending, List.pairwise_singleton _ _, fun y hy z hz => ?_⟩
    rw [List.mem_singleton.mp hz]
    exact hnew y hy
  · rw [hcommitted] at hy
    by_cases hyx : y = x
    · subst hyx
      refine ⟨fun l => u.fs.kind (P ++ [partialName y] ++ l), by rw [hc.commits]; simp, ?_, hmeta,
        hmoved⟩
      simpa using (renamable_iff.mp hc.renamable).1
    · have hyw : y ∈ committed none P w :=
        (List.mem_append.mp hy).resolve_right (by simpa using hyx)
      have hids : committedIds none P w' = insert x.val (committedIds none P w) := by
        ext z
        simp [committedIds, hcommitted]
      rw [hids] at hnewest
      have hold := Finset.mem_insert.mp (newest_insert_subset hnewest)
      have hmem := hold.resolve_left (fun he => hyx (Subtype.ext he))
      have hidu : committedIds none P u = committedIds none P w := by
        rw [committedIds, hcu, committedIds]
      obtain ⟨content, hcont, hdir, hm, hr⟩ := hu.intact y (hcu ▸ hyw) (by rwa [hidu])
      refine ⟨content, ?_, hdir, hm, fun r => ?_⟩
      · rw [hc.commits, ← hc.building.commits]
        exact List.mem_append_left _ hcont
      · rw [hother y r hyx (plain_ne_partialName (h.made y hyw).plain), hr]

theorem store {d : LocalDestination} (hp : d.path.At P) (hslash : '/' ∉ pre.toList)
    (h : Kept pre keep P last w) {now : Datetime} {t : Instant} {backup_id : String}
    (ht : now.instant = some t) (hyear : FourDigitYear t)
    (hlater : ∀ l, last = some l → l < second t)
    (hid : generate_backup_id pre now = .ok backup_id) {src : Path}
    (hsrc : Source P w src) :
    Kept pre keep P (some (second t)) (exec (d.store src backup_id) w).2 := by
  have hl : ∀ l, last = some l → ∃ l', some (second t) = some l' ∧ l ≤ l' := fun l hl =>
    ⟨_, rfl, (hlater l hl).le⟩
  rcases generate_backup_id_legal_or hslash hid with hlegal | hnul
  · obtain ⟨x, rfl⟩ : ∃ x : Name, x.val = backup_id := ⟨⟨_, hlegal⟩, rfl⟩
    have hx : Made pre (some (second t)) x := ⟨now, t, _, hid, ht, hyear, rfl, le_rfl⟩
    have hnew : ∀ y ∈ committed none P w, y.val < x.val := by
      intro y hy
      obtain ⟨now', t', l, hid', ht', hyear', hlast, hle⟩ := h.made y hy
      exact generate_backup_id_lt hid' hid ht' ht hyear' hyear (hle.trans_lt (hlater l hlast))
    have hxw : x ∉ committed none P w := fun hmem => lt_irrefl _ (hnew x hmem)
    rcases LocalDestination.store_cases hp (Prod.eta (exec (d.store src x.val) w)).symm with
      ⟨hsame, -⟩ | ⟨-, ⟨hb, -⟩ | ⟨u, hc, hcopy⟩⟩
    · exact h.building hxw hx (hsame.confined _) hl
    · exact h.building hxw hx hb hl
    · obtain ⟨S, hS, hPS, hSP, data, hdata⟩ := hsrc.leads
      refine h.commit hx hnew hl hc ⟨data, hcopy S data hS ?_ hdata⟩
      rintro (⟨-, hq⟩ | ⟨-, hq⟩)
      · exact hSP ((List.prefix_append _ _).trans hq)
      · rcases List.prefix_concat_iff.mp hq with he | hq
        · rw [← List.append_inj_left' he rfl] at hPS
          exact hPS (List.prefix_refl _)
        · exact hPS ((List.prefix_append _ _).trans hq)
  · have hc := (LocalDestination.store_nul hp src hnul) w
    refine h.unchanged (fun y r => hc.fs_kind ?_) (committed_congr hc.commits)
      (by rw [hc.commits]; exact List.Subset.refl _) hl
    rintro ⟨-, hq⟩
    have := hq.length_le
    simp only [List.length_append, List.length_singleton] at this
    omega

/-- The spots of the ids outside the newest. -/
def Condemned (keep : ℕ) (P : Loc) (w : World) : Set Spot :=
  {q | ∃ z : Name, z.val ∉ newest keep (committedIds none P w) ∧
    q ∈ below none (P ++ [z]) ∪ below none (P ++ [partialName z])}

theorem removes (h : Kept pre keep P last w) (hr : Removes (Condemned keep P w) w w') :
    Kept pre keep P last w' := by
  have hcommitted := committed_congr (h := none) (P := P) hr.commits
  have hids : committedIds none P w' = committedIds none P w := by
    rw [committedIds, hcommitted, committedIds]
  refine ⟨fun y r hy => ?_, fun y hy => h.made y (hcommitted ▸ hy), ?_, fun y hy hnew => ?_⟩
  · rw [hcommitted]
    rcases h.entries y r (hr.ne_none hy) with hmem | hpartial | ⟨he, hfile⟩
    · exact .inl hmem
    · exact .inr (.inl hpartial)
    · exact .inr (.inr ⟨he, hr.isDir_eq_false hfile⟩)
  · rw [hcommitted]
    exact h.ascending
  · rw [hcommitted] at hy
    rw [hids] at hnew
    obtain ⟨content, hc, hdir, hmeta, hk⟩ := h.intact y hy hnew
    refine ⟨content, hr.commits ▸ hc, hdir, hmeta, fun r => ?_⟩
    rw [hr.fs_kind, hk]
    rintro ⟨z, hz, ⟨-, hq⟩ | ⟨-, hq⟩⟩
    · obtain rfl := prefix_entry_iff.mp hq
      exact hz hnew
    · exact plain_ne_partialName (h.made y hy).plain (prefix_entry_iff.mp hq).symm

/-- What is listed as complete has been committed, and the newest are listed as complete. -/
theorem listed (h : Kept pre keep P last w) :
    newest keep (committedIds none P w) ⊆ completeIds (LocalDestination.records w.fs P) ∧
      completeIds (LocalDestination.records w.fs P) ⊆ committedIds none P w := by
  constructor
  · intro s hs
    obtain ⟨x, hx, rfl⟩ := List.mem_map.mp (List.mem_toFinset.mp (newest_subset _ _ hs))
    obtain ⟨content, -, hdir, ⟨data, hmeta⟩, hk⟩ := h.intact x hx hs
    refine LocalDestination.mem_completeIds_records.mpr ⟨x, rfl, (h.made x hx).plain, ?_, ?_⟩
    · rw [← hdir, ← hk [], List.append_nil]
    · exact (FileTree.isFile_iff _ _).mpr ⟨data, (hk _).trans hmeta⟩
  · intro s hs
    obtain ⟨x, rfl, hplain, hdir, -⟩ := LocalDestination.mem_completeIds_records.mp hs
    refine mem_committedIds.mpr ((h.directory hdir).resolve_right ?_)
    rintro ⟨z, -, -, he⟩
    exact plain_ne_partialName hplain he

/-- Every id of a plan made from the listing is the name of a generation outside the newest. -/
theorem planned (h : Kept pre keep P last w) {grace_hours : ℕ} {now : Datetime}
    {in_progress_id : Option String} {plan : PurgePlan}
    (hplan : select_purge (LocalDestination.records w.fs P) keep grace_hours now in_progress_id =
      .ok plan) {s : String} (hs : s ∈ plan.delete) :
    ∃ z : Name, z.val = s ∧ z.val ∉ newest keep (committedIds none P w) := by
  obtain ⟨hlow, hup⟩ := h.listed
  rcases (mem_delete_cases (LocalDestination.nodup_complete_records _ _) hplan).2 s hs with
    ⟨hmem, hrank⟩ | ⟨b, hb, hinc, rfl⟩
  · obtain ⟨x, rfl, -⟩ := LocalDestination.mem_completeIds_records.mp hmem
    refine ⟨x, rfl, fun hnew => ?_⟩
    rw [← newest_between hlow hup] at hnew
    exact absurd (mem_newest.mp hnew).2 (by omega)
  · obtain ⟨y, hdir, rfl⟩ := LocalDestination.mem_records.mp hb
    rcases h.directory hdir with hy | ⟨z, hz, -, rfl⟩
    · -- a committed generation without its manifest is not among the newest
      rw [LocalDestination.recordOf_plain (h.made y hy).plain] at hinc ⊢
      refine ⟨y, rfl, fun hnew => ?_⟩
      obtain ⟨content, -, -, ⟨data, hmeta⟩, hk⟩ := h.intact y hy hnew
      have hfile : w.fs.isFile (P ++ [y] ++ [META_FILENAME]) = true :=
        (FileTree.isFile_iff _ _).mpr ⟨data, (hk _).trans hmeta⟩
      rw [hfile] at hinc
      cases hinc
    · rw [LocalDestination.recordOf_suffixed (stripSuffix_partialName z)]
      exact ⟨z, rfl, fun hnew => hz (mem_committedIds.mp (newest_subset _ _ hnew))⟩

/-- Deleting an id outside the newest touches condemned spots only. -/
theorem delete_condemned {d : LocalDestination} (hp : d.path.At P) {z : Name}
    (hz : z.val ∉ newest keep (committedIds none P w)) :
    Moves (Removes (Condemned keep P w)) (d.delete z.val) :=
  (d.delete_removes z.val).mono (fun _ _ hr => hr.mono (by
    rw [LocalDestination.delete_spots hp]
    exact fun q hq => ⟨z, hz, hq⟩))

section Purge

variable {site : Site} {config : Config} {dest : DestinationConfig} {d : LocalDestination}
  {now : Datetime} {in_progress_id : Option String} {s s' : Pipe}
  {res : Except Exn (DestinationPurgeResult × Bool)}

/-- A purge removes ids outside the newest, and when it reports no error everything that was
listed as complete outside the newest is gone. -/
theorem purge_removes (hp : d.path.At P)
    (hbuild : site.build_destination dest config.transfer = d.toDestination)
    (h : Kept pre dest.keep P last s.world)
    (hrun : exec (purge_one_destination site config dest now false in_progress_id) s = (res, s')) :
    Removes (Condemned dest.keep P s.world) s.world s'.world ∧ ∀ result, res = .ok (result, false) →
      ∀ x : Name, x.val ∈ completeIds (LocalDestination.records s.world.fs P) →
        x.val ∉ newest dest.keep (committedIds none P s.world) →
          s'.world.fs.kind (P ++ [x]) = none := by
  rcases purge_one_cases hrun with ⟨r, hlist, herr⟩ | ⟨stored, plan, u, r, hlist, hplan, hdel, rfl⟩
  · rw [hbuild] at hlist
    refine ⟨(((LocalDestination.list_backups_reads hp).moves).of_exec hlist).removes _, ?_⟩
    intro result hres
    exact absurd (herr _ hres).1 (by simp)
  · rw [hbuild] at hlist hdel
    obtain ⟨hsame, -, -, rfl⟩ := LocalDestination.list_backups_ok hp hlist
    have hmoves :
        ∀ i ∈ plan.delete, Moves (Removes (Condemned dest.keep P s.world)) (d.delete i) := by
      intro i hi
      obtain ⟨z, rfl, hz⟩ := h.planned hplan hi
      exact delete_condemned hp hz
    refine ⟨trans_of _ (hsame.removes _) ((delete_planned_moves hmoves false).of_exec hdel), ?_⟩
    rintro result hres x hx hxnew
    cases r with
    | error e => cases hres
    | ok o =>
      obtain ⟨-, ho⟩ := Prod.mk.inj (Except.ok.inj hres)
      obtain ⟨hgone, hall⟩ := delete_planned_gone
        (fun i w => ∀ z : Name, z.val = i → w.fs.kind (P ++ [z]) = none) hmoves
        (fun i w w' hr hi z hz => hr.none_of_none (hi z hz))
        (fun i hi w w' hd z hz => by
          subst hz
          exact (LocalDestination.delete_ok hp hd).1) hdel
      have hrank :
          dest.keep ≤ above (completeIds (LocalDestination.records s.world.fs P)) x.val := by
        by_contra hlt
        refine hxnew ?_
        rw [← newest_between h.listed.1 h.listed.2]
        exact mem_newest.mpr ⟨hx, by omega⟩
      have hmem := (mem_delete_cases (LocalDestination.nodup_complete_records _ _) hplan).1 x.val hx
        hrank
      exact (hgone x.val (by rw [hall ho]; exact hmem)).2 x rfl

end Purge

end Kept

section

variable {cwd : Loc} {nodes : String → RemoteNode} {config : Config} {dest : DestinationConfig}

theorem DestinationConfig.IsLocal.at (hd : dest.IsLocal) (cwd : Loc) :
    (LocalDestination.from_config cwd dest).path.At (localRoot cwd dest) :=
  Path.configured_at hd.path

theorem DestinationConfig.IsLocal.build (hd : dest.IsLocal) (transfer : TransferConfig) :
    (site cwd nodes).build_destination dest transfer =
      (LocalDestination.from_config cwd dest).toDestination := by
  simp [site, build_destination, hd.type]

theorem DestinationConfig.find_of_nul
    (hnul : (LocalDestination.from_config cwd dest).path.nul = true) (t : Fs) :
    (LocalDestination.from_config cwd dest).path.isDirIn t = false := by
  simp [Path.isDirIn, Path.find_nul hnul]

theorem DestinationConfig.parts_of_nul
    (hnul : (LocalDestination.from_config cwd dest).path.nul = false) :
    ∀ s ∈ (PurePath.parse dest.path).parts, hasNul s = false := by
  simpa [LocalDestination.from_config, Path.configured] using hnul

theorem DestinationConfig.at_of_nul
    (hnul : (LocalDestination.from_config cwd dest).path.nul = false) :
    (LocalDestination.from_config cwd dest).path.At (localRoot cwd dest) :=
  Path.configured_at (parts_of_nul hnul)

theorem LocalHistory.kept (hd : dest.IsLocal) (hslash : '/' ∉ config.backup.name_prefix.toList)
    {w : World} {last : Option ℤ} (h : LocalHistory cwd nodes config dest w last) :
    Kept config.backup.name_prefix dest.keep (localRoot cwd dest) last w := by
  induction h with
  | start hempty hnone => exact Kept.start hempty hnone
  | store _ ht hyear hlater hid hsrc ih =>
    exact ih.store (hd.at cwd) hslash ht hyear hlater hid hsrc
  | purge _ now in_progress_id ih =>
    exact ih.removes (ih.purge_removes (hd.at cwd) (hd.build _) rfl).1
  | elsewhere _ hkind hcommits hsub ih =>
    exact ih.unchanged (fun y r => hkind _ ⟨[y] ++ r, by simp⟩) hcommits hsub
      (fun l hl => ⟨l, hl, le_rfl⟩)

/-- In every world of a history the newest `min keep n` of the `n` committed generations are as
they were committed and are listed as complete; and right after a purge without an error they
are all that is listed as complete. -/
theorem newest_generations_survive (hd : dest.IsLocal)
    (hslash : '/' ∉ config.backup.name_prefix.toList) (s : Pipe) {last : Option ℤ}
    (h : LocalHistory cwd nodes config dest s.world last) :
    (newest dest.keep (committedIds none (localRoot cwd dest) s.world)).card =
        min dest.keep (committed none (localRoot cwd dest) s.world).length ∧
      (∀ x ∈ committed none (localRoot cwd dest) s.world,
        x.val ∈ newest dest.keep (committedIds none (localRoot cwd dest) s.world) →
          Intact (localRoot cwd dest) s.world x) ∧
      (∀ stored u, exec (LocalDestination.from_config cwd dest).list_backups s.world =
          (.ok stored, u) →
        newest dest.keep (committedIds none (localRoot cwd dest) s.world) ⊆ completeIds stored) ∧
      ∀ now in_progress_id result s', exec (purge_one_destination (site cwd nodes) config dest now
          false in_progress_id) s = (.ok (result, false), s') →
        ∀ stored u, exec (LocalDestination.from_config cwd dest).list_backups s'.world =
            (.ok stored, u) →
          completeIds stored = newest dest.keep (committedIds none (localRoot cwd dest) s'.world) ∧
            committed none (localRoot cwd dest) s'.world =
              committed none (localRoot cwd dest) s.world := by
  have hk := h.kept hd hslash
  refine ⟨?_, hk.intact, fun stored u hlist => ?_, ?_⟩
  · rw [card_newest, committedIds, List.toFinset_card_of_nodup, List.length_map]
    exact (List.pairwise_map.mpr hk.ascending).imp (fun hxy => ne_of_lt hxy)
  · obtain ⟨-, -, -, rfl⟩ := LocalDestination.list_backups_ok (hd.at cwd) hlist
    exact hk.listed.1
  · intro now in_progress_id result s' hrun stored u hlist
    obtain ⟨hrem, hgone⟩ := hk.purge_removes (hd.at cwd) (hd.build _) hrun
    have hk' := hk.removes hrem
    have hcommitted := committed_congr (h := none) (P := localRoot cwd dest) hrem.commits
    have hids : committedIds none (localRoot cwd dest) s'.world =
        committedIds none (localRoot cwd dest) s.world := by
      rw [committedIds, hcommitted, committedIds]
    obtain ⟨-, -, -, rfl⟩ := LocalDestination.list_backups_ok (hd.at cwd) hlist
    refine ⟨Finset.Subset.antisymm (fun i hi => ?_) hk'.listed.1, hcommitted⟩
    -- what is still listed was listed before, and only the newest were not deleted
    have hbefore := LocalDestination.completeIds_removes hrem hi
    obtain ⟨x, rfl, -, hdir, -⟩ := LocalDestination.mem_completeIds_records.mp hi
    by_contra hnot
    rw [hids] at hnot
    rw [hgone result rfl x hbefore hnot] at hdir
    cases hdir

end

/-- A world with a generation to store. -/
def sourceWorld : World := smallWorld (smallTree.addGeneration [entry "w", entry "x"])

def purgedAt (now : Datetime) (w : World) : World :=
  (exec (purge_one_destination (site [] smallNodes) (smallConfig "/w" "p" "/b" 1)
    (smallDestination "/b" 1) now false none) ⟨w, []⟩).2.world

/-- Two stores in two seconds, and a purge that keeps one generation. -/
def purgedWorld : World :=
  purgedAt (Datetime.utc 1700000001000000)
    (storeUnder smallLocal.toDestination "p-20231114T221321Z"
      (storeUnder smallLocal.toDestination "p-20231114T221320Z" sourceWorld))

theorem sourceWorld_history : LocalHistory [] smallNodes (smallConfig "/w" "p" "/b" 1)
    (smallDestination "/b" 1) sourceWorld none := by
  have hall : ∀ q ∈ (smallTree.addGeneration [entry "w", entry "x"]).locs,
      [entry "b"] <+: q → q = [entry "b"] := by decide
  refine .start (fun q hq hne => ?_) rfl
  by_contra hk
  refine hne (hall q (FileTree.finite _ q (fun hn => hk ?_)) hq)
  exact congrArg (Option.map Node.kind) hn

theorem source_of_manifest {w : World}
    (h : w.fs.kind [entry "w", entry "x", META_FILENAME] = some (.file "")) :
    Source [entry "b"] w (Path.configured [] (PurePath.parse "/w/x")) :=
  ⟨[entry "w", entry "x"], ⟨⟨[], rfl, by decide⟩, rfl⟩, by decide, by decide, "", h⟩

theorem stored_history {w : World} {last : Option ℤ} {now : Datetime} {t : Instant}
    {backup_id : String}
    (h : LocalHistory [] smallNodes (smallConfig "/w" "p" "/b" 1) (smallDestination "/b" 1) w last)
    (ht : now.instant = some t) (hyear : FourDigitYear t)
    (hlater : ∀ l, last = some l → l < second t) (hid : generate_backup_id "p" now = .ok backup_id)
    (hmeta : w.fs.kind [entry "w", entry "x", META_FILENAME] = some (.file "")) :
    LocalHistory [] smallNodes (smallConfig "/w" "p" "/b" 1) (smallDestination "/b" 1)
      (storeUnder smallLocal.toDestination backup_id w) (some (second t)) :=
  h.store ht hyear hlater hid (source_of_manifest hmeta)

theorem purged_history {w : World} {last : Option ℤ} (now : Datetime)
    (h : LocalHistory [] smallNodes (smallConfig "/w" "p" "/b" 1) (smallDestination "/b" 1) w
      last) :
    LocalHistory [] smallNodes (smallConfig "/w" "p" "/b" 1) (smallDestination "/b" 1)
      (purgedAt now w) last :=
  LocalHistory.purge (s := ⟨w, []⟩) h now none

theorem purgedWorld_history : LocalHistory [] smallNodes (smallConfig "/w" "p" "/b" 1)
    (smallDestination "/b" 1) purgedWorld (some 1700000001) := by
  have hyear : FourDigitYear 1700000000000000 := by decide
  have hyear' : FourDigitYear 1700000001000000 := by decide
  have hfirst := @stored_history _ _ (Datetime.utc 1700000000000000) _ "p-20231114T221320Z"
    sourceWorld_history rfl hyear (by simp) rfl (by decide)
  have hsecond :=
    @stored_history _ _ (Datetime.utc 1700000001000000) _ "p-20231114T221321Z" hfirst rfl
    hyear' (by
      intro l hl
      rw [← Option.some.inj hl]
      decide) rfl (by decide +kernel)
  exact purged_history (Datetime.utc 1700000001000000) hsecond
/-- Of the two generations the purge leaves the second, as it was committed. -/
theorem newest_generations_survive_purge :
    committed none [entry "b"] purgedWorld =
        [entry "p-20231114T221320Z", entry "p-20231114T221321Z"] ∧
      Intact [entry "b"] purgedWorld (entry "p-20231114T221321Z") ∧
      purgedWorld.fs.kind [entry "b", entry "p-20231114T221320Z"] = none := by
  have hcommitted : committed none [entry "b"] purgedWorld =
      [entry "p-20231114T221320Z", entry "p-20231114T221321Z"] := by
    decide +kernel
  have hgone : purgedWorld.fs.kind [entry "b", entry "p-20231114T221320Z"] = none := by
    decide +kernel
  have hroot : localRoot [] (smallDestination "/b" 1) = [entry "b"] := by decide
  have hhistory := purgedWorld_history
  generalize purgedWorld = w at *
  have h := (newest_generations_survive ⟨rfl, by decide⟩ (by decide) ⟨w, []⟩ hhistory).2.1
  rw [hroot] at h
  refine ⟨hcommitted, h _ ?_ ?_, hgone⟩
  · rw [hcommitted]
    decide
  · rw [committedIds, hcommitted]
    decide

end MbKeeper
